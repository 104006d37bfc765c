import OqsBind.Isc.Ascii

/-! Private key files (`dst_parse.c`), as lists of lines with what the lexer and the decoders read on them; blank lines and
    errors of the file system are left out. -/

namespace OqsBind.Dst
open Isc

/-- `dst_algorithm_t`. `rsa` is also `DST_ALG_RSAMD5`. -/
inductive Algorithm where
  | unknown | rsa | dh | dsa | ecc | rsasha1 | nsec3dsa | nsec3rsasha1 | rsasha256 | rsasha512 | eccgost | ecdsa256 | ecdsa384
  | ed25519 | ed448 | falcon512 | dilithium2 | sphincssha256128s | xmss | xmssmt | hmacmd5 | gssapi | hmacsha1 | hmacsha224
  | hmacsha256 | hmacsha384 | hmacsha512 | indirect | «private»
deriving DecidableEq, Repr

def Algorithm.number : Algorithm → Nat
  | .unknown => 0 | .rsa => 1 | .dh => 2 | .dsa => 3 | .ecc => 4 | .rsasha1 => 5 | .nsec3dsa => 6 | .nsec3rsasha1 => 7
  | .rsasha256 => 8 | .rsasha512 => 10 | .eccgost => 12 | .ecdsa256 => 13 | .ecdsa384 => 14 | .ed25519 => 15 | .ed448 => 16
  | .falcon512 => 17 | .dilithium2 => 18 | .sphincssha256128s => 19 | .xmss => 20 | .xmssmt => 21 | .hmacmd5 => 157
  | .gssapi => 160 | .hmacsha1 => 161 | .hmacsha224 => 162 | .hmacsha256 => 163 | .hmacsha384 => 164 | .hmacsha512 => 165
  | .indirect => 252 | .private => 254

/-- What `dst__privstruct_writefile` writes after the number. -/
def Algorithm.mnemonic : Algorithm → String
  | .rsasha1 => "RSASHA1" | .nsec3rsasha1 => "NSEC3RSASHA1" | .rsasha256 => "RSASHA256" | .rsasha512 => "RSASHA512"
  | .ecdsa256 => "ECDSAP256SHA256" | .ecdsa384 => "ECDSAP384SHA384" | .ed25519 => "ED25519" | .ed448 => "ED448"
  | .hmacmd5 => "HMAC_MD5" | .hmacsha1 => "HMAC_SHA1" | .hmacsha224 => "HMAC_SHA224" | .hmacsha256 => "HMAC_SHA256"
  | .hmacsha384 => "HMAC_SHA384" | .hmacsha512 => "HMAC_SHA512" | .falcon512 => "FALCON512" | .dilithium2 => "DILITHIUM2"
  | .sphincssha256128s => "SPHINCS+-SHA256-128S" | .xmss => "XMSS" | .xmssmt => "XMSSMT" | _ => "?"

def MAXFIELDSIZE : Nat := 39000
def MAXFIELDS : Nat := 18
def TAG_SHIFT : Nat := 4
def TAG_ALG (tag : Nat) : Nat := tag / 2 ^ TAG_SHIFT
def TAG (alg : Algorithm) (off : Nat) : Nat := alg.number * 2 ^ TAG_SHIFT + off

def RSA_NTAGS : Nat := 11
def ECDSA_NTAGS : Nat := 4
def EDDSA_NTAGS : Nat := 4
def OLD_HMACMD5_NTAGS : Nat := 1
def HMAC_NTAGS : Nat := 2
def OQS_NTAGS : Nat := 2

/-- `map`, by algorithm: the tags of each are numbered in this order. -/
def algorithmTags : List (Algorithm × List String) :=
  [(.rsa, ["Modulus:", "PublicExponent:", "PrivateExponent:", "Prime1:", "Prime2:", "Exponent1:", "Exponent2:",
      "Coefficient:", "Engine:", "Label:"]),
    (.ecdsa256, ["PrivateKey:", "Engine:", "Label:"]),
    (.ed25519, ["PrivateKey:", "Engine:", "Label:"]),
    (.hmacmd5, ["Key:", "Bits:"]),
    (.hmacsha1, ["Key:", "Bits:"]),
    (.hmacsha224, ["Key:", "Bits:"]),
    (.hmacsha256, ["Key:", "Bits:"]),
    (.hmacsha384, ["Key:", "Bits:"]),
    (.hmacsha512, ["Key:", "Bits:"]),
    (.falcon512, ["PrivateKey:", "PublicKey:"]),
    (.dilithium2, ["PrivateKey:", "PublicKey:"]),
    (.sphincssha256128s, ["PrivateKey:", "PublicKey:"]),
    (.xmss, ["PrivateKey:", "PublicKey:"]),
    (.xmssmt, ["PrivateKey:", "PublicKey:"])]

/-- `map`. -/
def map : List (Nat × String) :=
  algorithmTags.flatMap fun (alg, tags) => tags.zipIdx.map fun (tag, off) => (TAG alg off, tag)

def PRIVATE_KEY_STR : String := "Private-key-format:"
def ALGORITHM_STR : String := "Algorithm:"
def EXTERNAL_STR : String := "External:"

/-- `timetags`; a key has times without a tag. -/
def timetags : List String :=
  ["Created:", "Publish:", "Activate:", "Revoke:", "Inactive:", "Delete:", "DSPublish:", "SyncPublish:", "SyncDelete:"]

/-- `numerictags`. -/
def numerictags : List String := ["Predecessor:", "Successor:", "MaxTTL:", "RollPeriod:"]

/-- `strcasecmp`, for equality. -/
def strcaseeq (s t : String) : Bool := s.toList.map Char.toLower == t.toList.map Char.toLower

def findValue (s : String) (alg : Algorithm) : Option Nat :=
  (map.find? fun e => strcaseeq s e.2 && TAG_ALG e.1 == alg.number).map (·.1)

def findTag (value : Nat) : Option String := (map.find? fun e => value == e.1).map (·.2)

def findMetadata (s : String) (tags : List String) : Option Nat := tags.findIdx? fun tag => strcaseeq s tag

def findTimedata (s : String) : Option Nat := findMetadata s timetags

def findNumericdata (s : String) : Option Nat := findMetadata s numerictags

/-- `dst_private_element_t`. -/
structure Element where
  tag : Nat
  data : Bytes
deriving DecidableEq, Repr

/-- `dst_private_t`. -/
structure Private where
  nelements : Nat
  elements : Vector Element MAXFIELDS
deriving DecidableEq

/-- The elements that count. -/
def Private.used (priv : Private) : List Element := priv.elements.toList.take priv.nelements

/-- `dst_key_t`, as far as private files show it. -/
structure Key where
  alg : Algorithm
  external : Bool
  fmtMajor : Nat
  fmtMinor : Nat
  nums : Nat → Option UInt32
  times : Nat → Option UInt32

/-- A key as `get_key_struct` makes it. -/
def Key.fresh (alg : Algorithm) : Key := ⟨alg, false, 0, 0, fun _ => none, fun _ => none⟩

def Key.setnum (key : Key) (type : Nat) (value : UInt32) : Key :=
  { key with nums := Function.update key.nums type (some value) }

def Key.settime (key : Key) (type : Nat) (when_ : UInt32) : Key :=
  { key with times := Function.update key.times type (some when_) }

/-- What the checks return: 0, -1 or `DST_R_UNSUPPORTEDALG`. -/
inductive Check where
  | ok | invalid | unsupported
deriving DecidableEq, Repr

def Check.ofBool (b : Bool) : Check := if b then .ok else .invalid

def hasTag (priv : Private) (tag : Nat) : Bool := priv.used.any fun e => e.tag == tag

/-- The checks of public key algorithms: all tags are known, and some of them are there. -/
def checkTags (base : Algorithm) (ntags : Nat) (ok : (Nat → Bool) → Bool) (priv : Private) (external : Bool) : Check :=
  if external then .ofBool (priv.nelements == 0)
  else .ofBool (priv.used.all (fun e => (List.range ntags).any fun i => e.tag == TAG base i) &&
    ok fun i => hasTag priv (TAG base i))

/-- With a label, the modulus and the public exponent are enough. -/
def rsaComplete (has : Nat → Bool) : Bool :=
  if has 9 then has 0 && has 1 else has 0 && has 1 && has 2 && has 3 && has 4 && has 5 && has 6 && has 7

/-- The label or the private key. -/
def ecComplete (has : Nat → Bool) : Bool := has 2 || has 0

/-- The private key and the public key. -/
def oqsComplete (has : Nat → Bool) : Bool := has 0 && has 1

def checkRsa : Private → Bool → Check := checkTags .rsa RSA_NTAGS rsaComplete

def checkEcdsa : Private → Bool → Check := checkTags .ecdsa256 ECDSA_NTAGS ecComplete

def checkEddsa : Private → Bool → Check := checkTags .ed25519 EDDSA_NTAGS ecComplete

def checkOqs (alg : Algorithm) : Private → Bool → Check := checkTags alg OQS_NTAGS oqsComplete

def checkXmss (alg : Algorithm) : Private → Bool → Check := checkTags alg OQS_NTAGS oqsComplete

def checkXmssmt (alg : Algorithm) : Private → Bool → Check := checkTags alg OQS_NTAGS oqsComplete

def checkHmacSha (priv : Private) (ntags : Nat) (alg : Algorithm) : Check :=
  .ofBool (priv.nelements == ntags && (List.range ntags).all fun i => hasTag priv (TAG alg i))

/-- The old format has no number of bits. -/
def checkHmacMd5 (priv : Private) (old : Bool) : Check :=
  if priv.nelements ≠ HMAC_NTAGS then
    .ofBool (old && priv.nelements == OLD_HMACMD5_NTAGS && (priv.elements[0]).tag == TAG .hmacmd5 0)
  else .ofBool ((List.range HMAC_NTAGS).all fun i => hasTag priv (TAG .hmacmd5 i))

def checkData (priv : Private) (alg : Algorithm) (old external : Bool) : Check :=
  match alg with
  | .rsa | .rsasha1 | .nsec3rsasha1 | .rsasha256 | .rsasha512 => checkRsa priv external
  | .ecdsa256 | .ecdsa384 => checkEcdsa priv external
  | .ed25519 | .ed448 => checkEddsa priv external
  | .hmacmd5 => checkHmacMd5 priv old
  | .hmacsha1 | .hmacsha224 | .hmacsha256 | .hmacsha384 | .hmacsha512 => checkHmacSha priv HMAC_NTAGS alg
  | .falcon512 | .dilithium2 | .sphincssha256128s => checkOqs alg priv external
  | .xmss => checkXmss alg priv external
  | .xmssmt => checkXmssmt alg priv external
  | _ => .unsupported

/-- What a line holds after its tag. -/
inductive Content where
  | nothing
  | version (major minor : Nat)
  | algorithm (number : Nat) (mnemonic : String)
  | number (value : UInt32)
  | time (when_ : UInt32)
  | base64 (data : Bytes)
deriving DecidableEq, Repr

structure Line where
  tag : String
  content : Content
deriving DecidableEq, Repr

/-- The codes of both functions other than `ISC_R_SUCCESS`. -/
inductive Error where
  | invalidprivatekey | unsupportedalg | writeerror | eof | nospace | badbase64 | badtime
deriving DecidableEq, Repr

def DST_MAJOR_VERSION : Nat := 1
def DST_MINOR_VERSION : Nat := 3

/-- What the loop of `dst__privstruct_parse` changes. -/
structure Reading where
  key : Key
  priv : Private
  external : Bool

/-- A line of key data is stored at the number of the line, not of the element. -/
def Reading.setElement (r : Reading) (n : Nat) (e : Element) : Reading :=
  { r with priv := ⟨r.priv.nelements + 1, r.priv.elements.setIfInBounds n e⟩ }

/-- Line `n` of the key data. -/
def readField (alg : Algorithm) (minor n : Nat) (line : Line) (r : Reading) : Except Error Reading :=
  if line.tag = EXTERNAL_STR then .ok { r with external := true }
  else
    match findNumericdata line.tag with
    | some tag =>
      match line.content with
      | .number value => .ok { r with key := r.key.setnum tag value }
      | _ => .error .invalidprivatekey
    | none =>
      match findTimedata line.tag with
      | some tag =>
        match line.content with
        | .time when_ => .ok { r with key := r.key.settime tag when_ }
        | _ => .error .badtime
      | none =>
        match findValue line.tag alg with
        | none => if DST_MINOR_VERSION < minor then .ok r else .error .invalidprivatekey
        | some tag =>
          match line.content with
          | .base64 data => if data.length ≤ MAXFIELDSIZE then .ok (r.setElement n ⟨tag, data⟩) else .error .nospace
          | _ => .error .badbase64

/-- The loop over the lines from number `n` on, of which there are `MAXFIELDS` at most. -/
def readFields (alg : Algorithm) (minor : Nat) : (n : Nat) → List Line → Reading → Except Error Reading
  | _, [], r => .ok r
  | n, line :: lines, r =>
    if n < MAXFIELDS then
      match readField alg minor n line r with
      | .error e => .error e
      | .ok r => readFields alg minor (n + 1) lines r
    else .ok r

/-- The end of `dst__privstruct_parse`. -/
def Reading.finish (r : Reading) (alg : Algorithm) : Except Error (Key × Private) :=
  if r.external ∧ r.priv.nelements ≠ 0 then .error .invalidprivatekey
  else
    match checkData r.priv alg true r.external with
    | .invalid => .error .invalidprivatekey
    | .unsupported => .error .unsupportedalg
    | .ok => .ok ({ r.key with external := r.external }, r.priv)

/-- `dst__privstruct_parse`. -/
def privstructParse (key : Key) (alg : Algorithm) : List Line → Except Error (Key × Private)
  | [] => .error .eof
  | ⟨tag, .version major minor⟩ :: rest =>
    if tag ≠ PRIVATE_KEY_STR ∨ DST_MAJOR_VERSION < major then .error .invalidprivatekey
    else
      match rest with
      | [] => .error .eof
      | ⟨tag, .algorithm number _⟩ :: lines =>
        if tag ≠ ALGORITHM_STR ∨ number ≠ key.alg.number then .error .invalidprivatekey
        else
          let start : Reading := ⟨{ key with fmtMajor := major, fmtMinor := minor },
            ⟨0, Vector.replicate MAXFIELDS ⟨0, []⟩⟩, false⟩
          match readFields alg minor 0 lines start with
          | .error e => .error e
          | .ok r => r.finish alg
      | _ :: _ => .error .invalidprivatekey
  | _ :: _ => .error .invalidprivatekey

/-- The algorithm with which the `parse` function of a key calls `dst__privstruct_parse`. -/
def Algorithm.parseAs : Algorithm → Algorithm
  | .rsasha1 | .nsec3rsasha1 | .rsasha256 | .rsasha512 => .rsa
  | .ecdsa384 => .ecdsa256
  | .ed448 => .ed25519
  | alg => alg

/-- The version that is written. -/
def Key.version (key : Key) : Nat × Nat :=
  if key.fmtMajor = 0 ∧ key.fmtMinor = 0 then (DST_MAJOR_VERSION, DST_MINOR_VERSION) else (key.fmtMajor, key.fmtMinor)

/-- The line of an element. `fprintf` writes `(null)` for a tag without a text. The text of the data has to fit into a buffer
    of twice `MAXFIELDSIZE`. -/
def Element.line (e : Element) : Except Error Line :=
  if 4 * ((e.data.length + 2) / 3) ≤ MAXFIELDSIZE * 2 then .ok ⟨(findTag e.tag).getD "(null)", .base64 e.data⟩
  else .error .writeerror

def elementLines : List Element → Except Error (List Line)
  | [] => .ok []
  | e :: es =>
    match e.line, elementLines es with
    | .ok line, .ok lines => .ok (line :: lines)
    | .error e, _ => .error e
    | _, .error e => .error e

/-- The lines of the metadata with a tag. -/
def metadataLines (tags : List String) (get : Nat → Option UInt32) (content : UInt32 → Content) : List Line :=
  tags.zipIdx.filterMap fun (tag, i) => (get i).map fun value => ⟨tag, content value⟩

def Key.metadata (key : Key) : List Line :=
  metadataLines numerictags key.nums .number ++ metadataLines timetags key.times .time

/-- `dst__privstruct_writefile`. -/
def privstructWritefile (key : Key) (priv : Private) : Except Error (List Line) :=
  match checkData priv key.alg false key.external with
  | .invalid => .error .invalidprivatekey
  | .unsupported => .error .unsupportedalg
  | .ok =>
    match elementLines priv.used with
    | .error e => .error e
    | .ok elements =>
      let (major, minor) := key.version
      .ok (⟨PRIVATE_KEY_STR, .version major minor⟩ :: ⟨ALGORITHM_STR, .algorithm key.alg.number key.alg.mnemonic⟩ ::
        (elements ++ (if key.external then [⟨EXTERNAL_STR, .nothing⟩] else []) ++
          if 1 < major ∨ (major = 1 ∧ 3 ≤ minor) then key.metadata else []))

end OqsBind.Dst
