import OqsBind.Dst.PrivateFile
import OqsBind.Isc.Endian

/-! Stateful signatures (`liboqsstateful_link.c`). Each load of a private key file makes an object of its own, with its own
    secret key and its own lock; the store callback of each rewrites the one file. -/

namespace OqsBind.Dst.Stateful
open Isc

/-- The functions of liboqs for one parameter set, where a secret key is known by its index. -/
structure Scheme where
  capacity : Nat
  secretLength : Nat
  publicLength : Nat
  serialize : Nat → Bytes
  deserialize : Bytes → Option Nat
  deserialize_serialize : ∀ i ≤ capacity, deserialize (serialize i) = some i
  length_serialize : ∀ i, (serialize i).length = secretLength
  secretLength_le : secretLength ≤ MAXFIELDSIZE
  publicLength_le : publicLength ≤ MAXFIELDSIZE

/-- The algorithms of `liboqsstateful_alg_info`. -/
inductive Stfl where
  | xmss | xmssmt
deriving DecidableEq, Repr

def Stfl.alg : Stfl → Algorithm
  | .xmss => .xmss
  | .xmssmt => .xmssmt

/-- `OQS_SIG_STFL_new` after `oid_to_name`. -/
abbrev Liboqs := Stfl → Nat → Option Scheme

/-- `dst_key_t` with its `oqs_stfl_keypair`. While the lock is held, `signing` is the index that is being used. -/
structure Object where
  key : Key
  ctx : Scheme
  pub : Bytes
  index : Nat
  signing : Option Nat

def XMSS_OID_LEN : Nat := 4

/-- `xmss_key_to_oid`. -/
def xmssKeyToOid (key : Bytes) : Nat := if key.length < XMSS_OID_LEN then 0 else get32 key

/-- The codes of `dst_key_fromnamedfile` other than `ISC_R_SUCCESS`, or a failed assertion. -/
inductive LoadError where
  | file (e : Error)
  | invalidprivatekey | cryptofailure | nomemory | nospace | insist
deriving DecidableEq, Repr

/-- `TAG_XMSS_PRIVATEKEY` or `TAG_XMSSMT_PRIVATEKEY`. -/
def privateTag (e : Element) : Bool := e.tag == TAG .xmss 0 || e.tag == TAG .xmssmt 0

/-- `TAG_XMSS_PUBLICKEY` or `TAG_XMSSMT_PUBLICKEY`. -/
def publicTag (e : Element) : Bool := e.tag == TAG .xmss 1 || e.tag == TAG .xmssmt 1

/-- `liboqsstateful_parse`. Of several elements with a tag the last one counts. -/
def parse (lib : Liboqs) (stfl : Stfl) (file : List Line) : Except LoadError Object :=
  match privstructParse (.fresh stfl.alg) stfl.alg file with
  | .error e => .error (.file e)
  | .ok (key, priv) =>
    match priv.used.reverse.find? privateTag, priv.used.reverse.find? publicTag with
    | some sk, some pk =>
      if xmssKeyToOid pk.data = 0 then .error .cryptofailure
      else
        match lib stfl (xmssKeyToOid pk.data) with
        | none => .error .nomemory
        | some ctx =>
          if sk.data.length ≠ ctx.secretLength ∨ pk.data.length ≠ ctx.publicLength then .error .insist
          else
            match ctx.deserialize sk.data with
            | none => .error .nomemory
            | some index => .ok ⟨key, ctx, pk.data, index, none⟩
    | _, _ => .error .invalidprivatekey

/-- What a public key file says (`dst_key_read_public`). -/
structure Public where
  flags : Nat
  proto : Nat
  pub : Bytes

def DNS_KEYFLAG_EXTENDED : Nat := 0x1000
def DST_KEY_MAXSIZE : Nat := 5120

/-- `dst_key_todns`. -/
def todns (flags proto : Nat) (alg : Algorithm) (pub : Bytes) : Option Bytes :=
  let head := be16 flags ++ [UInt8.ofNat proto, UInt8.ofNat alg.number] ++
    if flags / DNS_KEYFLAG_EXTENDED % 2 = 1 then be16 (flags / 2 ^ 16) else []
  if head.length + pub.length ≤ DST_KEY_MAXSIZE then some (head ++ pub) else none

/-- The loop of `dst_region_computeid`. -/
def sumWords : Bytes → Nat
  | [] => 0
  | [a] => a.toNat * 2 ^ 8
  | a :: b :: rest => a.toNat * 2 ^ 8 + b.toNat + sumWords rest

/-- `dst_region_computeid`. -/
def computeid (region : Bytes) : Nat :=
  let ac := sumWords region
  (ac + ac / 2 ^ 16 % 2 ^ 16) % 2 ^ 16

/-- `dst_key_fromnamedfile`, for a private key without its state file. -/
def fromnamedfile (lib : Liboqs) (stfl : Stfl) (pubkey : Public) (file : List Line) : Except LoadError Object :=
  match todns pubkey.flags pubkey.proto stfl.alg pubkey.pub with
  | none => .error .nospace
  | some region =>
    match parse lib stfl file with
    | .error e => .error e
    | .ok o =>
      match todns pubkey.flags pubkey.proto stfl.alg o.pub with
      | none => .error .nospace
      | some region' => if computeid region = computeid region' then .ok o else .error .invalidprivatekey

/-- The elements that `keys_to_file` writes. -/
def keyElements (alg : Algorithm) (secret pub : Bytes) : Private :=
  ⟨2, ((Vector.replicate MAXFIELDS ⟨0, []⟩).setIfInBounds 0 ⟨TAG alg 0, secret⟩).setIfInBounds 1 ⟨TAG alg 1, pub⟩⟩

/-- `keys_to_file`. -/
def keysToFile (o : Object) (secret : Bytes) : Except Error (List Line) :=
  privstructWritefile o.key (keyElements o.key.alg secret o.pub)

/-- The file, the objects that were loaded from it, and the indices of the signatures that were given out. -/
structure State where
  file : List Line
  objects : List Object
  used : List Nat

inductive Op where
  /-- A file is read as it was when it was opened, since a new file takes the place of an old one by `rename`. -/
  | load
  /-- `OQS_SIG_STFL_sign` takes the lock of the object, signs, and advances the index. -/
  | sign (o : Nat)
  /-- `save_secret_key` and the end of `OQS_SIG_STFL_sign`: without a file there is no signature. -/
  | store (o : Nat) (written : Bool)
deriving DecidableEq, Repr

section
variable (lib : Liboqs) (stfl : Stfl) (pubkey : Public)

/-- One step; `none` if it has to wait, or there is no such object. -/
def step (s : State) : Op → Option State
  | .load =>
    match fromnamedfile lib stfl pubkey s.file with
    | .error _ => some s
    | .ok o => some { s with objects := s.objects ++ [o] }
  | .sign i =>
    match s.objects[i]? with
    | none => none
    | some o =>
      if o.signing.isSome then none
      else if o.index < o.ctx.capacity then
        some { s with objects := s.objects.set i { o with index := o.index + 1, signing := some o.index } }
      else some s
  | .store i written =>
    match s.objects[i]? with
    | none => none
    | some o =>
      match o.signing with
      | none => none
      | some index =>
        let objects := s.objects.set i { o with signing := none }
        if written then
          match keysToFile o (o.ctx.serialize o.index) with
          | .ok file => some ⟨file, objects, s.used ++ [index]⟩
          | .error _ => some { s with objects }
        else some { s with objects }

/-- The index in a file. -/
def fileIndex (file : List Line) : Nat :=
  match parse lib stfl file with
  | .ok o => o.index
  | .error _ => 0

end

end OqsBind.Dst.Stateful
