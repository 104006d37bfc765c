import OqsBind.Isc.Ascii

/-! Base 32 (`isc/base32.c`). The target buffers are large enough. -/

namespace OqsBind.Isc.Base32

/-- `base32hex`: the digits, the padding, and the digits again in lower case. -/
def base32hex : Bytes :=
  [0x30, 0x31, 0x32, 0x33, 0x34, 0x35, 0x36, 0x37, 0x38, 0x39, 0x41, 0x42, 0x43, 0x44, 0x45, 0x46,
   0x47, 0x48, 0x49, 0x4a, 0x4b, 0x4c, 0x4d, 0x4e, 0x4f, 0x50, 0x51, 0x52, 0x53, 0x54, 0x55, 0x56, 0x3d,
   0x30, 0x31, 0x32, 0x33, 0x34, 0x35, 0x36, 0x37, 0x38, 0x39, 0x61, 0x62, 0x63, 0x64, 0x65, 0x66,
   0x67, 0x68, 0x69, 0x6a, 0x6b, 0x6c, 0x6d, 0x6e, 0x6f, 0x70, 0x71, 0x72, 0x73, 0x74, 0x75, 0x76]

/-- `base32`. -/
def base32 : Bytes :=
  [0x41, 0x42, 0x43, 0x44, 0x45, 0x46, 0x47, 0x48, 0x49, 0x4a, 0x4b, 0x4c, 0x4d, 0x4e, 0x4f, 0x50,
   0x51, 0x52, 0x53, 0x54, 0x55, 0x56, 0x57, 0x58, 0x59, 0x5a, 0x32, 0x33, 0x34, 0x35, 0x36, 0x37, 0x3d,
   0x61, 0x62, 0x63, 0x64, 0x65, 0x66, 0x67, 0x68, 0x69, 0x6a, 0x6b, 0x6c, 0x6d, 0x6e, 0x6f, 0x70,
   0x71, 0x72, 0x73, 0x74, 0x75, 0x76, 0x77, 0x78, 0x79, 0x7a, 0x32, 0x33, 0x34, 0x35, 0x36, 0x37]

def digits (source : Bytes) : List Nat :=
  let s := fun i => (source.map UInt8.toNat).getD i 0
  [s 0 >>> 3 &&& 0x1f, (s 0 <<< 2 &&& 0x1c) ||| (s 1 >>> 6 &&& 0x03), s 1 >>> 1 &&& 0x1f,
   (s 1 <<< 4 &&& 0x10) ||| (s 2 >>> 4 &&& 0x0f), (s 2 <<< 1 &&& 0x1e) ||| (s 3 >>> 7 &&& 0x01), s 3 >>> 2 &&& 0x1f,
   (s 3 <<< 3 &&& 0x18) ||| (s 4 >>> 5 &&& 0x07), s 4 &&& 0x1f]

/-- How many digits are written for so many octets. -/
def written : Nat → Nat
  | 0 => 0
  | 1 => 2
  | 2 => 4
  | 3 => 5
  | 4 => 7
  | _ => 8

/-- The text of a group. `str_totext` writes it up to the first NUL. -/
def buf (base : Bytes) (pad : UInt8) (source : Bytes) : Bytes :=
  let n := written source.length
  (((digits source).take n).map (base.getD · 0) ++ List.replicate (8 - n) pad).takeWhile (· ≠ 0)

/-- The loop of `base32_totext`, with `loops` groups in this word so far. -/
def totextLoop (base : Bytes) (pad : UInt8) (wordlength : Int) (wordbreak : Bytes) : (loops : Nat) → (source : Bytes) → Bytes
  | _, [] => []
  | loops, a :: b :: c :: d :: e :: source =>
    buf base pad [a, b, c, d, e] ++
      if source ≠ [] ∧ 0 ≤ wordlength ∧ wordlength ≤ Int.bmod ((loops + 1 + 1) * 8) (2 ^ 32) then
        wordbreak ++ totextLoop base pad wordlength wordbreak 0 source
      else totextLoop base pad wordlength wordbreak (loops + 1) source
  | _, source => buf base pad source

/-- `base32_totext`. -/
def totext (base : Bytes) (pad : UInt8) (wordlength : Int) (wordbreak source : Bytes) : Bytes :=
  totextLoop base pad (if 0 ≤ wordlength ∧ wordlength < 8 then 8 else wordlength) wordbreak 0 source

def hexnpTotext (wordlength : Int) (wordbreak source : Bytes) : Bytes := totext base32hex 0 wordlength wordbreak source

/-- `base32_decode_ctx_t`, for text of any length: the digits that are buffered, and the octets decoded so far. -/
structure Ctx where
  val : List Nat
  seenEnd : Bool
  seen32 : Nat
  target : Bytes
deriving DecidableEq, Repr

/-- How many octets the digits before the first padding make; the bits that are left over are zero. -/
def significant : (val : List Nat) → Option Nat
  | [_, b] => if b &&& 0x03 ≠ 0 then none else some 1
  | [_, _, _, d] => if d &&& 0x0f ≠ 0 then none else some 2
  | [_, _, _, _, e] => if e &&& 0x01 ≠ 0 then none else some 3
  | [_, _, _, _, _, _, g] => if g &&& 0x07 ≠ 0 then none else some 4
  | _ => none

/-- Five octets of eight digits. -/
def group (val : List Nat) : Bytes :=
  let v := fun i => val.getD i 0
  [UInt8.ofNat (v 0 <<< 3 ||| v 1 >>> 2), UInt8.ofNat (v 1 <<< 6 ||| v 2 <<< 1 ||| v 3 >>> 4),
   UInt8.ofNat (v 3 <<< 4 ||| v 4 >>> 1), UInt8.ofNat (v 4 <<< 7 ||| v 5 <<< 2 ||| v 6 >>> 3),
   UInt8.ofNat (v 6 <<< 5 ||| v 7)]

/-- A digit is buffered, and a full buffer is decoded. -/
def push (ctx : Ctx) (seen32 v : Nat) : Ctx :=
  if ctx.val.length + 1 = 8 then
    let n := if seen32 ≠ 0 then seen32 else 5
    ⟨[], seen32 ≠ 0, seen32, ctx.target ++ (group (ctx.val ++ [v])).take n⟩
  else { ctx with val := ctx.val ++ [v], seen32 }

/-- The value of a character, where 32 is padding. `strchr` finds the NUL at the end of the alphabet, too. -/
def index (base : Bytes) (c : UInt8) : Option Nat :=
  ((base ++ [0]).findIdx? (· = c)).map fun last => if 32 < last then last - 33 else last

/-- A value is taken if it may stand here. -/
def accept (pad : Bool) (ctx : Ctx) (last : Nat) : Option Ctx :=
  if last ≠ 32 then
    if ctx.seen32 ≠ 0 then none else some (push ctx 0 last)
  else if !pad then none
  else if ctx.seen32 = 0 then
    match significant ctx.val with
    | none => none
    | some n => some (push ctx n 0)
  else some (push ctx ctx.seen32 0)

/-- `base32_decode_char`; there is no result for `ISC_R_BADBASE32`. -/
def decodeChar (base : Bytes) (pad : Bool) (ctx : Ctx) (c : UInt8) : Option Ctx :=
  if ctx.seenEnd then none else (index base c).bind (accept pad ctx)

/-- `base32_decode_finish`. Each round of its loop adds a digit, until the group is full. -/
def decodeFinish (base : Bytes) (pad : Bool) (ctx : Ctx) : Option Bytes :=
  (if !pad && ctx.val ≠ [] then (List.replicate (8 - ctx.val.length) 0x3d).foldlM (decodeChar base true) ctx
    else some ctx).bind fun ctx => if ctx.val ≠ [] then none else some ctx.target

/-- `base32_decoderegion`. -/
def decoderegion (base : Bytes) (pad : Bool) (source : Bytes) : Option Bytes :=
  (source.foldlM (decodeChar base pad) ⟨[], false, 0, []⟩).bind (decodeFinish base pad)

/-- `isc_base32hex_decoderegion`. -/
def hexDecoderegion (source : Bytes) : Option Bytes := decoderegion base32hex true source

/-- The characters that the `decodestring` functions skip. -/
def white : Bytes := [0x20, 0x09, 0x0a, 0x0d]

/-- The loop of the `decodestring` functions, up to the NUL. -/
def decodeText {σ : Type} (decodeChar : σ → UInt8 → Option σ) (cstr : Bytes) (ctx : σ) : Option σ :=
  (cstr.takeWhile (· ≠ 0)).foldlM (fun ctx c => if c ∈ white then some ctx else decodeChar ctx c) ctx

def decodestring (base : Bytes) (pad : Bool) (cstr : Bytes) : Option Bytes :=
  (decodeText (decodeChar base pad) cstr ⟨[], false, 0, []⟩).bind (decodeFinish base pad)

end OqsBind.Isc.Base32
