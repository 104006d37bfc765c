import OqsBind.Isc.Base32

/-! Base 64 (`isc/base64.c`). Three octets make four digits. The target buffers are large enough. -/

namespace OqsBind.Isc.Base64

open Base32 (decodeText)

/-- `A` to `Z`, `a` to `z`, `0` to `9`, `+` and `/`, and the padding. -/
def base64 : Bytes := (List.range' 65 26 ++ List.range' 97 26 ++ List.range' 48 10 ++ [43, 47, 61]).map UInt8.ofNat

/-- The digits of a group. Octets after its end count as zero. -/
def digits (source : Bytes) : List Nat :=
  let s := fun i => (source.map UInt8.toNat).getD i 0
  [s 0 >>> 2 &&& 0x3f, (s 0 <<< 4 &&& 0x30) ||| (s 1 >>> 4 &&& 0x0f), (s 1 <<< 2 &&& 0x3c) ||| (s 2 >>> 6 &&& 0x03),
   s 2 &&& 0x3f]

def buf (source : Bytes) : Bytes :=
  (((digits source).take (source.length + 1)).map (base64.getD · 0) ++ List.replicate (3 - source.length) 0x3d).takeWhile (· ≠ 0)

def totextLoop (wordlength : Int) (wordbreak : Bytes) : (loops : Nat) → (source : Bytes) → Bytes
  | _, [] => []
  | loops, a :: b :: c :: source =>
    buf [a, b, c] ++
      if source ≠ [] ∧ wordlength ≤ Int.bmod ((loops + 1 + 1) * 4) (2 ^ 32) then
        wordbreak ++ totextLoop wordlength wordbreak 0 source
      else totextLoop wordlength wordbreak (loops + 1) source
  | _, source => buf source

def totext (wordlength : Int) (wordbreak source : Bytes) : Bytes :=
  totextLoop (if wordlength < 4 then 4 else wordlength) wordbreak 0 source

/-- `base64_decode_ctx_t`, for text of any length. -/
structure Ctx where
  val : List Nat
  seenEnd : Bool
  target : Bytes
deriving DecidableEq, Repr

def group (v₀ v₁ v₂ v₃ : Nat) : Bytes :=
  [UInt8.ofNat (v₀ <<< 2 ||| v₁ >>> 4), UInt8.ofNat (v₁ <<< 4 ||| v₂ >>> 2), UInt8.ofNat (v₂ <<< 6 ||| v₃)]

/-- The part of `base64_decode_char` for the digits so far, which are decoded if there are four; 64 is padding. -/
def accept (target : Bytes) : (val : List Nat) → Option Ctx
  | [v₀, v₁, v₂, v₃] =>
    if v₀ = 64 ∨ v₁ = 64 then none
    else if v₂ = 64 ∧ v₃ ≠ 64 then none
    else if v₂ = 64 ∧ v₁ &&& 0xf ≠ 0 then none
    else if v₃ = 64 ∧ v₂ &&& 0x3 ≠ 0 then none
    else
      let n := if v₂ = 64 then 1 else if v₃ = 64 then 2 else 3
      some ⟨[], n ≠ 3, target ++ (group v₀ v₁ (if v₂ = 64 then 0 else v₂) (if v₃ = 64 then 0 else v₃)).take n⟩
  | val => some ⟨val, false, target⟩

/-- `base64_decode_char`. `strchr` finds the NUL at the end of the alphabet, too. -/
def decodeChar (ctx : Ctx) (c : UInt8) : Option Ctx :=
  if ctx.seenEnd then none
  else ((base64 ++ [0]).findIdx? (· = c)).bind fun v => accept ctx.target (ctx.val ++ [v])

def decodeFinish (ctx : Ctx) : Option Bytes := if ctx.val ≠ [] then none else some ctx.target

def decodestring (cstr : Bytes) : Option Bytes := (decodeText decodeChar cstr ⟨[], false, []⟩).bind decodeFinish

end OqsBind.Isc.Base64
