import Mathlib.Data.UInt

/-! ASCII case folding (`isc/ascii.h`), octet by octet. -/

namespace OqsBind.Isc

/-- Octet strings: the memory that the C code reads through `uint8_t *`. -/
abbrev Bytes := List UInt8

/-- `isc__ascii_tolower1`. -/
def tolower (c : UInt8) : UInt8 :=
  if 0x41 ≤ c ∧ c ≤ 0x5A then c + 0x20 else c

/-- `isc_ascii_lowerequal` on two regions of one length. -/
def lowerequal (a b : Bytes) : Bool := a.map tolower == b.map tolower

/-- `isc_ascii_lowercmp`: the sign of the first difference after folding, on two regions of one length. -/
def lowercmp : Bytes → Bytes → Int
  | a :: as, b :: bs =>
    if (tolower a).toNat < (tolower b).toNat then -1
    else if (tolower b).toNat < (tolower a).toNat then 1
    else lowercmp as bs
  | _, _ => 0

theorem lowerequal_iff {a b : Bytes} : lowerequal a b = true ↔ a.map tolower = b.map tolower := by
  simp [lowerequal]

theorem tolower_toNat (c : UInt8) :
    (tolower c).toNat = if 65 ≤ c.toNat ∧ c.toNat ≤ 90 then c.toNat + 32 else c.toNat := by
  have hle : (0x41 ≤ c ∧ c ≤ 0x5A) ↔ (65 ≤ c.toNat ∧ c.toNat ≤ 90) := by
    rw [UInt8.le_iff_toNat_le, UInt8.le_iff_toNat_le]
    rfl
  unfold tolower
  by_cases h : 0x41 ≤ c ∧ c ≤ 0x5A
  · rw [if_pos h, if_pos (hle.mp h), UInt8.toNat_add]
    have := hle.mp h
    simp
    omega
  · rw [if_neg h, if_neg (fun h' => h (hle.mpr h'))]

theorem tolower_eq_small {a b : UInt8} (hb : b.toNat ≤ 63) : tolower a = tolower b ↔ a = b := by
  refine ⟨fun h => ?_, fun h => h ▸ rfl⟩
  have := congrArg UInt8.toNat h
  rw [tolower_toNat, tolower_toNat] at this
  apply UInt8.toNat_inj.mp
  split_ifs at this <;> omega

@[simp] theorem tolower_tolower (c : UInt8) : tolower (tolower c) = tolower c := by
  apply UInt8.toNat_inj.mp
  rw [tolower_toNat, tolower_toNat]
  split_ifs <;> omega

end OqsBind.Isc
