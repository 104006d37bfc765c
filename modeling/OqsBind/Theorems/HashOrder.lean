import OqsBind.Isc.IteratedHash
import OqsBind.Lib.PathOrder

/-! `memcmp` orders octet strings of one length lexicographically. -/

namespace OqsBind.Isc
open Lib

/-- The octets as numbers. -/
def octets (b : Bytes) : List Nat := b.map UInt8.toNat

theorem octets_inj {a b : Bytes} : octets a = octets b ↔ a = b :=
  ⟨fun h => List.map_injective_iff.mpr (fun _ _ => UInt8.toNat_inj.mp) h, fun h => h ▸ rfl⟩

theorem memcmp_compares : ∀ {a b : Bytes}, a.length = b.length → (compare (memcmp a b) 0).Compares (octets a) (octets b)
  | [], [], _ => rfl
  | a :: as, b :: bs, h => by
    have ih := memcmp_compares (Nat.succ.inj h)
    rw [memcmp]
    by_cases hlt : a < b
    · rw [if_pos hlt]
      exact cons_lt_cons.mpr (.inl (UInt8.lt_iff_toNat_lt.mp hlt))
    · rw [if_neg hlt]
      by_cases hgt : b < a
      · rw [if_pos hgt]
        exact cons_lt_cons.mpr (.inl (UInt8.lt_iff_toNat_lt.mp hgt))
      · rw [if_neg hgt]
        have heq : Ordering.eq.Compares a.toNat b.toNat := le_antisymm (not_lt.mp hgt) (not_lt.mp hlt)
        exact compares_cons heq ih

theorem memcmp_neg_iff {a b : Bytes} (h : a.length = b.length) : memcmp a b < 0 ↔ octets a < octets b := by
  rw [← (memcmp_compares h).eq_lt, Int.compare_eq_lt]

theorem memcmp_pos_iff {a b : Bytes} (h : a.length = b.length) : memcmp a b > 0 ↔ octets b < octets a := by
  rw [← (memcmp_compares h).eq_gt, Int.compare_eq_gt]

theorem memcmp_eq_zero_iff {a b : Bytes} (h : a.length = b.length) : memcmp a b = 0 ↔ a = b := by
  rw [← octets_inj, ← (memcmp_compares h).eq_eq, Int.compare_eq_eq]

theorem length_iteratedHash (sha1 : Sha1) (iterations : Nat) (salt inp : Bytes) :
    (iteratedHash sha1 1 iterations salt inp).length = 20 := by
  rw [iteratedHash, if_neg (not_not_intro rfl), Function.iterate_succ_apply', Vector.length_toList]

end OqsBind.Isc
