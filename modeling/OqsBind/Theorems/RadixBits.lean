import OqsBind.Isc.Radix
import Mathlib.Data.List.GetD

/-! Bits of addresses: what the comparison under a mask and the search for the first difference say. -/

namespace OqsBind.Isc.Radix
open List

/-- The first bits of two addresses are the same. -/
def Agree (a b : Bytes) (n : Nat) : Prop := ∀ i < n, bitTest a i = bitTest b i

theorem Agree.refl (a : Bytes) (n : Nat) : Agree a a n := fun _ _ => rfl

variable {a b : Bytes} {n : Nat}

theorem Agree.symm (h : Agree a b n) : Agree b a n := fun i hi => (h i hi).symm

theorem Agree.trans {c : Bytes} (h : Agree a b n) (h' : Agree b c n) : Agree a c n := fun i hi =>
  (h i hi).trans (h' i hi)

theorem Agree.mono {m : Nat} (h : Agree a b n) (hm : m ≤ n) : Agree a b m := fun i hi =>
  h i (lt_of_lt_of_le hi hm)

variable {i : Nat}

theorem Agree.goesRight (h : Agree a b n) (hi : i < n) : goesRight a i = goesRight b i := by
  rw [Radix.goesRight, Radix.goesRight, h i hi]

variable {x y : UInt8}

theorem octet_ext (h : ∀ j < 8, x.toNat.testBit (7 - j) = y.toNat.testBit (7 - j)) : x = y := by
  rw [← UInt8.toNat_inj]
  refine Nat.eq_of_testBit_eq fun i => ?_
  by_cases hi : i < 8
  · have := h (7 - i) (by omega)
    rwa [Nat.sub_sub_self (by omega)] at this
  · rw [Nat.testBit_lt_two_pow, Nat.testBit_lt_two_pow]
    · exact lt_of_lt_of_le y.toNat_lt (Nat.pow_le_pow_right (by decide) (not_lt.mp hi))
    · exact lt_of_lt_of_le x.toNat_lt (Nat.pow_le_pow_right (by decide) (not_lt.mp hi))

theorem bitTest_octet {j : Nat} (hj : j < 8) : bitTest a (i * 8 + j) = (a.getD i 0).toNat.testBit (7 - j) := by
  have hdiv : (i * 8 + j) / 8 = i := by omega
  have hmod : (i * 8 + j) % 8 = j := by omega
  rw [bitTest, hdiv, hmod]

theorem getD_eq_iff : a.getD i 0 = b.getD i 0 ↔ ∀ j < 8, bitTest a (i * 8 + j) = bitTest b (i * 8 + j) := by
  constructor
  · intro h j hj
    rw [bitTest_octet hj, bitTest_octet hj, h]
  · intro h
    refine octet_ext fun j hj => ?_
    have := h j hj
    rwa [bitTest_octet hj, bitTest_octet hj] at this

theorem mask_testBit (k i : Nat) :
    (UInt8.ofNat (0xff <<< (8 - k))).toNat.testBit i = decide (8 - k ≤ i ∧ i < 8) := by
  rw [UInt8.toNat_ofNat', Nat.testBit_mod_two_pow, Nat.testBit_shiftLeft]
  have hff : (0xff : Nat) = 2 ^ 8 - 1 := rfl
  rw [hff, Nat.testBit_two_pow_sub_one]
  by_cases h : 8 - k ≤ i ∧ i < 8
  · simp [h.1, h.2]
    omega
  · by_cases hi : i < 8
    · have : ¬8 - k ≤ i := fun hle => h ⟨hle, hi⟩
      simp [this]
    · simp [hi]

theorem and_mask_iff {k : Nat} (hk : k ≤ 8) : x &&& UInt8.ofNat (0xff <<< (8 - k)) = y &&& UInt8.ofNat (0xff <<< (8 - k)) ↔
      ∀ j < k, x.toNat.testBit (7 - j) = y.toNat.testBit (7 - j) := by
  rw [← UInt8.toNat_inj, UInt8.toNat_and, UInt8.toNat_and]
  constructor
  · intro h j hj
    have hbit := congrArg (fun n => n.testBit (7 - j)) h
    simp only [Nat.testBit_and, mask_testBit] at hbit
    have hin : 8 - k ≤ 7 - j ∧ 7 - j < 8 := by omega
    simpa [hin] using hbit
  · intro h
    refine Nat.eq_of_testBit_eq fun i => ?_
    rw [Nat.testBit_and, Nat.testBit_and, mask_testBit]
    by_cases hin : 8 - k ≤ i ∧ i < 8
    · have := h (7 - i) (by omega)
      rw [Nat.sub_sub_self (by omega)] at this
      rw [this]
    · rw [decide_eq_false hin, Bool.and_false, Bool.and_false]

theorem take_eq_iff (hl : a.length = b.length) (hn : n ≤ a.length) :
    a.take n = b.take n ↔ ∀ i < n, a.getD i 0 = b.getD i 0 := by
  constructor
  · intro h i hi
    have := congrArg (fun l : Bytes => l[i]?) h
    simp only [getElem?_take, hi, if_true] at this
    simp [getD, this]
  · intro h
    refine ext_getElem? fun i => ?_
    rw [getElem?_take, getElem?_take]
    split
    · rename_i hi
      have := h i hi
      rwa [getD_eq_getElem _ _ (by omega), getD_eq_getElem _ _ (by omega), ← Option.some.injEq,
        ← getElem?_eq_getElem, ← getElem?_eq_getElem] at this
    · rfl

theorem compWithMask_iff {mask : Nat} (hl : a.length = b.length) (hm : mask ≤ 8 * a.length) :
    compWithMask a b mask ↔ Agree a b mask := by
  have hbits : (∀ i < mask / 8, a.getD i 0 = b.getD i 0) ↔ Agree a b (mask / 8 * 8) := by
    simp only [getD_eq_iff]
    constructor
    · intro h i hi
      have := h (i / 8) (by omega) (i % 8) (by omega)
      rwa [Nat.div_add_mod'] at this
    · exact fun h i hi j hj => h _ (by omega)
  unfold compWithMask
  by_cases hzero : mask = 0
  · simp [hzero, Agree]
  rw [if_neg hzero]
  by_cases htake : a.take (mask / 8) = b.take (mask / 8)
  · rw [if_pos htake]
    have hfirst := hbits.mp ((take_eq_iff hl (by omega)).mp htake)
    simp only [Bool.or_eq_true, decide_eq_true_eq, and_mask_iff (show mask % 8 ≤ 8 by omega)]
    constructor
    · intro h i hi
      by_cases hlow : i < mask / 8 * 8
      · exact hfirst i hlow
      · rcases h with h | h
        · omega
        · have := h (i - mask / 8 * 8) (by omega)
          rw [← bitTest_octet (by omega), ← bitTest_octet (by omega)] at this
          rwa [Nat.add_sub_cancel' (not_lt.mp hlow)] at this
    · intro h
      refine .inr fun j hj => ?_
      rw [← bitTest_octet (by omega), ← bitTest_octet (by omega)]
      exact h _ (by omega)
  · rw [if_neg htake]
    refine iff_of_false (by simp) fun h => htake ?_
    exact (take_eq_iff hl (by omega)).mpr (hbits.mpr (h.mono (by omega)))

theorem firstBit_spec {r : UInt8} (hr : r ≠ 0) :
    firstBit r < 8 ∧ r.toNat.testBit (7 - firstBit r) ∧ ∀ j < firstBit r, r.toNat.testBit (7 - j) = false := by
  unfold firstBit
  cases hfind : (range 8).find? fun j => r.toNat.testBit (7 - j) with
  | none =>
    refine absurd (octet_ext fun j hj => ?_) hr
    have := find?_eq_none.mp hfind j (mem_range.mpr hj)
    simpa using this
  | some k =>
    obtain ⟨hk, as, bs, hrange, hbefore⟩ := find?_eq_some_iff_append.mp hfind
    have hmem : k ∈ range 8 := by simp [hrange]
    refine ⟨mem_range.mp hmem, hk, fun j hj => ?_⟩
    have hj8 : j ∈ range 8 := mem_range.mpr (lt_trans hj (mem_range.mp hmem))
    have hsorted := pairwise_lt_range (n := 8)
    rw [hrange] at hj8 hsorted
    rcases mem_append.mp hj8 with hj' | hj'
    · simpa using hbefore j hj'
    · rcases mem_cons.mp hj' with rfl | hj'
      · exact absurd hj (lt_irrefl _)
      · have := (pairwise_cons.mp (pairwise_append.mp hsorted).2.1).1 j hj'
        exact absurd (lt_trans hj this) (lt_irrefl _)

theorem firstBit_xor (h : x ^^^ y ≠ 0) : firstBit (x ^^^ y) < 8 ∧
      x.toNat.testBit (7 - firstBit (x ^^^ y)) ≠ y.toNat.testBit (7 - firstBit (x ^^^ y)) ∧
      ∀ j < firstBit (x ^^^ y), x.toNat.testBit (7 - j) = y.toNat.testBit (7 - j) := by
  obtain ⟨hlt, hset, hclear⟩ := firstBit_spec h
  refine ⟨hlt, by simpa using hset, fun j hj => ?_⟩
  have := hclear j hj
  simpa using this

theorem differLoop_spec (a t : Bytes) (rounds i : Nat) (h : Agree a t (i * 8)) :
    Agree a t (differLoop a t rounds i) ∧
      (differLoop a t rounds i < (i + rounds) * 8 →
        bitTest a (differLoop a t rounds i) ≠ bitTest t (differLoop a t rounds i)) ∧
      differLoop a t rounds i ≤ (i + rounds) * 8 := by
  induction rounds generalizing i with
  | zero => exact ⟨h, fun hlt => absurd hlt (lt_irrefl _), le_rfl⟩
  | succ rounds ih =>
    unfold differLoop
    by_cases hr : a.getD i 0 ^^^ t.getD i 0 = 0
    · simp only [hr, if_true]
      have hbits := getD_eq_iff.mp (UInt8.xor_eq_zero_iff.mp hr)
      have hnext : Agree a t ((i + 1) * 8) := by
        intro k hk
        by_cases hlow : k < i * 8
        · exact h k hlow
        · have := hbits (k - i * 8) (by omega)
          rwa [Nat.add_sub_cancel' (not_lt.mp hlow)] at this
      have hround := ih (i + 1) hnext
      rwa [Nat.add_right_comm i 1 rounds] at hround
    · simp only [hr, if_false]
      obtain ⟨hlt, hdiffer, hsame⟩ := firstBit_xor hr
      refine ⟨fun k hk => ?_, fun _ => ?_, by omega⟩
      · by_cases hlow : k < i * 8
        · exact h k hlow
        · have := hsame (k - i * 8) (by omega)
          rw [← bitTest_octet (by omega), ← bitTest_octet (by omega)] at this
          rwa [Nat.add_sub_cancel' (not_lt.mp hlow)] at this
      · rwa [bitTest_octet hlt, bitTest_octet hlt]

/-- The bit where a new prefix leaves the tree: the first one that differs, or the end of the shorter one. -/
theorem differBit_spec (a t : Bytes) (check : Nat) :
    Agree a t (differBit a t check) ∧ differBit a t check ≤ check ∧
      (differBit a t check < check → bitTest a (differBit a t check) ≠ bitTest t (differBit a t check)) := by
  obtain ⟨hagree, hdiffer, -⟩ := differLoop_spec a t ((check + 7) / 8) 0 (fun _ h => absurd h (by omega))
  refine ⟨hagree.mono (min_le_left ..), min_le_right .., fun hlt => ?_⟩
  have hloop : differLoop a t ((check + 7) / 8) 0 < check := by
    rcases min_lt_iff.mp hlt with h | h
    · exact h
    · exact absurd h (lt_irrefl _)
  rw [differBit, min_eq_left hloop.le]
  exact hdiffer (by omega)

end OqsBind.Isc.Radix
