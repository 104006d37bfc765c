import OqsBind.Dns.Qp
import Mathlib.Data.Finset.Sort
import Mathlib.Data.Nat.Bitwise

/-! The index word of a branch, read as a key offset and a set of bit positions. The vector of twigs holds one
    twig for each position, in increasing order. -/

namespace OqsBind.Dns.Qp
open Finset BitVec

/-- The bit positions of the twigs. -/
def twigBits (index : BitVec 64) : Finset Nat := {b ∈ range SHIFT_OFFSET | SHIFT_NOBYTE ≤ b ∧ index.getLsbD b}

variable {index : BitVec 64}

theorem mem_twigBits {b : Nat} : b ∈ twigBits index ↔ b < SHIFT_OFFSET ∧ SHIFT_NOBYTE ≤ b ∧ index.getLsbD b = true := by
  simp [twigBits]

variable {bit : Nat}

theorem mask_getLsbD {i : Nat} (hlo : SHIFT_NOBYTE ≤ bit) (hhi : bit ≤ SHIFT_OFFSET) (hi : i < 64) :
    ((1#64 <<< bit) - 1#64 - 3#64).getLsbD i = decide (SHIFT_NOBYTE ≤ i ∧ i < bit) := by
  have h : ∀ bit < 50, 2 ≤ bit → ∀ i < 64, ((1#64 <<< bit) - 1#64 - 3#64).getLsbD i = decide (2 ≤ i ∧ i < bit) := by
    decide +kernel
  exact h bit (Nat.lt_succ_of_le hhi) hlo i hi

theorem branchCountBitmapBefore_eq (hlo : SHIFT_NOBYTE ≤ bit) (hhi : bit ≤ SHIFT_OFFSET) :
    branchCountBitmapBefore index bit = ({b ∈ twigBits index | b < bit} : Finset Nat).card := by
  have hcard : ∀ p : Nat → Bool, (List.range 64).countP p = ({i ∈ range 64 | p i = true} : Finset Nat).card := by
    intro p
    simp [List.countP_eq_length_filter, card, filter, range_val, Multiset.range]
  unfold branchCountBitmapBefore popcount
  rw [hcard]
  congr 1
  ext i
  simp only [mem_filter, mem_range, getLsbD_and, Bool.and_eq_true, mem_twigBits]
  constructor
  · rintro ⟨hi, hbit, hmask⟩
    rw [mask_getLsbD hlo hhi hi, decide_eq_true_eq] at hmask
    exact ⟨⟨Nat.lt_of_lt_of_le hmask.2 hhi, hmask.1, hbit⟩, hmask.2⟩
  · rintro ⟨⟨hlt, hge, hbit⟩, hi⟩
    have hi64 : i < 64 := Nat.lt_trans hlt (by decide)
    refine ⟨hi64, hbit, ?_⟩
    rw [mask_getLsbD hlo hhi hi64, decide_eq_true_eq]
    exact ⟨hge, hi⟩

theorem branchTwigsSize_eq (index : BitVec 64) : branchTwigsSize index = (twigBits index).card := by
  rw [branchTwigsSize, branchCountBitmapBefore_eq (by decide) le_rfl]
  congr 1
  rw [filter_eq_self]
  intro b hb
  exact (mem_twigBits.mp hb).1

/-- The positions of the bitmap. -/
abbrev TwigBit (bit : Nat) : Prop := SHIFT_NOBYTE ≤ bit ∧ bit < SHIFT_OFFSET

theorem branchTwigPos_eq (h : TwigBit bit) :
    branchTwigPos index bit = ({b ∈ twigBits index | b < bit} : Finset Nat).card :=
  branchCountBitmapBefore_eq h.1 h.2.le

theorem lt_word (h : bit < SHIFT_OFFSET) : bit < 64 := Nat.lt_trans h (by decide)

theorem branchHasTwig_iff (h : TwigBit bit) : branchHasTwig index bit = true ↔ bit ∈ twigBits index := by
  have hlt := lt_word h.2
  rw [mem_twigBits, branchHasTwig, ← twoPow_eq, and_twoPow]
  have hne : twoPow 64 bit ≠ 0#64 := by
    intro h
    have := congrArg (fun w => w.getLsbD bit) h
    simp [hlt] at this
  by_cases hbit : index.getLsbD bit = true
  · simp [hbit, h.1, h.2, hne]
  · simp [hbit]

section
variable {index : BitVec 64} {b b' : Nat}

section
variable (h : b ∈ twigBits index)
include h

theorem bit_range : TwigBit b :=
  ⟨(mem_twigBits.mp h).2.1, (mem_twigBits.mp h).1⟩

theorem pos_eq : branchTwigPos index b = ({x ∈ twigBits index | x < b} : Finset Nat).card :=
  branchTwigPos_eq (bit_range h)

theorem pos_lt_size : branchTwigPos index b < branchTwigsSize index := by
  rw [pos_eq h, branchTwigsSize_eq]
  apply card_lt_card
  rw [filter_ssubset]
  exact ⟨b, h, Nat.lt_irrefl b⟩

theorem pos_lt_pos (h' : b' ∈ twigBits index) (hlt : b < b') : branchTwigPos index b < branchTwigPos index b' := by
  rw [pos_eq h, pos_eq h']
  apply card_lt_card
  refine ⟨fun x hx => ?_, fun hsub => ?_⟩
  · simp only [mem_filter] at hx ⊢
    exact ⟨hx.1, hx.2.trans hlt⟩
  · have hb := hsub (mem_filter.mpr ⟨h, hlt⟩)
    exact Nat.lt_irrefl b (mem_filter.mp hb).2

theorem pos_inj (h' : b' ∈ twigBits index) (heq : branchTwigPos index b = branchTwigPos index b') : b = b' := by
  rcases Nat.lt_trichotomy b b' with hlt | rfl | hgt
  · exact absurd heq (Nat.ne_of_lt (pos_lt_pos h h' hlt))
  · rfl
  · exact absurd heq.symm (Nat.ne_of_lt (pos_lt_pos h' h hgt))

end

theorem exists_pos {j : Nat} (h : j < branchTwigsSize index) : ∃ b ∈ twigBits index, branchTwigPos index b = j := by
  have himage : (twigBits index).image (branchTwigPos index) = range (branchTwigsSize index) := by
    apply eq_of_subset_of_card_le
    · intro x hx
      obtain ⟨b, hb, rfl⟩ := mem_image.mp hx
      exact mem_range.mpr (pos_lt_size hb)
    · rw [card_range, card_image_of_injOn (fun x hx y hy => pos_inj hx hy), branchTwigsSize_eq]
  obtain ⟨b, hb, hj⟩ := mem_image.mp (himage ▸ mem_range.mpr h)
  exact ⟨b, hb, hj⟩

theorem size_le (index : BitVec 64) : branchTwigsSize index ≤ SHIFT_OFFSET := by
  rw [branchTwigsSize_eq]
  exact card_le_card (filter_subset _ _)

end

theorem movableRoot_bits : twigBits movableRoot = {SHIFT_NOBYTE} := by decide +kernel

theorem movableRoot_size : branchTwigsSize movableRoot = 1 := by rw [branchTwigsSize_eq, movableRoot_bits]; rfl

theorem movableRoot_pos : branchTwigPos movableRoot SHIFT_NOBYTE = 0 := by decide +kernel

theorem getLsbD_bit {b i : Nat} (hi : i < 64) : (1#64 <<< b).getLsbD i = decide (i = b) := by
  rw [← twoPow_eq]
  by_cases h : i = b
  · simp [hi]
  · simp [h, Ne.symm h]

section
variable {index : BitVec 64} {offset newBit oldBit bit : Nat}

/-- The index word of a branch with two twigs. -/
def newIndex (offset newBit oldBit : Nat) : BitVec 64 :=
  1#64 ||| (1#64 <<< newBit) ||| (1#64 <<< oldBit) ||| (BitVec.ofNat 64 offset <<< SHIFT_OFFSET)

theorem newIndex_bits (hn : TwigBit newBit) (ho : TwigBit oldBit) :
    twigBits (newIndex offset newBit oldBit) = {newBit, oldBit} := by
  ext b
  simp only [mem_twigBits, newIndex, mem_insert, mem_singleton, BitVec.getLsbD_or, Bool.or_eq_true]
  constructor
  · rintro ⟨hlt, hge, hbit⟩
    have h64 := lt_word hlt
    rw [getLsbD_bit h64, getLsbD_bit h64, decide_eq_true_eq, decide_eq_true_eq] at hbit
    rcases hbit with ((h | h) | h) | h
    · unfold SHIFT_NOBYTE at hge
      simp at h
      omega
    · exact .inl h
    · exact .inr h
    · simp [hlt] at h
  · intro hb
    have hr : TwigBit b := by
      rcases hb with rfl | rfl
      · exact hn
      · exact ho
    have h64 := lt_word hr.2
    refine ⟨hr.2, hr.1, ?_⟩
    rw [getLsbD_bit h64, getLsbD_bit h64, decide_eq_true_eq, decide_eq_true_eq]
    rcases hb with h | h
    · exact .inl (.inl (.inr h))
    · exact .inl (.inr h)

theorem keyOffset_eq_of_high {w w' : BitVec 64} (h : ∀ i, SHIFT_OFFSET ≤ i → i < 64 → w.getLsbD i = w'.getLsbD i) :
    branchKeyOffset w = branchKeyOffset w' := by
  unfold branchKeyOffset
  congr 1
  apply eq_of_getLsbD_eq
  intro i hi
  rw [getLsbD_ushiftRight, getLsbD_ushiftRight]
  by_cases hlt : SHIFT_OFFSET + i < 64
  · exact h _ (Nat.le_add_right ..) hlt
  · rw [getLsbD_of_ge _ _ (by omega), getLsbD_of_ge _ _ (by omega)]

theorem newIndex_offset (hoff : offset < QP_MAXKEY) (hn : newBit < SHIFT_OFFSET) (ho : oldBit < SHIFT_OFFSET) :
    branchKeyOffset (newIndex offset newBit oldBit) = offset := by
  have hhigh : branchKeyOffset (newIndex offset newBit oldBit) =
      branchKeyOffset (BitVec.ofNat 64 offset <<< SHIFT_OFFSET) := by
    apply keyOffset_eq_of_high
    intro i hi h64
    have h1 : (1#64).getLsbD i = false := by
      simp
      omega
    simp only [newIndex, getLsbD_or, h1, getLsbD_bit h64]
    have hne : i ≠ newBit := by omega
    have hne' : i ≠ oldBit := by omega
    simp [hne, hne']
  rw [hhigh]
  unfold QP_MAXKEY at hoff
  unfold branchKeyOffset SHIFT_OFFSET
  simp only [toNat_ushiftRight, toNat_shiftLeft, toNat_ofNat, Nat.shiftLeft_eq, Nat.shiftRight_eq_div_pow]
  omega

section
variable (hn : TwigBit newBit) (ho : TwigBit oldBit)
include hn ho

theorem newIndex_size (hne : newBit ≠ oldBit) : branchTwigsSize (newIndex offset newBit oldBit) = 2 := by
  rw [branchTwigsSize_eq, newIndex_bits hn ho, card_pair hne]

theorem newIndex_pos_new : branchTwigPos (newIndex offset newBit oldBit) newBit = if newBit > oldBit then 1 else 0 := by
  rw [branchTwigPos_eq hn, newIndex_bits hn ho, filter_insert, if_neg (Nat.lt_irrefl _), filter_singleton]
  split_ifs <;> rfl

theorem newIndex_pos_old : branchTwigPos (newIndex offset newBit oldBit) oldBit = if oldBit > newBit then 1 else 0 := by
  rw [branchTwigPos_eq ho, newIndex_bits hn ho, filter_insert, filter_singleton, if_neg (Nat.lt_irrefl _)]
  split_ifs <;> rfl

end

theorem grow_bits (hb : TwigBit bit) : twigBits (index ||| (1#64 <<< bit)) = insert bit (twigBits index) := by
  ext b
  simp only [mem_twigBits, mem_insert, getLsbD_or, Bool.or_eq_true]
  constructor
  · rintro ⟨hlt, hge, h | h⟩
    · exact .inr ⟨hlt, hge, h⟩
    · simpa [getLsbD_bit (lt_word hlt)] using Or.inl h
  · rintro (rfl | ⟨hlt, hge, h⟩)
    · refine ⟨hb.2, hb.1, .inr ?_⟩
      rw [getLsbD_bit (lt_word hb.2), decide_eq_true_eq]
    · exact ⟨hlt, hge, .inl h⟩

theorem grow_offset (hb : bit < SHIFT_OFFSET) : branchKeyOffset (index ||| (1#64 <<< bit)) = branchKeyOffset index := by
  apply keyOffset_eq_of_high
  intro i hi h64
  have hne : i ≠ bit := by omega
  simp [getLsbD_bit h64, hne]

theorem shrink_bits :
    twigBits (index &&& ~~~(1#64 <<< bit)) = (twigBits index).erase bit := by
  ext b
  simp only [mem_twigBits, mem_erase, getLsbD_and, getLsbD_not, Bool.and_eq_true, decide_eq_true_eq]
  constructor
  · rintro ⟨hlt, hge, h, h64, hne⟩
    rw [getLsbD_bit h64] at hne
    refine ⟨fun heq => ?_, hlt, hge, h⟩
    simp [heq] at hne
  · rintro ⟨hne, hlt, hge, h⟩
    have h64 := lt_word hlt
    refine ⟨hlt, hge, h, h64, ?_⟩
    rw [getLsbD_bit h64]
    simp [hne]

theorem shrink_offset (hb : bit < SHIFT_OFFSET) : branchKeyOffset (index &&& ~~~(1#64 <<< bit)) = branchKeyOffset index := by
  apply keyOffset_eq_of_high
  intro i hi h64
  have hne : i ≠ bit := by omega
  rw [getLsbD_and, getLsbD_not, getLsbD_bit h64]
  simp [hne, h64]

section
variable (hb : TwigBit bit)
include hb

theorem grow_pos_le {b : Nat} (h : TwigBit b) (hle : b ≤ bit) :
    branchTwigPos (index ||| (1#64 <<< bit)) b = branchTwigPos index b := by
  rw [branchTwigPos_eq h, branchTwigPos_eq h, grow_bits hb, filter_insert, if_neg (Nat.not_lt.mpr hle)]

theorem grow_pos_gt (hnew : bit ∉ twigBits index) {b : Nat} (h : b ∈ twigBits index) (hgt : bit < b) :
    branchTwigPos (index ||| (1#64 <<< bit)) b = branchTwigPos index b + 1 := by
  rw [pos_eq h, branchTwigPos_eq (bit_range h), grow_bits hb, filter_insert, if_pos hgt,
    card_insert_of_notMem (fun hmem => hnew (mem_filter.mp hmem).1)]

theorem grow_size (hnew : bit ∉ twigBits index) :
    branchTwigsSize (index ||| (1#64 <<< bit)) = branchTwigsSize index + 1 := by
  rw [branchTwigsSize_eq, branchTwigsSize_eq, grow_bits hb, card_insert_of_notMem hnew]

theorem new_pos_le : branchTwigPos index bit ≤ branchTwigsSize index := by
  rw [branchTwigPos_eq hb, branchTwigsSize_eq]
  exact card_filter_le _ _

end

theorem shrink_grow (h : bit ∈ twigBits index) : (index &&& ~~~(1#64 <<< bit)) ||| (1#64 <<< bit) = index := by
  apply eq_of_getLsbD_eq
  intro i hi
  rw [getLsbD_or, getLsbD_and, getLsbD_not, getLsbD_bit hi]
  by_cases heq : i = bit
  · subst heq
    simp [(mem_twigBits.mp h).2.2]
  · simp [heq, hi]

theorem shrink_absent : bit ∉ twigBits (index &&& ~~~(1#64 <<< bit)) := by
  rw [shrink_bits]
  exact notMem_erase bit _

theorem shrink_size (h : bit ∈ twigBits index) : branchTwigsSize index = branchTwigsSize (index &&& ~~~(1#64 <<< bit)) + 1 := by
  rw [← grow_size (bit_range h) shrink_absent, shrink_grow h]

end

end OqsBind.Dns.Qp
