import Mathlib.Logic.Equiv.Basic
import Mathlib.Order.Lattice

/-! The order of a binary heap, over the keys at its positions. Position one is the root, and `k / 2` is the parent of `k`. -/

namespace OqsBind.HeapOrder

variable {κ : Type} [LinearOrder κ]

def Ordered (n : Nat) (f : Nat → κ) : Prop := ∀ k, 2 ≤ k → k ≤ n → f (k / 2) ≤ f k

/-- Whatever stands at `i`, the positions around it are in order. -/
def Grand (n : Nat) (f : Nat → κ) (i : Nat) : Prop := ∀ k, 2 ≤ i → k / 2 = i → k ≤ n → f (i / 2) ≤ f k

/-- The key at `i` may be too small for its parent. -/
structure Up (n : Nat) (f : Nat → κ) (i : Nat) : Prop where
  rest : ∀ k, 2 ≤ k → k ≤ n → k ≠ i → f (k / 2) ≤ f k
  grand : Grand n f i

/-- The key at `i` may be too large for its children. -/
structure Down (n : Nat) (f : Nat → κ) (i : Nat) : Prop where
  rest : ∀ k, 2 ≤ k → k ≤ n → k / 2 ≠ i → f (k / 2) ≤ f k
  grand : Grand n f i

variable {n i j : Nat} {f g : Nat → κ}

theorem Ordered.root_le (h : Ordered n f) {k : Nat} (hk : 1 ≤ k) (hn : k ≤ n) : f 1 ≤ f k := by
  induction k using Nat.strongRecOn with
  | _ k ih =>
    by_cases hone : k = 1
    · rw [hone]
    · exact (ih (k / 2) (by omega) (by omega) (by omega)).trans (h k (by omega) hn)

section Changed
variable (h : Ordered n f) (hn : i ≤ n) (hother : ∀ k, 1 ≤ k → k ≤ n → k ≠ i → g k = f k)
include h hn hother

theorem Ordered.lower (hi : g i ≤ f i) : Up n g i := by
  unfold Ordered at h
  refine ⟨fun k hk hkn hne => ?_, fun k hi hk hkn => ?_⟩
  · rw [hother k (by omega) hkn hne]
    grind
  · grind

theorem Ordered.raise (hi : f i ≤ g i) : Down n g i := by
  unfold Ordered at h
  refine ⟨fun k hk hkn hne => ?_, fun k hi hk hkn => ?_⟩
  · rw [hother (k / 2) (by omega) (by omega) hne]
    grind
  · grind

end Changed

theorem Up.done (h : Up n f i) (hi : 2 ≤ i → f (i / 2) ≤ f i) : Ordered n f := by
  intro k hk hkn
  by_cases hself : k = i
  · exact hself ▸ hi (hself ▸ hk)
  · exact h.rest k hk hkn hself

theorem Down.done (h : Down n f i) (hi : ∀ k, 2 ≤ k → k / 2 = i → k ≤ n → f i ≤ f k) : Ordered n f := by
  intro k hk hkn
  by_cases hparent : k / 2 = i
  · exact hparent ▸ hi k hk hparent hkn
  · exact h.rest k hk hkn hparent

theorem Up.swap (h : Up n f i) (htwo : 2 ≤ i) (hn : i ≤ n) (hlt : f i < f (i / 2)) : Up n (f ∘ Equiv.swap i (i / 2)) (i / 2) := by
  have hrest := h.rest
  have hgrand := h.grand
  unfold Grand at hgrand
  refine ⟨fun k hk hkn hne => ?_, fun k hp hk hkn => ?_⟩
  all_goals
    simp only [Function.comp, Equiv.swap_apply_def]
    grind

/-- The smaller child moves up. -/
theorem Down.swap (h : Down n f i) (hi : 1 ≤ i) (hj : j / 2 = i) (hn : j ≤ n) (hle : f j ≤ f i)
    (hmin : ∀ k, 2 ≤ k → k / 2 = i → k ≤ n → f j ≤ f k) : Down n (f ∘ Equiv.swap i j) j := by
  have hrest := h.rest
  have hgrand := h.grand
  unfold Grand at hgrand
  refine ⟨fun k hk hkn hne => ?_, fun k hp hk hkn => ?_⟩
  all_goals
    simp only [Function.comp, Equiv.swap_apply_def]
    grind

end OqsBind.HeapOrder
