import OqsBind.Theorems.QpAlloc

/-! Giving cells back, and moving a vector of twigs to the bump chunk. -/

namespace OqsBind.Dns.Qp
open List Function State Usage

variable {s s' : State} {L C : Multiset Nat} {ref size : Nat}

theorem Active.setAttached (h : Active s L) (a : Leaf → Int) : Active { s with attached := a } L := { h with }

theorem Active.setTrie (h : Active s L) (root : Option Nat) (n : Nat) (all : Bool) :
    Active { s with rootRef := root, leafCount := n, compactAll := all } L :=
  { h with }

theorem insist_pos {fault : Fault} {cond : Prop} [Decidable cond] (h : cond) : insist fault cond = .ok () := if_pos h

theorem Inv.free_le_used (h : Inv s L) : s.freeCount ≤ s.usedCount := by
  rw [h.free_eq, h.used_eq]
  apply Finset.sum_le_sum
  intro c _
  unfold share
  split_ifs with hc
  · rw [Bool.and_eq_true] at hc
    rw [h.balance c hc.1]
    exact Nat.le_add_right _ _
  · exact le_rfl

/-- The counters when `size` cells at `ref` have been freed. -/
def countFree (s : State) (ref size : Nat) : State :=
  setUsage { s with freeCount := s.freeCount + size } (refChunk ref)
    { s.usage (refChunk ref) with free := (s.usage (refChunk ref)).free + size }

theorem usage_countFree (s : State) (ref size c : Nat) : (countFree s ref size).usage c =
    { s.usage c with free := (s.usage c).free + if c = refChunk ref then size else 0 } := by
  change update s.usage (refChunk ref) _ c = _
  by_cases hc : c = refChunk ref <;> simp [hc]

section
variable (h : Active s (L + vec ref size)) (hc : Contained ref size) (hpos : 0 < size)
include h hc hpos

theorem Active.chunk_of_vec : (s.usage (refChunk ref)).existing = true ∧ (s.usage (refChunk ref)).discounted = false ∧
    (s.usage (refChunk ref)).used = (s.usage (refChunk ref)).free + (L.countP (refChunk · = refChunk ref) + size) := by
  have hmem : ref ∈ L + vec ref size := Multiset.mem_add.mpr (.inr (mem_vec.mpr ⟨le_rfl, by omega⟩))
  have he : (s.usage (refChunk ref)).existing = true := (h.live _ hmem).1
  have hb := h.balance _ he
  rw [Multiset.countP_add, countP_vec hc, if_pos rfl] at hb
  refine ⟨he, ?_, hb⟩
  cases hd : (s.usage (refChunk ref)).discounted with
  | false => rfl
  | true =>
    have := h.discount _ hd
    omega

theorem Active.countFree : Active (countFree s ref size) L := by
  obtain ⟨he, hd, hb⟩ := h.chunk_of_vec hc hpos
  obtain ⟨hnodup, -, -⟩ := Multiset.nodup_add.mp h.nodup
  exact
    { h with
      nodup := hnodup
      live := fun x hx => by
        rw [usage_countFree]
        exact h.live x (Multiset.mem_add.mpr (.inl hx))
      balance := fun c hec => by
        rw [usage_countFree] at hec ⊢
        have hbal := h.balance c hec
        rw [Multiset.countP_add, countP_vec hc] at hbal
        dsimp only
        omega
      absent := fun c hec => by
        rw [usage_countFree] at hec ⊢
        have hne : c ≠ refChunk ref := fun heq => absurd (heq ▸ hec) (by simp [he])
        rw [if_neg hne]
        exact h.absent c hec
      mutable := by
        simp only [usage_countFree]
        exact h.mutable
      bound := by
        simp only [usage_countFree]
        exact h.bound
      slot := by
        simp only [usage_countFree]
        exact h.slot
      slot_free := by
        simp only [usage_countFree]
        exact h.slot_free
      size := by
        simp only [usage_countFree]
        exact h.size
      used_eq := by
        refine h.used_eq.trans (Finset.sum_congr rfl fun c _ => ?_)
        simp [usage_countFree, share]
      free_eq := by
        have ht : total (Qp.countFree s ref size) (!·.discounted) free + _ = _ :=
          total_setUsage (s := { s with freeCount := s.freeCount + size }) (h.bound _ he) _ _ _
        have hf : s.freeCount = total { s with freeCount := s.freeCount + size } (!·.discounted) free := h.free_eq
        simp only [share, he, hd, Bool.not_false, Bool.and_self, if_true] at ht
        change s.freeCount + size = _
        omega
      discount := fun c hdc => by
        rw [usage_countFree] at hdc ⊢
        have hne : c ≠ refChunk ref := fun heq => absurd (heq ▸ hdc) (by simp [hd])
        rw [if_neg hne]
        exact h.discount c hdc
      bump := by
        simp only [usage_countFree]
        exact h.bump
      bump_counted := by
        simp only [usage_countFree]
        exact h.bump_counted
      fender := h.fender }

end

/-- Some cells have been freed. -/
structure Freed (s : State) (L : Multiset Nat) (ref size : Nat) (s' : State) : Prop where
  active : Active s' L
  cell : ∀ x, x ∉ vec ref size → s'.cell x = s.cell x
  same : Same s s'

theorem Active.freeTwigs (h : Active s (L + vec ref size)) (hc : Contained ref size) (hpos : 0 < size) :
    Runs (s.freeTwigs ref size) fun r => r.1 = true ∧ Freed s L ref size r.2 := by
  obtain ⟨he, -, hb⟩ := h.chunk_of_vec hc hpos
  have ha := h.countFree hc hpos
  have heq : s.freeTwigs ref size = (do
      insist .counter ((Qp.countFree s ref size).freeCount ≤ s.usedCount)
      insist .counter ((s.usage (refChunk ref)).free + size ≤ (s.usage (refChunk ref)).used)
      if (Qp.countFree s ref size).cellsImmutable ref then
        insist .counter (s.holdCount + size ≤ (Qp.countFree s ref size).freeCount)
        return (false, { Qp.countFree s ref size with holdCount := s.holdCount + size })
      else return (true, (Qp.countFree s ref size).zeroTwigs ref size)) := rfl
  have hle : (Qp.countFree s ref size).freeCount ≤ s.usedCount := ha.toInv.free_le_used
  rw [heq, insist_pos hle, insist_pos (by omega), ha.cellsImmutable]
  refine ⟨rfl, ha.write _ _, fun x hx => ?_, ⟨rfl, rfl⟩⟩
  have hlen : (replicate size Node.zero).length = size := length_replicate
  refine ha.cell_write_of_not_mem ?_ (hlen.symm ▸ hc) (hlen.symm ▸ hx)
  rw [usage_countFree]
  exact he

/-- The `size` cells at `old` have been moved to `new`. -/
structure Evacuated (s : State) (C : Multiset Nat) (old new size : Nat) (s' : State) : Prop where
  active : Active s' (C + vec new size)
  contained : Contained new size
  copy : ∀ j < size, s'.cell (new + j) = s.cell (old + j)
  cell : ∀ x ∈ C, s'.cell x = s.cell x
  same : Same s s'

theorem twigs_congr {ref' : Nat} (h : ∀ j < size, s'.cell (ref' + j) = s.cell (ref + j)) :
    s'.twigs ref' size = s.twigs ref size :=
  map_congr_left fun j hj => h j (mem_range.mp hj)

theorem twigs_getElem? {j : Nat} (hj : j < size) : (s.twigs ref size)[j]? = some (s.cell (ref + j)) := by
  simp [twigs, hj]

theorem length_twigs : (s.twigs ref size).length = size := by simp [twigs]

theorem Active.evacuate {index : BitVec 64} {old : Nat} (h : Active s (C + vec old (branchTwigsSize index)))
    (hc : Contained old (branchTwigsSize index)) (hpos : 0 < branchTwigsSize index) :
    Runs (s.evacuate index old) fun r => Evacuated s C old r.1 (branchTwigsSize index) r.2 := by
  unfold State.evacuate
  simp only
  generalize branchTwigsSize index = size at *
  refine (h.allocTwigs hpos ((Nat.le_add_left _ _).trans hc)).bind fun r1 h1 => ?_
  obtain ⟨new, s1⟩ := r1
  have he := (h1.active.chunk_of_vec h1.contained hpos).1
  have hlen : (s1.twigs old size).length = size := length_twigs
  have hc1 : Contained new (s1.twigs old size).length := hlen.symm ▸ h1.contained
  have hold : ∀ j < size, old + j ∈ C + vec old size := fun j hj =>
    Multiset.mem_add.mpr (.inr (mem_vec.mpr ⟨Nat.le_add_right .., by omega⟩))
  -- the copy
  have h2 : Active (s1.moveTwigs new old size) (C + vec new size + vec old size) := by
    rw [add_right_comm]
    exact h1.active.write _ _
  have hkeep2 : ∀ x ∈ C + vec old size, (s1.moveTwigs new old size).cell x = s.cell x := fun x hx =>
    (h1.active.cell_write_of_not_mem he hc1 (hlen.symm ▸ (h1.live h hx).2)).trans (h1.live h hx).1
  have hcopy2 : ∀ j < size, (s1.moveTwigs new old size).cell (new + j) = s.cell (old + j) := fun j hj =>
    (h1.active.cell_write_of_lt he hc1 (twigs_getElem? hj)).trans (h1.live h (hold j hj)).1
  -- the old cells go
  refine (h2.freeTwigs hc hpos).bind fun r3 h3 => ?_
  obtain ⟨destroyed, s3⟩ := r3
  obtain ⟨rfl, h3⟩ := h3
  refine ⟨h3.active, h1.contained, fun j hj => ?_, fun x hx => ?_, h1.same.trans { h3.same with }⟩
  · rw [h3.cell _ fun hmem => ?_, hcopy2 j hj]
    exact (h1.live h (Multiset.mem_add.mpr (.inr hmem))).2 (mem_vec.mpr ⟨Nat.le_add_right .., by omega⟩)
  · rw [h3.cell x (Multiset.disjoint_left.mp (Multiset.nodup_add.mp h.nodup).2.2 hx),
      hkeep2 x (Multiset.mem_add.mpr (.inl hx))]

end OqsBind.Dns.Qp
