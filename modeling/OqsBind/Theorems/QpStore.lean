import OqsBind.Lib.Checked
import OqsBind.Theorems.QpRep
import Mathlib.Algebra.Order.BigOperators.Group.Finset

/-! The allocator. `Inv` relates the counters of the chunks to the cells that are live, the base array to the
    memory behind it, and the totals to the chunks. Without transactions no chunk is marked immutable, and no slot
    of the base array outlives its chunk. -/

namespace OqsBind.Dns.Qp
open List Function State

/-- No assertion fails, and `Q` holds of what is returned. -/
abbrev Runs {α : Type} (x : Except Fault α) (Q : α → Prop) : Prop := Checked (fun _ => False) x Q

theorem sum_replace {M : Type*} [AddCommMonoid M] {f g : Nat → M} {n k : Nat} (hk : k < n)
    (h : ∀ c, c ≠ k → g c = f c) : ∑ c ∈ Finset.range n, g c + f k = ∑ c ∈ Finset.range n, f c + g k := by
  have hmem := Finset.mem_range.mpr hk
  rw [← Finset.add_sum_erase _ g hmem, ← Finset.add_sum_erase _ f hmem,
    Finset.sum_congr rfl fun c hc => h c (Finset.ne_of_mem_erase hc)]
  abel

/-- What a chunk adds to a total. -/
def Usage.share (p : Usage → Bool) (f : Usage → Nat) (u : Usage) : Nat := if u.existing && p u then f u else 0

/-- The sum of a counter over the chunks that exist and satisfy `p`. -/
def total (s : State) (p : Usage → Bool) (f : Usage → Nat) : Nat :=
  ∑ c ∈ Finset.range s.chunkMax, (s.usage c).share p f

theorem total_setUsage {s : State} {c : Nat} (hc : c < s.chunkMax) (u : Usage) (p : Usage → Bool) (f : Usage → Nat) :
    total (s.setUsage c u) p f + (s.usage c).share p f = total s p f + u.share p f := by
  have h := sum_replace (f := fun i => (s.usage i).share p f) (g := fun i => (update s.usage c u i).share p f) hc
    fun i hne => by rw [update_of_ne hne]
  simp only [update_self] at h
  exact h

/-- `L` are the cells of the trie. -/
structure Inv (s : State) (L : Multiset Nat) : Prop where
  nodup : L.Nodup
  live : ∀ x ∈ L, (s.usage (refChunk x)).existing = true ∧ refCell x < (s.usage (refChunk x)).used
  balance : ∀ c, (s.usage c).existing = true → (s.usage c).used = (s.usage c).free + L.countP (refChunk · = c)
  absent : ∀ c, (s.usage c).existing = false → s.usage c = {}
  mutable : ∀ c, (s.usage c).immutable = false
  bound : ∀ c, (s.usage c).existing = true → c < s.chunkMax
  arrays : 0 < s.chunkMax → s.base ≠ none
  slot : ∀ c, (s.usage c).existing = true → ∃ p, s.ptr c = some p ∧ s.allocated p = true
  slot_inj : ∀ c c' p, s.ptr c = some p → s.ptr c' = some p → c = c'
  slot_free : ∀ c, (s.usage c).existing = false → s.ptr c = none
  fresh : ∀ c p, s.ptr c = some p → p < s.nextChunk
  size : ∀ c, (s.usage c).used ≤ QP_CHUNK_SIZE
  used_eq : s.usedCount = total s (!·.discounted) Usage.used
  free_eq : s.freeCount = total s (!·.discounted) Usage.free
  discount : ∀ c, (s.usage c).discounted = true → (s.usage c).used = (s.usage c).free

/-- There is a bump chunk. -/
structure Active (s : State) (L : Multiset Nat) : Prop extends Inv s L where
  bump : (s.usage s.bump).existing = true
  bump_counted : (s.usage s.bump).discounted = false
  fender : s.fender = 0

theorem Active.cellsImmutable {s : State} {L : Multiset Nat} (h : Active s L) (ref : Nat) : s.cellsImmutable ref = false := by
  unfold State.cellsImmutable
  split_ifs
  · simp [h.fender]
  · exact h.mutable _

namespace State

theorem overwrite_cons (cells : Nat → Node) (start : Nat) (n : Node) (ns : List Node) :
    overwrite cells start (n :: ns) = overwrite (update cells start n) (start + 1) ns := by
  funext i
  unfold overwrite
  rcases Nat.lt_trichotomy i start with hlt | rfl | hgt
  · rw [if_neg (by omega), if_neg (by omega), update_of_ne (Nat.ne_of_lt hlt)]
  · simp
  · rw [if_pos (by omega), if_pos (by omega), update_of_ne (Nat.ne_of_gt hgt),
      show i - start = i - (start + 1) + 1 by omega, getElem?_cons_succ]

theorem overwrite_nil (cells : Nat → Node) (start : Nat) : overwrite cells start [] = cells := by
  funext i
  simp [overwrite]

theorem overwrite_append : ∀ (ns ms : List Node) (cells : Nat → Node) (start : Nat),
    overwrite (overwrite cells start ns) (start + ns.length) ms = overwrite cells start (ns ++ ms)
  | [], ms, cells, start => by rw [overwrite_nil, nil_append, length_nil, Nat.add_zero]
  | n :: ns, ms, cells, start => by
    rw [overwrite_cons, cons_append, overwrite_cons, ← overwrite_append ns ms, length_cons,
      Nat.add_right_comm, Nat.add_assoc]

theorem writeTwigs_nil (s : State) (ref : Nat) : s.writeTwigs ref [] = s := by
  unfold writeTwigs
  cases s.ptr (refChunk ref) with
  | none => rfl
  | some p =>
    simp [overwrite_nil]

theorem writeTwigs_append (s : State) (ref : Nat) (ns ms : List Node) (hc : Contained ref (ns.length + ms.length)) :
    (s.writeTwigs ref ns).writeTwigs (ref + ns.length) ms = s.writeTwigs ref (ns ++ ms) := by
  by_cases hms : ms = []
  · rw [hms, writeTwigs_nil, append_nil]
  · have hlt : ns.length < ns.length + ms.length := Nat.lt_add_of_pos_right (length_pos_iff.mpr hms)
    have hptr : (s.writeTwigs ref ns).ptr (refChunk (ref + ns.length)) = s.ptr (refChunk ref) := by
      rw [hc.chunk hlt]
      rfl
    unfold writeTwigs at hptr ⊢
    rw [hptr, hc.cell hlt]
    cases s.ptr (refChunk ref) with
    | none => rfl
    | some p =>
      simp [overwrite_append]

end State

section
variable {s : State} {L : Multiset Nat} {ref p : Nat} {ns : List Node}

section
variable (h : Inv s L) (he : (s.usage (refChunk ref)).existing = true)
include h he

theorem Inv.cell_write (hc : Contained ref ns.length) (x : Nat) :
    (s.writeTwigs ref ns).cell x = if ref ≤ x then (ns[x - ref]?).getD (s.cell x) else s.cell x := by
  obtain ⟨p, hp, -⟩ := h.slot _ he
  have hmem : (s.writeTwigs ref ns).mem = update s.mem p (overwrite (s.mem p) (refCell ref) ns) := by
    rw [writeTwigs, hp]
  unfold cell
  rw [show (s.writeTwigs ref ns).ptr = s.ptr from rfl, hmem]
  unfold Contained refCell QP_CHUNK_SIZE at hc
  cases hx : s.ptr (refChunk x) with
  | none =>
    have hne : refChunk x ≠ refChunk ref := fun heq => by
      rw [heq, hp] at hx
      cases hx
    unfold refChunk QP_CHUNK_SIZE at hne
    by_cases hle : ref ≤ x
    · rw [if_pos hle, getElem?_eq_none (by omega)]
      rfl
    · rw [if_neg hle]
  | some q =>
    by_cases hq : q = p
    · subst hq
      have hchunk := h.slot_inj _ _ _ hx hp
      simp only [update_self, overwrite]
      unfold refChunk QP_CHUNK_SIZE at hchunk
      unfold refCell QP_CHUNK_SIZE
      by_cases hle : ref ≤ x
      · rw [if_pos hle, if_pos (by omega), show x % 1024 - ref % 1024 = x - ref by omega]
      · rw [if_neg hle, if_neg (by omega)]
    · have hne : refChunk x ≠ refChunk ref := fun heq => by
        rw [heq, hp, Option.some.injEq] at hx
        exact hq hx.symm
      simp only [update_of_ne hq]
      unfold refChunk QP_CHUNK_SIZE at hne
      by_cases hle : ref ≤ x
      · rw [if_pos hle, getElem?_eq_none (by omega)]
        rfl
      · rw [if_neg hle]

theorem Inv.cell_write_of_not_mem (hc : Contained ref ns.length) {x : Nat} (hx : x ∉ vec ref ns.length) : (s.writeTwigs ref ns).cell x = s.cell x := by
  rw [h.cell_write he hc]
  by_cases hle : ref ≤ x
  · have : ref + ns.length ≤ x := by
      by_contra hlt
      exact hx (mem_vec.mpr ⟨hle, by omega⟩)
    rw [if_pos hle, getElem?_eq_none (by omega)]
    rfl
  · rw [if_neg hle]

theorem Inv.cell_write_of_lt (hc : Contained ref ns.length) {j : Nat} {n : Node} (hj : ns[j]? = some n) :
    (s.writeTwigs ref ns).cell (ref + j) = n := by
  simp [h.cell_write he hc, hj]

theorem Inv.cell_set (n : Node) (y : Nat) : (s.setCell ref n).cell y = if y = ref then n else s.cell y := by
  have hc : Contained ref [n].length := refCell_lt ref
  by_cases heq : y = ref
  · subst heq
    rw [if_pos rfl]
    exact h.cell_write_of_lt he hc (j := 0) rfl
  · rw [if_neg heq]
    refine h.cell_write_of_not_mem he hc fun hmem => heq ?_
    simpa [vec_one] using hmem

end

theorem Active.write (h : Active s L) (ref : Nat) (ns : List Node) : Active (s.writeTwigs ref ns) L := { h with }

end

end OqsBind.Dns.Qp
