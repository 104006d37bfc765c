import OqsBind.Theorems.RadixInsert

/-! The first match: whatever prefixes are inserted, a search gives the one that was inserted first of those that contain
    the address. The numbers of the nodes are stamps that tell the order of the insertions. -/

namespace OqsBind.Isc.Radix
open List Function

/-- Prefixes are inserted, one after the other. -/
def insertAll (radix : RadixTree) (ps : List Prefix) : Except Fault RadixTree :=
  ps.foldlM (fun radix p => (insert radix p none).map fun r => ⟨r.1.tree, r.2⟩) radix

/-- The prefix is for the addresses of a family. -/
def Prefix.isFor (p : Prefix) (i : Family) : Prop := p.family = .unspec ∨ i = p.radixFamily

instance (p : Prefix) (i : Family) : Decidable (p.isFor i) := inferInstanceAs (Decidable (_ ∨ _))

def Prefix.contains (p a : Prefix) : Prop := p.isFor a.radixFamily ∧ p.key <+: a.key

/-- Which of the prefixes is the first with certain bits, for a family. -/
def firstAt (ps : List Prefix) (k : List Bool) (i : Family) : Option Nat := ps.findIdx? fun p => p.key = k ∧ p.isFor i

/-- The tree has what was inserted, under numbers that grow with each one that was new. -/
structure Stamped (ps : List Prefix) (stamp : Nat → Nat) (radix : RadixTree) : Prop where
  wf : WF radix.head
  number : ∀ k i, (slotsAt radix.head k i).nodeNum = (firstAt ps k i).map stamp
  le : ∀ j < ps.length, stamp j ≤ radix.numAddedNode
  lt : ∀ k i j, firstAt ps k i = some j → ∀ j' < j, stamp j' < stamp j

section
variable {ps : List Prefix} {p : Prefix} {stamp : Nat → Nat} {radix : RadixTree} {k : List Bool} {i : Family} {j : Nat}

theorem firstAt_eq_some : firstAt ps k i = some j ↔
    ∃ hj : j < ps.length, (ps[j].key = k ∧ ps[j].isFor i) ∧ ∀ j' (hj' : j' < j), ¬(ps[j'].key = k ∧ ps[j'].isFor i) := by
  simp [firstAt, findIdx?_eq_some_iff_getElem]

theorem firstAt_lt (h : firstAt ps k i = some j) : j < ps.length := (firstAt_eq_some.mp h).1

theorem firstAt_append : firstAt (ps ++ [p]) k i =
    (firstAt ps k i).or (if p.key = k ∧ p.isFor i then some ps.length else none) := by
  simp only [firstAt, findIdx?_append, findIdx?_singleton]
  split_ifs <;> simp_all

theorem Stamped.insert (h : Stamped ps stamp radix) (hp : p.Ok) : ∃ z count, insert radix p none = .ok (z, count) ∧
    Stamped (ps ++ [p]) (update stamp ps.length count) ⟨z.tree, count⟩ := by
  obtain ⟨z, hinsert, hslots, hstored⟩ := insert_spec h.wf hp none
  obtain ⟨hwf, htable⟩ := hstored z.node.slots
  have hold : ∀ j < ps.length, ∀ count, update stamp ps.length count j = stamp j := fun j hj count =>
    update_of_ne hj.ne _ _
  have hstamp : ∀ k i count, (firstAt ps k i).map (update stamp ps.length count) =
      (slotsAt radix.head k i).nodeNum := fun k i count => by
    rw [h.number]
    exact Option.map_congr fun j hj => hold j (firstAt_lt hj) count
  -- a number is given where there is none, and then the count goes up
  have hcount : ∀ i, p.isFor i → firstAt ps p.key i = none →
      (numberOld radix.numAddedNode p (slotsAt radix.head p.key) none).2 = radix.numAddedNode + 1 := by
    intro i hfor hnone
    have hfree : (slotsAt radix.head p.key i).nodeNum = none := by rw [h.number, hnone]; rfl
    simp only [numberOld]
    rw [if_pos]
    cases i with
    | v4 => exact .inl ⟨hfor, hfree⟩
    | v6 => exact .inr ⟨hfor, hfree⟩
  have hle : radix.numAddedNode ≤ (numberOld radix.numAddedNode p (slotsAt radix.head p.key) none).2 := by
    simp only [numberOld]
    split_ifs <;> omega
  refine ⟨z, _, hinsert, hwf, fun k i => ?_, fun j hj => ?_, fun k i j hj j' hj' => ?_⟩
  · change (slotsAt (z.withSlots z.node.slots) k i).nodeNum = _
    rw [htable, firstAt_append]
    by_cases hk : p.key = k
    · subst hk
      rw [hslots]
      cases hfirst : firstAt ps p.key i with
      | some j =>
        have hset := hstamp p.key i (numberOld radix.numAddedNode p (slotsAt radix.head p.key) none).2
        rw [hfirst] at hset
        simp [numberOld, ← hset]
      | none =>
        have hfree : (slotsAt radix.head p.key i).nodeNum = none := by rw [h.number, hfirst]; rfl
        by_cases hfor : p.isFor i
        · have hfor' : p.family = .unspec ∨ i = p.radixFamily := hfor
          simp only [hfor, hcount i hfor hfirst, and_self, if_true, Option.none_or, Option.map_some, update_self]
          simp [numberOld, hfor', hfree]
        · have hfor' : ¬(p.family = .unspec ∨ i = p.radixFamily) := hfor
          simp [numberOld, hfor, hfor', hfree]
    · rw [update_of_ne (Ne.symm hk), if_neg fun hnew => hk hnew.1, Option.or_none, hstamp]
  · rw [length_append] at hj
    rcases Nat.lt_succ_iff_lt_or_eq.mp hj with hj | rfl
    · rw [hold j hj]
      exact (h.le j hj).trans hle
    · simp
  · rw [firstAt_append] at hj
    cases hfirst' : firstAt ps k i with
    | some j0 =>
      rw [hfirst'] at hj
      cases hj
      have := firstAt_lt hfirst'
      rw [hold _ (by omega), hold _ (by omega)]
      exact h.lt k i j hfirst' j' hj'
    | none =>
      rw [hfirst', Option.none_or] at hj
      split_ifs at hj with hnew
      cases hj
      obtain ⟨rfl, hfor⟩ := hnew
      simpa [hold j' hj', hcount i hfor hfirst'] using Nat.lt_succ_of_le (h.le j' hj')

theorem Stamped.insertAll (h : Stamped ps stamp radix) {qs : List Prefix} (hqs : ∀ q ∈ qs, q.Ok) :
    ∃ radix' stamp', insertAll radix qs = .ok radix' ∧ Stamped (ps ++ qs) stamp' radix' := by
  induction qs generalizing ps stamp radix with
  | nil => exact ⟨radix, stamp, rfl, by simpa using h⟩
  | cons q qs ih =>
    obtain ⟨z, count, hinsert, hstamped⟩ := h.insert (hqs q mem_cons_self)
    obtain ⟨radix', stamp', hrun, hdone⟩ := ih hstamped fun q' hq' => hqs q' (mem_cons_of_mem q hq')
    refine ⟨radix', stamp', ?_, by simpa using hdone⟩
    rw [Radix.insertAll, foldlM_cons, hinsert]
    exact hrun

theorem Stamped.number_of_contains (h : Stamped ps stamp radix) {a : Prefix} (hj : ps[j]? = some p) (hp : p.contains a) :
    ∃ j' ≤ j, (slotsAt radix.head p.key a.radixFamily).nodeNum = some (stamp j') := by
  rw [h.number]
  obtain ⟨hlt, rfl⟩ := List.getElem?_eq_some_iff.mp hj
  cases hfirst : firstAt ps ps[j].key a.radixFamily with
  | none =>
    have hnone := findIdx?_eq_none_iff.mp hfirst ps[j] (getElem_mem hlt)
    simp [hp.1] at hnone
  | some j' =>
    refine ⟨j', ?_, rfl⟩
    by_contra hlater
    exact (firstAt_eq_some.mp hfirst).2.2 j (by omega) ⟨rfl, hp.1⟩

/-- The tree is well formed after any insertions, and a search gives what was inserted first. -/
theorem insertAll_search (ps : List Prefix) (hps : ∀ p ∈ ps, p.Ok) : ∃ radix, insertAll create ps = .ok radix ∧ WF radix.head ∧
    ∀ a : Prefix, a.Ok →
      match search radix a with
      | none => ∀ p ∈ ps, ¬Prefix.contains p a
      | some n => ∃ (j : Nat) (p q : Prefix), ps[j]? = some p ∧ p.contains a ∧
        (∀ j' < j, ∀ p', ps[j']? = some p' → ¬Prefix.contains p' a) ∧ n.pfx = some q ∧ q.key = p.key := by
  have hempty : Stamped [] id create := ⟨trivial, fun _ _ => rfl, fun j hj => by simp at hj, fun _ _ _ hj => by cases hj⟩
  obtain ⟨radix, stamp, hrun, h⟩ := hempty.insertAll hps
  refine ⟨radix, hrun, h.wf, fun a ha => ?_⟩
  cases hsearch : search radix a with
  | none =>
    intro p hp hcontains
    obtain ⟨j, hj⟩ := mem_iff_getElem?.mp hp
    obtain ⟨j', -, hnum⟩ := h.number_of_contains hj hcontains
    have hfound := search_spec h.wf ha
    rw [hsearch] at hfound
    simp [hfound p.key hcontains.2] at hnum
  | some n =>
    obtain ⟨q, num, hpfx, hkey, -, hnum, hle⟩ := search_some h.wf ha hsearch
    rw [h.number] at hnum
    obtain ⟨j, hfirst, rfl⟩ := Option.map_eq_some_iff.mp hnum
    obtain ⟨hlt, ⟨hsame, hfor⟩, -⟩ := firstAt_eq_some.mp hfirst
    refine ⟨j, ps[j], q, getElem?_eq_getElem hlt, ⟨hfor, hsame ▸ hkey⟩, fun j' hj' p' hp' hcontains => ?_, hpfx, hsame.symm⟩
    obtain ⟨j₁, hj₁, hnum'⟩ := h.number_of_contains hp' hcontains
    have := hle p'.key _ hcontains.2 hnum'
    have := h.lt _ _ _ hfirst j₁ (by omega)
    omega

/-- The prefix of 10.0.0.0 with so many bits. -/
def tenNet (bitlen : Nat) : Prefix := ⟨.inet, bitlen, 10 :: replicate 15 0⟩

theorem insertAll_search_nested : ∃ radix, insertAll create [tenNet 16, tenNet 8, ⟨.unspec, 0, replicate 16 0⟩] = .ok radix ∧
    (search radix (tenNet 32)).isSome := by
  obtain ⟨radix, hrun, -, hsearch⟩ := insertAll_search [tenNet 16, tenNet 8, ⟨.unspec, 0, replicate 16 0⟩]
    (by simp only [mem_cons, not_mem_nil, or_false]; rintro p (rfl | rfl | rfl) <;> exact ⟨rfl, rfl⟩)
  have hfound := hsearch (tenNet 32) ⟨rfl, rfl⟩
  refine ⟨radix, hrun, ?_⟩
  cases h : search radix (tenNet 32) with
  | none =>
    rw [h] at hfound
    exact absurd ⟨.inr rfl, by decide⟩ (hfound (tenNet 16) mem_cons_self)
  | some n => rfl

end

end OqsBind.Isc.Radix
