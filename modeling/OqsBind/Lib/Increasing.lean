import Mathlib.Data.List.Sort

/-! Lists whose elements have increasing keys, for a comparison that need not tell all keys apart. -/

namespace OqsBind
open List

section
variable {α β : Type} {cmp : β → β → Ordering} {key : α → β}

/-- The keys increase. -/
def Increasing (cmp : β → β → Ordering) (key : α → β) (l : List α) : Prop :=
  l.Pairwise fun x y => cmp (key x) (key y) = .lt

/-- An element of a list has the same key. -/
def among (cmp : β → β → Ordering) (key : α → β) (l : List α) (x : α) : Bool := l.any fun y => cmp (key x) (key y) = .eq

variable {l : List α} {x : α}

theorem among_iff : among cmp key l x ↔ ∃ y ∈ l, cmp (key x) (key y) = .eq := by
  simp [among]

theorem increasing_cons : Increasing cmp key (x :: l) ↔ (∀ y ∈ l, cmp (key x) (key y) = .lt) ∧ Increasing cmp key l :=
  pairwise_cons

theorem Increasing.filter (h : Increasing cmp key l) (p : α → Bool) : Increasing cmp key (l.filter p) :=
  Pairwise.filter p h

variable [Std.TransCmp cmp]

theorem Increasing.eq_of_cmp (h : Increasing cmp key l) {y : α} (hx : x ∈ l) (hy : y ∈ l)
    (heq : cmp (key x) (key y) = .eq) : x = y := by
  induction l with
  | nil => cases hx
  | cons z l ih =>
    obtain ⟨hz, hl⟩ := increasing_cons.mp h
    rcases mem_cons.mp hx with rfl | hx' <;> rcases mem_cons.mp hy with rfl | hy'
    · rfl
    · rw [hz y hy'] at heq
      cases heq
    · have hlt := hz x hx'
      rw [Std.OrientedCmp.eq_comm.mp heq] at hlt
      cases hlt
    · exact ih hl hx' hy'

theorem Increasing.nodup (h : Increasing cmp key l) : l.Nodup := by
  refine Pairwise.imp (fun {x y} hlt heq => ?_) h
  have hself : cmp (key y) (key y) = .eq := Std.ReflCmp.compare_self
  rw [heq, hself] at hlt
  cases hlt

variable {xs ys : List α}

theorem Increasing.merge (hxs : Increasing cmp key xs) (hys : Increasing cmp key ys)
    (hne : ∀ x ∈ xs, ∀ y ∈ ys, cmp (key x) (key y) ≠ .eq) :
    Increasing cmp key (xs.merge ys fun x y => cmp (key x) (key y) = .lt) := by
  induction xs, ys using merge.induct (fun x y => cmp (key x) (key y) = .lt) with
  | case1 ys => rwa [nil_merge]
  | case2 xs => rwa [merge_right]
  | case3 x xs y ys hlt ih =>
    obtain ⟨hx, hxs'⟩ := increasing_cons.mp hxs
    obtain ⟨hy, -⟩ := increasing_cons.mp hys
    rw [cons_merge_cons, if_pos hlt]
    rw [decide_eq_true_eq] at hlt
    refine increasing_cons.mpr ⟨fun z hz => ?_, ih hxs' hys fun x hx => hne x (mem_cons_of_mem _ hx)⟩
    rcases mem_merge.mp hz with hz | hz
    · exact hx z hz
    · rcases mem_cons.mp hz with rfl | hz
      · exact hlt
      · exact Std.TransCmp.lt_trans hlt (hy z hz)
  | case4 x xs y ys hlt ih =>
    obtain ⟨hx, -⟩ := increasing_cons.mp hxs
    obtain ⟨hy, hys'⟩ := increasing_cons.mp hys
    rw [cons_merge_cons, if_neg hlt]
    have hyx : cmp (key y) (key x) = .lt := by
      refine Std.OrientedCmp.gt_iff_lt.mp ?_
      cases hc : cmp (key x) (key y) <;> simp_all
    refine increasing_cons.mpr ⟨fun z hz => ?_, ih hxs hys' fun x hx y hy => hne x hx y (mem_cons_of_mem _ hy)⟩
    rcases mem_merge.mp hz with hz | hz
    · rcases mem_cons.mp hz with rfl | hz
      · exact hyx
      · exact Std.TransCmp.lt_trans hyx (hx z hz)
    · exact hy z hz

theorem Increasing.length_filter_among_le (hxs : Increasing cmp key xs) :
    (xs.filter (among cmp key ys)).length ≤ (ys.filter (among cmp key xs)).length := by
  have hex : ∀ x ∈ xs.filter (among cmp key ys), ∃ y ∈ ys, cmp (key x) (key y) = .eq := fun x hx =>
    among_iff.mp (mem_filter.mp hx).2
  choose! other hmem hcmp using hex
  have hinj : ((xs.filter (among cmp key ys)).map other).Nodup := by
    refine Nodup.map_on (fun x hx x' hx' heq => ?_) (hxs.filter _).nodup
    have hxx : cmp (key x) (key x') = .eq :=
      Std.TransCmp.eq_trans (hcmp x hx) (heq ▸ Std.OrientedCmp.eq_comm.mp (hcmp x' hx'))
    exact (hxs.filter _).eq_of_cmp hx hx' hxx
  have hsub : (xs.filter (among cmp key ys)).map other ⊆ ys.filter (among cmp key xs) := by
    intro y hy
    obtain ⟨x, hx, rfl⟩ := mem_map.mp hy
    refine mem_filter.mpr ⟨hmem x hx, among_iff.mpr ⟨x, (mem_filter.mp hx).1, ?_⟩⟩
    exact Std.OrientedCmp.eq_comm.mp (hcmp x hx)
  simpa using (subperm_of_subset hinj hsub).length_le

end

end OqsBind
