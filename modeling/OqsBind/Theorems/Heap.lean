import OqsBind.Isc.Heap
import OqsBind.Lib.HeapOrder
import OqsBind.Lib.Checked
import Mathlib.Order.BooleanAlgebra.Set

/-! The heap of the cache holds what was put into it, at the positions its headers know, with a header that expires first at
    the root. -/

namespace OqsBind.Isc.Heap
open HeapOrder

variable {α κ : Type} [DecidableEq α] [LinearOrder κ] {h : Heap α} {i j : Nat} {elt : α} {key : α → κ}
  {x : Except HeapAbort (Heap α)}

/-- A call that ends the program ran out of memory. -/
abbrev Safe {β : Type} (x : Except HeapAbort β) (Q : β → Prop) : Prop := Checked (· = .overflow) x Q

/-- Positions and elements tell each other. An element outside the heap has the index zero. Every position lies inside the
    array. -/
structure Linked (h : Heap α) : Prop where
  index_array : ∀ k, 1 ≤ k → k ≤ h.last → h.index (h.array k) = k
  array_index : ∀ x, h.index x ≠ 0 → h.index x ≤ h.last ∧ h.array (h.index x) = x
  bytes : h.size * 8 < 2 ^ 32
  fits : h.last = 0 ∨ h.last < h.size
  increment : 2 ≤ h.sizeIncrement

structure Inv (key : α → κ) (h : Heap α) : Prop extends Linked h where
  ordered : Ordered h.last (key ∘ h.array)

omit [DecidableEq α] in
theorem Linked.array_ne (hl : h.Linked) {k : Nat} (hk : 1 ≤ k) (hkn : k ≤ h.last) (hne : k ≠ h.index elt) : h.array k ≠ elt := by
  rintro rfl
  exact hne (hl.index_array k hk hkn).symm

/-- The elements in the heap. -/
def held (h : Heap α) : Set α := {x | h.index x ≠ 0}

omit [DecidableEq α] in
theorem mem_held {x : α} : x ∈ h.held ↔ h.index x ≠ 0 := Iff.rfl

theorem put_array_self (h : Heap α) (i : Nat) (elt : α) : (h.put i elt).array i = elt := Function.update_self ..

theorem put_array_of_ne (h : Heap α) (elt : α) {k : Nat} (hk : k ≠ i) : (h.put i elt).array k = h.array k :=
  Function.update_of_ne hk ..

/-! Both loops exchange the element with its neighbour, position by position. -/

def swap (h : Heap α) (i j : Nat) : Heap α := (h.put i (h.array j)).put j (h.array i)

theorem swap_array (h : Heap α) (i j : Nat) : (h.swap i j).array = h.array ∘ Equiv.swap i j := by
  funext k
  simp only [swap, put, Function.comp, Equiv.swap_apply_def, Function.update_apply]
  grind

theorem put_put (h : Heap α) (hij : i ≠ j) : (h.put i (h.array j)).put j elt = (h.put i elt).swap i j := by
  simp only [put, swap, Heap.mk.injEq, true_and]
  refine ⟨funext fun k => ?_, funext fun k => ?_⟩
  all_goals
    simp only [Function.update_apply]
    grind

theorem Linked.swap (hl : h.Linked) (hi : 1 ≤ i ∧ i ≤ h.last) (hj : 1 ≤ j ∧ j ≤ h.last) :
    (h.swap i j).Linked ∧ (h.swap i j).held = h.held := by
  have hat := hl.index_array
  have hback := hl.array_index
  refine ⟨⟨fun k hk hkn => ?_, fun x hx => ?_, hl.bytes, hl.fits, hl.increment⟩, Set.ext fun x => ?_⟩
  all_goals
    simp only [mem_held, Heap.swap, put, Function.update_apply] at *
    grind

/-- What a loop leaves of the heap that has the element at the position where the loop starts. -/
def Sifted (key : α → κ) (h h' : Heap α) : Prop := h'.Inv key ∧ h'.held = h.held

omit [DecidableEq α] in
theorem child_bounds (compare : α → α → Bool) (h : Heap α) (hi : 1 ≤ i) (hhalf : i ≤ h.last / 2) :
    h.child compare i / 2 = i ∧ h.child compare i ≤ h.last ∧ i < h.child compare i := by
  unfold child
  split <;> omega

/-- A new last element is in its place but for its ancestors. -/
theorem Inv.append (hv : h.Inv key) (habsent : h.index elt = 0) {size : Nat} (hsize : size * 8 < 2 ^ 32) (hfits : h.last + 1 < size) :
    let v := Heap.put { h with last := h.last + 1, size := size } (h.last + 1) elt
    v.Linked ∧ Up (h.last + 1) (key ∘ v.array) (h.last + 1) ∧ v.held = h.held ∪ {elt} := by
  have hat := hv.index_array
  have hback := hv.array_index
  have ho := hv.ordered
  unfold Ordered at ho
  refine ⟨⟨fun k hk hkn => ?_, fun x hx => ?_, hsize, .inr hfits, hv.increment⟩,
    ⟨fun k hk hkn hne => ?_, fun k hi hk hkn => ?_⟩, Set.ext fun x => ?_⟩
  all_goals
    simp only [mem_held, Set.mem_union, Set.mem_singleton_iff, put, Function.update_apply, Function.comp] at *
    grind

/-- The last element takes the place of the one that goes. -/
theorem Linked.replace (hl : h.Linked) (hi : 1 ≤ i ∧ i < h.last) :
    let v := Heap.put ⟨h.size, h.sizeIncrement, h.last - 1, Function.update h.array i (h.array h.last),
      Function.update h.index (h.array i) 0⟩ i (h.array h.last)
    v.Linked ∧ (∀ k, k ≠ i → v.array k = h.array k) ∧ v.held = h.held \ {h.array i} := by
  have hat := hl.index_array
  have hback := hl.array_index
  have hfits := hl.fits
  refine ⟨⟨fun k hk hkn => ?_, fun x hx => ?_, hl.bytes, ?_, hl.increment⟩, fun k hk => ?_, Set.ext fun x => ?_⟩
  all_goals
    simp only [mem_held, Set.mem_sdiff, Set.mem_singleton_iff, put, Function.update_apply] at *
    grind

section Operations
variable {compare : α → α → Bool} (hc : ∀ a b, compare a b = true ↔ key a < key b)
include hc

omit [DecidableEq α] in
theorem Linked.insisted (hl : h.Linked) (ho : Ordered h.last (key ∘ h.array)) (hi : 1 ≤ i ∧ i ≤ h.last) :
    Safe (h.insisted compare i) (Sifted key h) := by
  refine .ite (fun _ => ⟨⟨hl, ho⟩, rfl⟩) fun hnot => absurd ?_ hnot
  by_cases hone : i = 1
  · exact .inl hone
  · rw [hc]
    exact .inr (not_lt.mpr (ho i (by omega) hi.2))

theorem floatUp_sifted (hl : (h.put i elt).Linked) (hi : 1 ≤ i ∧ i ≤ h.last) (ho : Up h.last (key ∘ (h.put i elt).array) i) :
    Safe (floatUp compare h i elt) (Sifted key (h.put i elt)) := by
  fun_induction floatUp compare h i elt with
  | case1 h i hless ih =>
    have hparent : 1 ≤ i / 2 ∧ i / 2 ≤ h.last := by omega
    have hlt := (hc _ _).mp hless.2
    rw [← put_array_self h i elt, ← put_array_of_ne h elt (show i / 2 ≠ i by omega)] at hlt
    rw [put_put h (by omega), swap_array] at ih
    have hrun := ih (hl.swap hi hparent).1 hparent (ho.swap (by omega) hi.2 hlt)
    exact hrun.mono fun h' hs => ⟨hs.1, hs.2.trans (hl.swap hi hparent).2⟩
  | case2 h i hstop =>
    refine hl.insisted hc (ho.done fun htwo => ?_) hi
    rw [Function.comp, Function.comp, put_array_self, put_array_of_ne h elt (by omega)]
    exact not_lt.mp fun hlt => hstop ⟨by omega, (hc _ _).mpr hlt⟩

omit [DecidableEq α] in
theorem child_le {k : Nat} (hk : k / 2 = i) (hn : k ≤ h.last) :
    key (h.array (h.child compare i)) ≤ key (h.array k) := by
  have hcases : k = 2 * i ∨ k = 2 * i + 1 := by omega
  unfold child
  simp only [hc]
  grind

theorem sinkDown_sifted (hl : (h.put i elt).Linked) (hi : 1 ≤ i ∧ i ≤ h.last) (ho : Down h.last (key ∘ (h.put i elt).array) i) :
    Safe (sinkDown compare h i elt) (Sifted key (h.put i elt)) := by
  have hbelow {h : Heap α} {i k : Nat} (hi : 1 ≤ i) (hk : k / 2 = i) : (h.put i elt).array k = h.array k :=
    put_array_of_ne h elt (by omega)
  fun_induction sinkDown compare h i elt with
  | case1 h i hmore ih =>
    obtain ⟨hone, hhalf, hnot⟩ := hmore
    obtain ⟨hj, hlast, hlt⟩ := child_bounds compare h hone hhalf
    have hchild : 1 ≤ h.child compare i ∧ h.child compare i ≤ h.last := by omega
    rw [put_put h (by omega), swap_array] at ih
    have hle : key ((h.put i elt).array (h.child compare i)) ≤ key ((h.put i elt).array i) := by
      rw [put_array_self, hbelow hone hj]
      exact not_lt.mp (mt (hc _ _).mpr hnot)
    have hmin (k : Nat) (hk : 2 ≤ k) (hki : k / 2 = i) (hkn : k ≤ h.last) :
        key ((h.put i elt).array (h.child compare i)) ≤ key ((h.put i elt).array k) := by
      rw [hbelow hone hj, hbelow hone hki]
      exact child_le hc hki hkn
    have hrun := ih (hl.swap hi hchild).1 hchild (ho.swap hone hj hlast hle hmin)
    exact hrun.mono fun h' hs => ⟨hs.1, hs.2.trans (hl.swap hi hchild).2⟩
  | case2 h i hstop =>
    refine hl.insisted hc (ho.done fun k hk hki hkn => ?_) hi
    have hhalf : k ≤ h.last := hkn
    have hless : compare elt (h.array (h.child compare i)) = true := by
      by_contra hnot
      exact hstop ⟨hi.1, by omega, hnot⟩
    rw [Function.comp, Function.comp, put_array_self, hbelow hi.1 hki]
    exact ((hc _ _).mp hless).le.trans (child_le hc hki hkn)

/-- Only the key at `i` is new, and the caller tells in which direction it went. -/
theorem sifted {f : Nat → κ} (hl : (h.put i elt).Linked) (hi : 1 ≤ i ∧ i ≤ h.last)
    (hf : Ordered h.last f) (hother : ∀ k, 1 ≤ k → k ≤ h.last → k ≠ i → key ((h.put i elt).array k) = f k)
    (hx : key elt ≤ f i ∧ x = h.floatUp compare i elt ∨ f i ≤ key elt ∧ x = h.sinkDown compare i elt) :
    Safe x (Sifted key (h.put i elt)) := by
  have hself := congrArg key (put_array_self h i elt)
  rcases hx with ⟨hle, rfl⟩ | ⟨hle, rfl⟩
  · exact floatUp_sifted hc hl hi (hf.lower hi.2 hother (hself.trans_le hle))
  · exact sinkDown_sifted hc hl hi (hf.raise hi.2 hother (hle.trans hself.ge))

theorem insert_inv (hv : h.Inv key) (habsent : h.index elt = 0) :
    Safe (h.insert compare elt) fun h' => h'.Inv key ∧ h'.held = h.held ∪ {elt} := by
  have hbytes := hv.bytes
  have hfits := hv.fits
  have hinc := hv.increment
  have hnext : (h.last + 1) % 2 ^ 32 = h.last + 1 := Nat.mod_eq_of_lt (by omega)
  have hroom : Safe (h.makeRoom (h.last + 1)) fun r =>
      ∃ size, r = { h with size := size } ∧ size * 8 < 2 ^ 32 ∧ h.last + 1 < size :=
    .ite (fun hfull => .ite (fun hsize => ⟨_, rfl, hsize, by omega⟩) fun _ => rfl)
      fun hfull => ⟨h.size, rfl, hbytes, by omega⟩
  unfold insert
  rw [hnext]
  refine .ite (fun hzero => rfl) fun _ => hroom.bind fun r hr => ?_
  obtain ⟨size, rfl, hsize, hlast⟩ := hr
  obtain ⟨hl, hup, hheld⟩ := hv.append habsent hsize hlast
  have hrun := floatUp_sifted hc hl ⟨by omega, Nat.le_refl (h.last + 1)⟩ hup
  exact hrun.mono fun h' hs => ⟨hs.1, hs.2.trans hheld⟩

theorem delete_inv (hv : h.Inv key) (hi : 1 ≤ i ∧ i ≤ h.last) :
    Safe (h.delete compare i) fun h' => h'.Inv key ∧ h'.held = h.held \ {h.array i} := by
  have hshort : Ordered (h.last - 1) (key ∘ h.array) := fun k hk hkn => hv.ordered k hk (by omega)
  refine .ite (fun hout => absurd hi hout) fun _ => .ite (fun hlast => ?_) fun hlast => ?_
  · have hat := hv.index_array
    have hback := hv.array_index
    have hfits := hv.fits
    refine ⟨⟨⟨fun k hk hkn => ?_, fun x hx => ?_, hv.bytes, ?_, hv.increment⟩, hshort⟩, Set.ext fun x => ?_⟩
    all_goals
      simp only [mem_held, Set.mem_sdiff, Set.mem_singleton_iff, Function.update_apply] at *
      grind
  · obtain ⟨hl, hsame, hheld⟩ := hv.replace (i := i) (by omega)
    have hsift {x : Except HeapAbort (Heap α)} :=
      sifted (x := x) hc hl (by dsimp only; omega) hshort fun k _ _ hk => congrArg key (hsame k hk)
    refine Checked.mono (.ite (fun hless => hsift (.inl ⟨?_, rfl⟩)) fun hmore => hsift (.inr ⟨?_, rfl⟩)) fun h' hs =>
      ⟨hs.1, hs.2.trans hheld⟩
    · exact ((hc _ _).mp hless).le
    · exact not_lt.mp (mt (hc _ _).mpr hmore)

end Operations

end OqsBind.Isc.Heap

namespace OqsBind.Isc.TtlHeap
open Heap (Safe)

variable {α κ : Type} [DecidableEq α] [LinearOrder κ] {s : TtlHeap α κ}

/-- What a call is for: the headers in the heap. -/
def Call.on (m : Set α) : Call α κ → Set α
  | .add header _ => m ∪ {header}
  | .setttl _ _ => m
  | .deletedata header => m \ {header}

def Inv (s : TtlHeap α κ) : Prop := s.heap.Inv s.ttl

omit [DecidableEq α] in
theorem ttlSooner_iff (s : TtlHeap α κ) (a b : α) : s.ttlSooner a b = true ↔ s.ttl a < s.ttl b := decide_eq_true_iff

/-- A header outside the heap may have any time to live. -/
theorem Inv.outside {header : α} (h : s.Inv) (hout : s.heap.index header = 0) (ttl : κ) :
    Inv { s with ttl := Function.update s.ttl header ttl } := by
  refine ⟨h.toLinked, fun k hk hkn => ?_⟩
  have hother {k : Nat} (hk : 1 ≤ k) (hkn : k ≤ s.heap.last) :
      Function.update s.ttl header ttl (s.heap.array k) = s.ttl (s.heap.array k) :=
    Function.update_of_ne (h.array_ne hk hkn (by omega)) ..
  have hparent : k / 2 ≤ s.heap.last := Nat.le_trans (Nat.div_le_self k 2) hkn
  simp only [Function.comp, hother (by omega) hparent, hother (by omega) hkn]
  exact h.ordered k hk hkn

theorem Inv.add (h : s.Inv) (header : α) (ttl : κ) (hout : s.heap.index header = 0) :
    Safe (s.add header ttl) fun s' => s'.Inv ∧ s'.heap.held = s.heap.held ∪ {header} :=
  (Heap.insert_inv (ttlSooner_iff _) (h.outside hout ttl) hout).bind fun _ hheap => hheap

theorem Inv.setttl (h : s.Inv) (header : α) (ttl : κ) :
    Safe (s.setttl header ttl) fun s' => s'.Inv ∧ s'.heap.held = s.heap.held := by
  by_cases hout : s.heap.index header = 0
  · rw [TtlHeap.setttl, if_pos (.inl hout)]
    exact ⟨h.outside hout ttl, rfl⟩
  · obtain ⟨hlast, hat⟩ := h.array_index header hout
    have hi : 1 ≤ s.heap.index header ∧ s.heap.index header ≤ s.heap.last := ⟨by omega, hlast⟩
    have hself : s.heap.put (s.heap.index header) header = s.heap := by
      rw [Heap.put, Function.update_eq_self, Function.update_eq_iff.mpr ⟨hat.symm, fun _ _ => rfl⟩]
    have hsift {x : Except HeapAbort (Heap α)} :=
      Heap.sifted (x := x) (ttlSooner_iff { s with ttl := Function.update s.ttl header ttl }) (hself.symm ▸ h.toLinked) hi h.ordered
        (hself.symm ▸ fun k hk hkn hne => Function.update_of_ne (h.array_ne hk hkn hne) ..)
    simp only [Function.comp, hat, Function.update_self, hself] at hsift
    refine .ite (fun hquit => ?_) fun _ => Checked.bind (.ite (fun hless => ?_) fun hmore => ?_) fun heap hs => hs
    · have hkeep : Function.update s.ttl header ttl = s.ttl := by
        rw [hquit.resolve_left hout, Function.update_eq_self]
      exact ⟨hkeep.symm ▸ h, rfl⟩
    · refine .ite (fun hbad => absurd hi hbad) fun _ => hsift (.inl ⟨hless.le, ?_⟩)
      rw [hat]
    · refine .ite (fun hbad => absurd hi hbad) fun _ => hsift (.inr ⟨not_lt.mp hmore, ?_⟩)
      rw [hat]

theorem Inv.deletedata (h : s.Inv) (header : α) :
    Safe (s.deletedata header) fun s' => s'.Inv ∧ s'.heap.held = s.heap.held \ {header} := by
  refine .ite (fun hout => ⟨h, (Set.sdiff_singleton_eq_self (not_not.mpr hout)).symm⟩) fun hin => ?_
  obtain ⟨hlast, hat⟩ := h.array_index header hin
  have hdelete := Heap.delete_inv (ttlSooner_iff s) h ⟨by omega, hlast⟩
  rw [hat] at hdelete
  exact hdelete.bind fun heap hheap => hheap

theorem Inv.call (h : s.Inv) (c : Call α κ) :
    Safe (s.call c) fun s' => s'.Inv ∧ s'.heap.held = c.on s.heap.held := by
  cases c with
  | add header ttl =>
    refine .ite (fun hin => ⟨h, ?_⟩) fun hout => h.add header ttl (not_not.mp hout)
    exact (Set.union_eq_self_of_subset_right (Set.singleton_subset_iff.mpr hin)).symm
  | setttl header ttl => exact h.setttl header ttl
  | deletedata header => exact h.deletedata header

omit [DecidableEq α] in
theorem Inv.root (h : s.Inv) :
    (s.heap.element 1 = none ↔ s.heap.held = ∅) ∧
      ∀ x, s.heap.element 1 = some x → x ∈ s.heap.held ∧ ∀ y ∈ s.heap.held, s.ttl x ≤ s.ttl y := by
  unfold Heap.element
  by_cases hlast : 1 ≤ s.heap.last
  · have hone : s.heap.array 1 ∈ s.heap.held := (h.index_array 1 (Nat.le_refl 1) hlast).trans_ne Nat.one_ne_zero
    rw [if_pos hlast]
    refine ⟨iff_of_false (by simp) (Set.nonempty_of_mem hone).ne_empty, fun x hx => ?_⟩
    obtain rfl := Option.some.inj hx
    refine ⟨hone, fun y hy => ?_⟩
    obtain ⟨hle, hat⟩ := h.array_index y hy
    have hroot := h.ordered.root_le (Nat.one_le_iff_ne_zero.mpr hy) hle
    rwa [Function.comp, Function.comp, hat] at hroot
  · rw [if_neg hlast]
    refine ⟨iff_of_true rfl (Set.eq_empty_of_forall_notMem fun x hx => ?_), fun x hx => by cases hx⟩
    have := (h.array_index x hx).1
    have : s.heap.index x ≠ 0 := hx
    omega

/-- After any calls that did not run out of memory, the heap has exactly the headers that were put into it and not taken out;
    each knows its position, which lies inside the array, and the one at the root expires first. -/
theorem ttl_heap_run [Inhabited α] (ttl : α → κ) (cs : List (Call α κ)) :
    Safe (cs.foldlM call (⟨.create 0, ttl⟩ : TtlHeap α κ)) fun s =>
      (∀ x, x ∈ cs.foldl Call.on ∅ ↔ s.heap.index x ≠ 0) ∧
      (∀ x, s.heap.index x ≠ 0 → s.heap.index x < s.heap.size ∧ s.heap.element (s.heap.index x) = some x) ∧
      (s.heap.element 1 = none ↔ cs.foldl Call.on ∅ = ∅) ∧
      ∀ x, s.heap.element 1 = some x → x ∈ cs.foldl Call.on ∅ ∧ ∀ y ∈ cs.foldl Call.on ∅, s.ttl x ≤ s.ttl y := by
  have hempty : Inv (⟨.create 0, ttl⟩ : TtlHeap α κ) := by
    refine ⟨⟨fun k hk hkn => ?_, fun x hx => absurd rfl hx, ?_, .inl rfl, ?_⟩, fun k hk hkn => ?_⟩
    all_goals simp [Heap.create] at *
    all_goals omega
  have hnone : (Heap.create 0 : Heap α).held = ∅ := Set.eq_empty_of_forall_notMem fun x hx => hx rfl
  refine (Checked.foldlM (I := fun rest s => s.Inv ∧ rest.foldl Call.on s.heap.held = cs.foldl Call.on ∅) ?_
    ⟨hempty, by rw [hnone]⟩).mono ?_
  · rintro c rest s ⟨hs, hrest⟩
    exact (hs.call c).mono fun s' hs' => ⟨hs'.1, hs'.2 ▸ hrest⟩
  · rintro s ⟨hs, hend⟩
    rw [← hend]
    refine ⟨fun x => Iff.rfl, fun x hx => ?_, hs.root⟩
    obtain ⟨hle, hat⟩ := hs.array_index x hx
    have hfits := hs.fits
    exact ⟨by omega, by rw [Heap.element, if_pos hle, hat]⟩

end OqsBind.Isc.TtlHeap
