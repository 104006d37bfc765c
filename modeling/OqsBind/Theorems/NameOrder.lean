import OqsBind.Dns.Name

/-! The order of names. `dns_name_compare` compares label by label from the top of the tree, each label by its
    folded octets and then by its length; names that agree on all common labels are ordered by their number. -/

namespace OqsBind.Dns
open Isc List Label

/-- The order of two labels. -/
def labelOrder : Bytes → Bytes → Ordering
  | [], [] => .eq
  | [], _ :: _ => .lt
  | _ :: _, [] => .gt
  | a :: as, b :: bs => (Ord.compare (tolower a).toNat (tolower b).toNat).then (labelOrder as bs)

theorem labelOrder_eq_iff : ∀ {as bs : Bytes}, labelOrder as bs = .eq ↔ as.map tolower = bs.map tolower
  | [], [] => by simp [labelOrder]
  | [], _ :: _ => by simp [labelOrder]
  | _ :: _, [] => by simp [labelOrder]
  | a :: as, b :: bs => by
    simp only [labelOrder, Ordering.then_eq_eq, labelOrder_eq_iff, map_cons, cons.injEq, Nat.compare_eq_eq,
      UInt8.toNat_inj]

/-- What `dns_name_fullcompare` computes from two labels: `diff`, and `cdiff` where it is zero. -/
theorem labelOrder_eq : ∀ as bs : Bytes, ∀ n, n = min as.length bs.length →
    labelOrder as bs = (Ord.compare (lowercmp (as.take n) (bs.take n)) 0).then
      (Ord.compare ((as.length : Int) - bs.length) 0)
  | [], [], n, h => by simp [labelOrder, lowercmp]
  | [], b :: bs, n, h => by
    have hlt : (([] : Bytes).length : Int) - (b :: bs).length < 0 := by simp; omega
    rw [Int.compare_eq_lt.mpr hlt]
    simp [labelOrder, lowercmp]
  | a :: as, [], n, h => by
    have hgt : (0 : Int) < ((a :: as).length : Int) - ([] : Bytes).length := by simp
    rw [Int.compare_eq_gt.mpr hgt]
    simp [labelOrder, lowercmp]
  | a :: as, b :: bs, n, h => by
    obtain ⟨k, rfl⟩ : ∃ k, n = k + 1 := ⟨min as.length bs.length, by simp at h; omega⟩
    have ih := labelOrder_eq as bs k (by simp at h; omega)
    rw [labelOrder, ih, take_succ_cons, take_succ_cons, lowercmp]
    rcases Nat.lt_trichotomy (tolower a).toNat (tolower b).toNat with hlt | heq | hgt
    · rw [if_pos hlt, Nat.compare_eq_lt.mpr hlt]
      rfl
    · simp [heq]
    · rw [if_neg (Nat.lt_asymm hgt), if_pos hgt, Nat.compare_eq_gt.mpr hgt]
      rfl

/-- The labels with the top one first; the root label of an absolute name is empty. -/
def Name.stack (n : Name) : List Bytes := (n.labels.map bytes ++ if n.absolute then [[]] else []).reverse

theorem Name.stack_length (n : Name) : n.stack.length = n.nlabels := by
  cases h : n.absolute <;> simp [Name.stack, Name.nlabels, rootWire, h]

theorem Name.label_eq (n : Name) {i : Nat} (h : i < n.nlabels) :
    n.stack[n.nlabels - 1 - i]? = some (n.label i) := by
  have hlen := n.stack_length
  have hrev : n.stack[n.nlabels - 1 - i]? = (n.labels.map bytes ++ if n.absolute then [[]] else [])[i]? := by
    unfold Name.stack at hlen ⊢
    rw [length_reverse] at hlen
    rw [getElem?_reverse (by omega)]
    congr 1
    omega
  rw [hrev, Name.label, n.drop_offset]
  by_cases hi : i < n.labels.length
  · -- an ordinary label: its length octet is followed by its octets
    rw [drop_eq_getElem_cons hi, labelsWire_cons, append_assoc, wire, cons_append,
      getElem?_append_left (by simpa using hi)]
    simp only [getElem?_map, getElem?_eq_getElem hi, Option.map_some, length_octet]
    rw [take_left]
  · -- only the root label comes after them
    have habs : n.absolute = true := by
      by_contra hrel
      simp [Name.nlabels, rootWire, hrel] at h
      omega
    have hi' : i = n.labels.length := by
      simp [Name.nlabels, rootWire, habs] at h
      omega
    subst hi'
    simp [habs, rootWire]

/-- The order of two stacks of labels. -/
def stackOrder : List Bytes → List Bytes → Ordering
  | [], [] => .eq
  | [], _ :: _ => .lt
  | _ :: _, [] => .gt
  | a :: as, b :: bs => (labelOrder a b).then (stackOrder as bs)

theorem stackOrder_eq_iff : ∀ {as bs : List Bytes},
    stackOrder as bs = .eq ↔ as.map (·.map tolower) = bs.map (·.map tolower)
  | [], [] => by simp [stackOrder]
  | [], _ :: _ => by simp [stackOrder]
  | _ :: _, [] => by simp [stackOrder]
  | a :: as, b :: bs => by
    simp [stackOrder, Ordering.then_eq_eq, stackOrder_eq_iff, labelOrder_eq_iff]

theorem stackOrder_length {as bs : List Bytes} (h : min as.length bs.length = 0) :
    stackOrder as bs = Ord.compare ((as.length : Int) - bs.length) 0 := by
  match as, bs with
  | [], [] => rfl
  | [], b :: bs => exact (Int.compare_eq_lt.mpr (by simp; omega)).symm
  | a :: as, [] => exact (Int.compare_eq_gt.mpr (by simp)).symm
  | _ :: _, _ :: _ => simp at h

theorem Name.stack_drop (n : Name) {o : Nat} (ho : o + 1 ≤ n.nlabels) :
    n.stack.drop (n.nlabels - (o + 1)) = n.label o :: n.stack.drop (n.nlabels - o) := by
  have hlab := n.label_eq (i := o) (by omega)
  rw [show n.nlabels - 1 - o = n.nlabels - (o + 1) by omega] at hlab
  obtain ⟨hlt, hget⟩ := List.getElem?_eq_some_iff.mp hlab
  rw [drop_eq_getElem_cons hlt]
  congr 2
  omega

theorem fullcompareLoop_order (n m : Name) : ∀ {l o1 o2 : Nat} (nlabels : Nat), l = min o1 o2 → o1 ≤ n.nlabels →
    o2 ≤ m.nlabels →
    Ord.compare (n.fullcompareLoop m ((o1 : Int) - o2) l o1 o2 nlabels).order 0 =
      stackOrder (n.stack.drop (n.nlabels - o1)) (m.stack.drop (m.nlabels - o2))
  | 0, o1, o2, nlabels, hl, h1, h2 => by
    have hn := n.stack_length
    have hm := m.stack_length
    rw [Name.fullcompareLoop, stackOrder_length (by simp [hn, hm]; omega)]
    simp only [length_drop, hn, hm]
    congr 1
    omega
  | l + 1, o1, o2, nlabels, hl, h1, h2 => by
    obtain ⟨o1, rfl⟩ : ∃ k, o1 = k + 1 := ⟨o1 - 1, by omega⟩
    obtain ⟨o2, rfl⟩ : ∃ k, o2 = k + 1 := ⟨o2 - 1, by omega⟩
    rw [n.stack_drop h1, m.stack_drop h2, stackOrder, Name.fullcompareLoop]
    simp only [Nat.add_sub_cancel]
    have ih := fullcompareLoop_order n m (l := l) (nlabels + 1) (by omega) (by omega : o1 ≤ n.nlabels)
      (by omega : o2 ≤ m.nlabels)
    rw [labelOrder_eq _ _ (if ((n.label o1).length : Int) - (m.label o2).length < 0 then (n.label o1).length
      else (m.label o2).length) (by split_ifs <;> omega)]
    generalize lowercmp _ _ = diff
    generalize ((n.label o1).length : Int) - (m.label o2).length = cdiff at *
    by_cases hd : diff = 0
    · by_cases hc : cdiff = 0
      · simp [hd, hc, ih]
      · cases hcmp : Ord.compare cdiff 0 <;> simp_all
    · cases hcmp : Ord.compare diff 0 <;> simp_all

theorem Name.compare_order (n m : Name) : Ord.compare (n.compare m) 0 = stackOrder n.stack m.stack := by
  have h := fullcompareLoop_order n m (l := if m.nlabels > n.nlabels then n.nlabels else m.nlabels) 0
    (by split_ifs <;> omega) (le_refl n.nlabels) (le_refl m.nlabels)
  simpa [Name.compare, Name.fullcompare] using h

/-- Folding changes no length octet, so labels can be read off a folded wire form. -/
theorem labelsWire_fold_iff {r : Bool} : ∀ {ls ms : List Label},
    (labelsWire ls ++ rootWire r).map tolower = (labelsWire ms ++ rootWire r).map tolower ↔
      ls.map (·.bytes.map tolower) = ms.map (·.bytes.map tolower)
  | [], [] => by simp
  | [], m :: ms => by cases r <;> simp [rootWire, wire]
  | l :: ls, [] => by cases r <;> simp [rootWire, wire]
  | l :: ls, m :: ms => by
    have ih := @labelsWire_fold_iff r ls ms
    simp only [labelsWire_cons, wire, cons_append, append_assoc, map_cons, map_append,
      cons.injEq, tolower_eq_small m.length_octet_le] at ih ⊢
    constructor
    · rintro ⟨hlen, h⟩
      have hlen' : l.bytes.length = m.bytes.length := by
        rw [← l.length_octet, ← m.length_octet, hlen]
      obtain ⟨hb, hr⟩ := append_inj h (by simpa using hlen')
      exact ⟨hb, ih.mp hr⟩
    · rintro ⟨hb, hr⟩
      have hlen' : l.bytes.length = m.bytes.length := by simpa using congrArg length hb
      exact ⟨by rw [hlen'], by rw [hb, ih.mpr hr]⟩

theorem Name.equal_iff (n m : Name) (h : n.absolute = m.absolute) :
    n.equal m = true ↔ stackOrder n.stack m.stack = .eq := by
  have hfold : n.equal m = true ↔ n.ndata.map tolower = m.ndata.map tolower := by
    simp only [Name.equal, Bool.and_eq_true, beq_iff_eq, lowerequal_iff, and_iff_right_iff_imp, Name.length]
    intro heq
    simpa using congrArg List.length heq
  rw [hfold, Name.ndata, Name.ndata, h, labelsWire_fold_iff, stackOrder_eq_iff, Name.stack, Name.stack, h]
  simp [map_reverse, Function.comp_def]

end OqsBind.Dns
