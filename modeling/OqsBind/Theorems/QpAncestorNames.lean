import OqsBind.Dns.NameLabels
import OqsBind.Theorems.QpAncestor

/-! The search for the closest ancestor, on names. The key of a name covers that of another one when the labels of the first
    are the last ones of the second, so the search answers as a walk upwards in the map of names does, but for two cases:
    the name of one label has an empty key when the last label is cut off, and the only absolute name of a trie is taken for
    an ancestor of relative ones. -/

namespace OqsBind.Dns.Qp
open Isc List Qp.Name Entries Option

/-! ### Keys of stacks of labels -/

section
variable {x y : Nat} {a b k : Key}

theorem qpkeyBit_tail (key : Key) (o : Nat) : qpkeyBit key.tail o = qpkeyBit key (o + 1) := by cases key <;> rfl

theorem covers_nil : Covers [] k := fun o ho => absurd ho (Nat.not_lt_zero o)

theorem covers_cons : Covers (x :: a) b ↔ qpkeyBit b 0 = x ∧ Covers a b.tail := by
  constructor
  · intro h
    refine ⟨(h 0 (Nat.succ_pos _)).symm, fun o ho => ?_⟩
    rw [qpkeyBit_tail]
    exact h (o + 1) (Nat.succ_lt_succ ho)
  · rintro ⟨h0, h⟩ o ho
    cases o with
    | zero => exact h0.symm
    | succ o => exact (h o (Nat.lt_of_succ_lt_succ ho)).trans (qpkeyBit_tail b o)

theorem covers_cons_cons : Covers (x :: a) (y :: b) ↔ x = y ∧ Covers a b := by
  rw [covers_cons]
  exact and_congr_left fun _ => eq_comm

theorem Covers.sameKey (h : Covers a b) (hlen : b.length ≤ a.length) : SameKey a b := by
  intro o
  rcases Nat.lt_or_ge o a.length with hlt | hge
  · exact h o hlt
  · rw [qpkeyBit_end hge, qpkeyBit_end (hlen.trans hge)]

theorem Sealed.cons (h : Sealed k) (hx : x ≠ SHIFT_NOBYTE) : Sealed (x :: k) := by
  intro o h0 h1
  cases o with
  | zero => exact absurd h0 hx
  | succ o => exact Nat.succ_le_succ (h o h0 h1)

end

theorem octetBits_ne {a b : UInt8} (h : tolower a ≠ tolower b) :
    (octetBits a.toNat).1 ≠ (octetBits b.toNat).1 ∨
      (octetBits a.toNat).2 ≠ 0 ∧ (octetBits b.toNat).2 ≠ 0 ∧ (octetBits a.toNat).2 ≠ (octetBits b.toNat).2 := by
  rw [← octetBits_tolower a, ← octetBits_tolower b]
  have ha := tolower_not_upper a
  have hb := tolower_not_upper b
  rcases Nat.lt_or_gt_of_ne fun heq => h (UInt8.toNat_inj.mp heq) with hlt | hgt
  · rcases octetBits_lt hlt (tolower b).toNat_lt ha hb with h1 | ⟨-, ha2, hb2, h2⟩
    · exact .inl h1.ne
    · exact .inr ⟨ha2, hb2, h2.ne⟩
  · rcases octetBits_lt hgt (tolower a).toNat_lt hb ha with h1 | ⟨-, hb2, ha2, h2⟩
    · exact .inl h1.ne'
    · exact .inr ⟨ha2, hb2, h2.ne'⟩

theorem covers_label : ∀ (as bs : Bytes) (k1 k2 : Key),
    Covers (labelBits as ++ SHIFT_NOBYTE :: k1) (labelBits bs ++ SHIFT_NOBYTE :: k2) ↔
      as.map tolower = bs.map tolower ∧ Covers k1 k2
  | [], [], k1, k2 => by
    simp [labelBits, covers_cons_cons]
  | [], b :: bs, k1, k2 => by
    rw [labelBits_cons, labelBits, nil_append, cons_append, covers_cons_cons]
    exact iff_of_false (fun h => (octetBits_range b.toNat_lt).1.ne h.1) fun h => absurd h.1 (by simp)
  | a :: as, [], k1, k2 => by
    rw [labelBits_cons, labelBits, nil_append, cons_append, covers_cons_cons]
    exact iff_of_false (fun h => (octetBits_range a.toNat_lt).1.ne' h.1) fun h => absurd h.1 (by simp)
  | a :: as, b :: bs, k1, k2 => by
    have ih := covers_label as bs k1 k2
    rw [labelBits_cons, labelBits_cons, cons_append, cons_append, covers_cons_cons, map_cons, map_cons,
      cons.injEq, and_assoc]
    by_cases h : tolower a = tolower b
    · have hbits : octetBits a.toNat = octetBits b.toNat := by rw [← octetBits_tolower a, h, octetBits_tolower]
      rw [hbits, eq_self, true_and, and_iff_right h]
      split_ifs
      · simp [covers_cons_cons, ih]
      · exact ih
    · refine iff_of_false (fun hcov => ?_) fun hand => h hand.1
      rcases octetBits_ne h with h1 | ⟨ha2, hb2, h2⟩
      · exact h1 hcov.1
      · have hrest := hcov.2
        rw [if_pos ha2, if_pos hb2, cons_append, cons_append, covers_cons_cons] at hrest
        exact h2 hrest.1

theorem labelBits_ne (l : Bytes) : ∀ x ∈ labelBits l, x ≠ SHIFT_NOBYTE := by
  induction l with
  | nil => exact fun x hx => absurd hx not_mem_nil
  | cons b l ih =>
    intro x hx
    obtain ⟨h1, -, h2, -⟩ := octetBits_range b.toNat_lt
    rw [labelBits_cons] at hx
    rcases mem_cons.mp hx with rfl | hx
    · exact h1.ne'
    · split_ifs at hx with h0
      · rcases mem_cons.mp hx with rfl | hx
        · exact (h2 h0).ne'
        · exact ih x hx
      · exact ih x hx

theorem labelBits_ne_nil {l : Bytes} (h : l ≠ []) : ∃ x xs, labelBits l = x :: xs ∧ x ≠ SHIFT_NOBYTE := by
  obtain ⟨b, l, rfl⟩ := exists_cons_of_ne_nil h
  exact ⟨_, _, labelBits_cons b l, (octetBits_range b.toNat_lt).1.ne'⟩

theorem covers_stack : ∀ {as : List Bytes} (bs : List Bytes), (∀ l ∈ as, l ≠ []) →
    (Covers (stackKey as) (stackKey bs) ↔ as.map (·.map tolower) <+: bs.map (·.map tolower))
  | [], _, _ => iff_of_true covers_nil nil_prefix
  | a :: as, [], ha => by
    obtain ⟨x, xs, hx, hne⟩ := labelBits_ne_nil (ha a (.head _))
    rw [stackKey_cons, hx, cons_append, covers_cons]
    exact iff_of_false (fun h => hne h.1.symm) fun h => nomatch h
  | a :: as, b :: bs, ha => by
    simp [stackKey_cons, covers_label, covers_stack bs fun l hl => ha l (.tail _ hl)]

theorem Sealed.label {k : Key} (h : Sealed (SHIFT_NOBYTE :: k)) (l : Bytes) : Sealed (labelBits l ++ SHIFT_NOBYTE :: k) := by
  have hall : ∀ xs : List Nat, (∀ x ∈ xs, x ≠ SHIFT_NOBYTE) → Sealed (xs ++ SHIFT_NOBYTE :: k) := by
    intro xs hxs
    induction xs with
    | nil => exact h
    | cons x xs ih => exact (ih fun y hy => hxs y (.tail _ hy)).cons (hxs x (.head _))
  exact hall _ (labelBits_ne l)

theorem sealed_stack : ∀ {as : List Bytes}, (∀ l ∈ as, l ≠ []) → Sealed (SHIFT_NOBYTE :: stackKey as)
  | [], _ => fun o _ _ => Nat.le_add_left 1 o
  | a :: as, ha => by
    have hrest := (sealed_stack fun l hl => ha l (.tail _ hl)).label a
    obtain ⟨x, xs, hx, hne⟩ := labelBits_ne_nil (ha a (.head _))
    rw [stackKey_cons]
    intro o h0 h1
    cases o with
    | zero =>
      rw [hx] at h1
      exact absurd h1 hne
    | succ o => exact Nat.succ_le_succ (hrest o h0 h1)

theorem stackKey_concat (ls : List Bytes) (l : Bytes) :
    stackKey (ls ++ [l]) = stackKey ls ++ labelBits l ++ [SHIFT_NOBYTE] := by simp [stackKey]

theorem stackKey_last {ls : List Bytes} (h : ls ≠ []) :
    ∃ k, (stackKey ls).length = k + 1 ∧ qpkeyBit (stackKey ls) k = SHIFT_NOBYTE := by
  obtain ⟨init, l, rfl⟩ : ∃ init l, ls = init ++ [l] := ⟨_, _, (dropLast_concat_getLast h).symm⟩
  refine ⟨(stackKey init ++ labelBits l).length, ?_, ?_⟩ <;> rw [stackKey_concat]
  · exact length_append
  · rw [qpkeyBit, getD_eq_getElem?_getD, getElem?_concat_length, getD_some]

theorem countLabels_stack : ∀ ls : List Bytes, countLabels true (stackKey ls) ≤ ls.length
  | [] => Nat.zero_le _
  | l :: ls => by
    have ih := countLabels_stack ls
    have hall : ∀ xs : List Nat, (∀ x ∈ xs, x ≠ SHIFT_NOBYTE) →
        countLabels false (xs ++ SHIFT_NOBYTE :: stackKey ls) = countLabels true (stackKey ls) := by
      intro xs hxs
      induction xs with
      | nil => simp [countLabels]
      | cons x xs ih => simp [countLabels, hxs x (.head _), ih fun y hy => hxs y (.tail _ hy)]
    have hne := labelBits_ne l
    rw [stackKey_cons, length_cons]
    rcases hx : labelBits l with _ | ⟨x, xs⟩
    · simp [countLabels]
      omega
    · rw [hx] at hne
      simp only [cons_append, countLabels, ne_eq, hne x (.head _), not_false_eq_true, and_self, if_true, decide_false,
        hall xs fun y hy => hne y (.tail _ hy)]
      omega

/-! ### Names -/

/-- The name without its first label: the suffix of `dns_name_split`. -/
def parent (n : Name) : Name := n.suffix (n.nlabels - 1)

theorem stack_eq (n : Name) : n.stack = (if n.absolute then [[]] else []) ++ (n.labels.map Label.bytes).reverse := by
  rw [Name.stack, reverse_append]
  cases n.absolute <;> rfl

theorem label_ne_nil (n : Name) : ∀ l ∈ (n.labels.map Label.bytes).reverse, l ≠ [] := by
  intro l hl
  obtain ⟨label, -, rfl⟩ := mem_map.mp (mem_reverse.mp hl)
  exact length_pos_iff.mp label.length_pos

theorem stack_cons (n : TrieName) : ∃ a as, n.val.stack = a :: as ∧ (∀ l ∈ as, l ≠ []) ∧ (a = [] ↔ n.val.absolute = true) := by
  have hne := label_ne_nil n.val
  have hlen := n.val.stack_length
  rw [stack_eq] at hlen ⊢
  cases habs : n.val.absolute with
  | true => exact ⟨[], _, rfl, hne, iff_of_true rfl rfl⟩
  | false =>
    rw [habs] at hlen
    simp only [Bool.false_eq_true, if_false, nil_append] at hlen ⊢
    obtain ⟨a, as, has⟩ := exists_cons_of_length_pos (hlen ▸ n.property)
    rw [has] at hne ⊢
    exact ⟨a, as, rfl, fun l hl => hne l (.tail _ hl), fun h => absurd h (hne a (.head _)), fun h => nomatch h⟩

theorem nameKey_fromname (n : TrieName) : NameKey (qpkeyFromname n.val) := by
  obtain ⟨a, as, hstack, has, -⟩ := stack_cons n
  rw [qpkeyFromname_eq, hstack]
  refine ⟨stackKey_last (cons_ne_nil a as), ?_⟩
  rw [stackKey_cons]
  exact (sealed_stack has).label a

theorem countLabels_fromname (n : Name) : countLabels true (qpkeyFromname n) ≤ NAME_MAXLABELS := by
  have hcount := countLabels_stack n.stack
  rw [n.stack_length] at hcount
  rw [qpkeyFromname_eq]
  exact hcount.trans n.nlabels_le

/-- The name is the other one, or above it. -/
def Encloses (i j : FoldedName) : Prop := i.1 = j.1 ∧ i.2 <:+ j.2

theorem fold_stack (n : Name) : n.stack.map (·.map tolower) =
    (if (fold n).1 then [[]] else []) ++ (fold n).2.reverse := by
  rw [stack_eq, fold]
  cases n.absolute <;> simp [Function.comp_def]

theorem covers_fromname (n q : TrieName) :
    Covers (qpkeyFromname n.val) (qpkeyFromname q.val) ↔ Encloses (fold n.val) (fold q.val) := by
  obtain ⟨a, as, hn, has, ha⟩ := stack_cons n
  obtain ⟨b, bs, hq, -, hb⟩ := stack_cons q
  rw [qpkeyFromname_eq, qpkeyFromname_eq, hn, hq, stackKey_cons, stackKey_cons, covers_label, covers_stack bs has]
  by_cases habs : (fold n.val).1 = (fold q.val).1
  · have hstart : (if (fold q.val).1 then [[]] else []) ++ (fold n.val).2.reverse <+:
        (if (fold q.val).1 then [[]] else []) ++ (fold q.val).2.reverse ↔
        (fold n.val).2.reverse <+: (fold q.val).2.reverse := prefix_append_right_inj _
    rw [← fold_stack, ← habs, ← fold_stack, hn, hq, map_cons, map_cons, cons_prefix_cons,
      reverse_prefix] at hstart
    rw [hstart]
    exact (and_iff_right habs).symm
  · refine iff_of_false (fun h => habs ?_) fun h => habs h.1
    have hnil : a = [] ↔ b = [] := by rw [← map_eq_nil_iff (f := tolower), h.1, map_eq_nil_iff]
    exact Bool.eq_iff_iff.mpr (ha.symm.trans (hnil.trans hb))

theorem covers_empty (n : TrieName) : Covers (qpkeyFromname n.val) [] ↔ fold n.val = (true, []) := by
  obtain ⟨a, as, hn, has, ha⟩ := stack_cons n
  have hstack := fold_stack n.val
  rw [qpkeyFromname_eq, hn, stackKey_cons, Prod.ext_iff]
  rw [hn] at hstack
  by_cases habs : n.val.absolute = true
  · obtain rfl := ha.mpr habs
    have h1 : (fold n.val).1 = true := habs
    rw [h1, if_pos rfl, map_cons, singleton_append, cons.injEq] at hstack
    rw [labelBits, nil_append, covers_cons, and_iff_right (show qpkeyBit [] 0 = SHIFT_NOBYTE from rfl),
      and_iff_right h1, tail_nil, show ([] : Key) = stackKey [] from rfl, covers_stack [] has, hstack.2, map_nil,
      prefix_nil, reverse_eq_nil_iff]
  · obtain ⟨x, xs, hx, hne⟩ := labelBits_ne_nil fun h => habs (ha.mp h)
    rw [hx, cons_append, covers_cons]
    exact iff_of_false (fun h => hne h.1.symm) fun h => habs h.1

/-! ### The name above -/

theorem qpkeyTrimLabel_eq {key : Key} {m : Nat}
    (hm : ∀ o, m = o + 1 → qpkeyBit key o = SHIFT_NOBYTE ∧ qpkeyBit key (o + 1) ≠ SHIFT_NOBYTE) :
    ∀ {max : Nat}, m ≤ max → (∀ o, m ≤ o → o < max → qpkeyBit key o = SHIFT_NOBYTE → qpkeyBit key (o + 1) = SHIFT_NOBYTE) →
      qpkeyTrimLabel key max = m
  | 0, hle, _ => (Nat.le_zero.mp hle).symm
  | max + 1, hle, hafter => by
    unfold qpkeyTrimLabel
    rw [range_succ, foldl_append, foldl_cons, foldl_nil]
    rcases Nat.lt_or_eq_of_le hle with hlt | rfl
    · rw [if_neg fun h => h.2 (hafter max (Nat.le_of_lt_succ hlt) (Nat.lt_succ_self _) h.1)]
      exact qpkeyTrimLabel_eq hm (Nat.le_of_lt_succ hlt) fun o ho hlt => hafter o ho (Nat.lt_succ_of_lt hlt)
    · rw [if_pos (hm max rfl)]

theorem trim_stack {init : List Bytes} {l : Bytes} (hl : init ≠ [] → l ≠ []) :
    (stackKey (init ++ [l])).take (qpkeyTrimLabel (stackKey (init ++ [l])) (stackKey (init ++ [l])).length) = stackKey init := by
  have hkey := stackKey_concat init l
  have hlen : (stackKey (init ++ [l])).length = (stackKey init).length + (labelBits l).length + 1 := by
    rw [hkey, length_append, length_append, length_singleton]
  have hinit : ∀ o, o < (stackKey init).length → qpkeyBit (stackKey (init ++ [l])) o = qpkeyBit (stackKey init) o := by
    intro o ho
    rw [qpkeyBit, qpkeyBit, hkey, append_assoc, getD_append _ _ _ _ ho]
  have hlabel : ∀ j, j < (labelBits l).length →
      qpkeyBit (stackKey (init ++ [l])) ((stackKey init).length + j) ≠ SHIFT_NOBYTE := by
    intro j hj
    rw [qpkeyBit, hkey, append_assoc, getD_append_right _ _ _ _ (Nat.le_add_right ..), Nat.add_sub_cancel_left,
      getD_append _ _ _ _ hj, getD_eq_getElem _ _ hj]
    exact labelBits_ne l _ (getElem_mem hj)
  have htrim : qpkeyTrimLabel (stackKey (init ++ [l])) (stackKey (init ++ [l])).length = (stackKey init).length := by
    refine qpkeyTrimLabel_eq (fun o ho => ?_) (by omega) fun o hle hlt hbit => ?_
    · have hne : init ≠ [] := by
        rintro rfl
        cases ho
      obtain ⟨k, hk, hlast⟩ := stackKey_last hne
      obtain rfl : k = o := by omega
      refine ⟨(hinit k (by omega)).trans hlast, ?_⟩
      obtain ⟨x, xs, hx, -⟩ := labelBits_ne_nil (hl hne)
      have hfirst := hlabel 0 (by rw [hx]; exact Nat.succ_pos _)
      rwa [ho] at hfirst
    · refine qpkeyBit_end ?_
      by_contra hge
      refine hlabel (o - (stackKey init).length) (by omega) ?_
      rwa [Nat.add_sub_cancel' hle]
  rw [htrim, hkey, append_assoc, take_left]

theorem parent_labels (n : Name) : (parent n).labels = n.labels.tail := by
  have hle : (n.labels.drop 1).length ≤ n.nlabels - 1 := by
    rw [length_drop, Name.nlabels]
    omega
  rcases Nat.eq_zero_or_pos n.nlabels with h0 | hpos
  · have hnil : n.labels = [] := length_eq_zero_iff.mp (by rw [Name.nlabels] at h0; omega)
    simp [parent, Name.suffix, Name.getlabelsequence, hnil]
  · have h1 : n.nlabels - (n.nlabels - 1) = 1 := by omega
    unfold parent Name.suffix Name.getlabelsequence
    dsimp only
    rw [h1, take_of_length_le hle, drop_one]

theorem parent_absolute (n : TrieName) : (parent n.val).absolute = (decide (1 < n.val.nlabels) && n.val.absolute) := by
  simp [parent, Name.suffix, Name.getlabelsequence]

/-- A name is its first label below the name above it, which is empty if the first label is the root label. -/
theorem stack_parent (n : TrieName) :
    ∃ l, n.val.stack = (parent n.val).stack ++ [l] ∧ ((parent n.val).stack ≠ [] → l ≠ []) := by
  have habs := parent_absolute n
  have hpos := n.property
  rw [stack_eq, stack_eq, parent_labels, habs]
  rw [Name.nlabels] at hpos ⊢
  rcases hlabels : n.val.labels with _ | ⟨l, ls⟩
  · have habs : n.val.absolute = true := by
      by_contra hrel
      rw [hlabels, Bool.eq_false_iff.mpr hrel] at hpos
      exact absurd hpos (by decide)
    rw [habs]
    exact ⟨[], rfl, fun h => absurd rfl h⟩
  · have hroot : (decide (1 < (l :: ls).length + (rootWire n.val.absolute).length) && n.val.absolute) = n.val.absolute := by
      cases n.val.absolute <;> simp [rootWire]
    rw [hroot]
    refine ⟨l.bytes, ?_, fun _ => length_pos_iff.mp l.length_pos⟩
    simp

/-- What is left of a key for `DNS_QPFIND_NOEXACT` is the key of the name above. -/
theorem searchKey_noexact (n : TrieName) : searchKey n.val true = qpkeyFromname (parent n.val) := by
  obtain ⟨l, hstack, hl⟩ := stack_parent n
  simp [searchKey, qpkeyFromname_eq, hstack, trim_stack hl]

theorem parent_nlabels (n : TrieName) : n.val.nlabels = (parent n.val).nlabels + 1 := by
  obtain ⟨l, hstack, -⟩ := stack_parent n
  rw [← n.val.stack_length, hstack, length_append, (parent n.val).stack_length, length_singleton]

theorem fold_parent (n : TrieName) (h : 1 < n.val.nlabels) :
    fold (parent n.val) = (n.val.absolute, (fold n.val).2.tail) := by
  unfold fold
  rw [parent_labels, parent_absolute, decide_eq_true h, Bool.true_and, map_tail]

/-! ### Walking upwards in the map -/

section
variable {α : Type} {table : List Bytes → Option α} {a : α}

theorem nearest_eq (table : List Bytes → Option α) (name : List Bytes) :
    Qp.nearest table name = (table name).or (Qp.above table name) := by
  cases name with
  | nil => exact or_none.symm
  | cons => rfl

theorem nearest_map {β : Type} (f : α → β) : ∀ name : List Bytes,
    Qp.nearest (fun n => (table n).map f) name = (Qp.nearest table name).map f
  | [] => rfl
  | l :: ls => by rw [Qp.nearest, Qp.nearest, nearest_map f ls, map_or]

theorem findAncestor_map {β : Type} (f : α → β) (name : List Bytes) :
    Qp.findAncestor (fun n => (table n).map f) name = (Qp.findAncestor table name).map id (Option.map f) := by
  have habove : Qp.above (fun n => (table n).map f) name = (Qp.above table name).map f := by
    cases name with
    | nil => rfl
    | cons l ls => exact nearest_map f ls
  unfold Qp.findAncestor Qp.findAbove
  rw [habove]
  dsimp only
  cases table name <;> cases Qp.above table name <;> rfl

/-- The search finds what is nearest. -/
theorem findAncestor_snd (table : List Bytes → Option α) (name : List Bytes) :
    (Qp.findAncestor table name).2 = Qp.nearest table name := by
  rw [nearest_eq, Qp.findAncestor, Qp.findAbove]
  cases table name <;> cases Qp.above table name <;> rfl

theorem nearest_eq_none : ∀ {name : List Bytes}, Qp.nearest table name = none ↔ ∀ n, n <:+ name → table n = none
  | [] => by simp [Qp.nearest]
  | l :: ls => by simp [Qp.nearest, nearest_eq_none, suffix_cons_iff, forall_eq_or_imp]

theorem nearest_eq_some : ∀ {name : List Bytes}, Qp.nearest table name = some a ↔
    ∃ n, n <:+ name ∧ table n = some a ∧ ∀ m, m <:+ name → table m ≠ none → m <:+ n
  | [] => by simp [Qp.nearest]
  | l :: ls => by
    rw [Qp.nearest, Option.or_eq_some_iff, nearest_eq_some]
    constructor
    · rintro (h | ⟨hnone, n, hn, ha, hall⟩)
      · exact ⟨l :: ls, suffix_rfl, h, fun _ hm _ => hm⟩
      · refine ⟨n, hn.trans (suffix_cons l ls), ha, fun m hm hsome => ?_⟩
        rcases suffix_cons_iff.mp hm with rfl | hm
        · exact absurd hnone hsome
        · exact hall m hm hsome
    · rintro ⟨n, hn, ha, hall⟩
      rcases suffix_cons_iff.mp hn with rfl | hn
      · exact .inl ha
      · refine .inr ⟨?_, n, hn, ha, fun m hm => hall m (hm.trans (suffix_cons l ls))⟩
        by_contra hsome
        exact absurd ((hall _ suffix_rfl hsome).length_le.trans hn.length_le) (Nat.not_succ_le_self _)

end

namespace Entries

/-- The entries of the absolute or of the relative names, by their labels. -/
def under (e : Entries FoldedName) (absolute : Bool) (ls : List Bytes) : Option Leaf := e.lookup (absolute, ls)

/-- The entry with the most labels among those of a name and the names above it. -/
def nearest (e : Entries FoldedName) (absolute : Bool) : List Bytes → Option Leaf := Qp.nearest (e.under absolute)

/-- What the search is for: the closest name above. -/
def findAbove (e : Entries FoldedName) (i : FoldedName) : FindResult × Option Leaf := Qp.findAbove (e.under i.1) i.2

/-- What the search is for: the name, or else the closest name above. -/
def findAncestor (e : Entries FoldedName) (i : FoldedName) : FindResult × Option Leaf := Qp.findAncestor (e.under i.1) i.2

end Entries

section
variable {nameOf : Leaf → TrieName} {m : Multiset Leaf} {e : Entries FoldedName}

theorem Denotes.lookup_name (hd : Denotes Keying.names nameOf m e) {i : FoldedName} {l : Leaf} :
    e.lookup i = some l ↔ l ∈ m ∧ fold (nameOf l).val = i := hd.lookup i l

theorem Denotes.closest (hd : Denotes Keying.names nameOf m e) (p : TrieName) {A : Leaf}
    (h : Closest (leafKey nameOf) m (qpkeyFromname p.val) A) :
    e.nearest (fold p.val).1 (fold p.val).2 = some A := by
  obtain ⟨habs, hsuffix⟩ := (covers_fromname (nameOf A) p).mp h.covers
  refine nearest_eq_some.mpr ⟨_, hsuffix, hd.lookup_name.mpr ⟨h.mem, Prod.ext habs rfl⟩, fun ms hms hsome => ?_⟩
  obtain ⟨B, hB⟩ := ne_none_iff_exists'.mp hsome
  obtain ⟨hmem, hfold⟩ := hd.lookup_name.mp hB
  rcases suffix_or_suffix_of_suffix hms hsuffix with hle | hge
  · exact hle
  -- a longer one would be covered by it, and have no longer key
  have hBp : Encloses (fold (nameOf B).val) (fold p.val) := by rw [hfold]; exact ⟨rfl, hms⟩
  have hAB : Encloses (fold (nameOf A).val) (fold (nameOf B).val) := by rw [hfold]; exact ⟨habs, hge⟩
  have hlen := h.longest B hmem ((covers_fromname (nameOf B) p).mpr hBp)
  have hsame := (sameKey_iff _ _).mp (((covers_fromname (nameOf A) (nameOf B)).mpr hAB).sameKey hlen)
  rw [hsame, hfold]

theorem Denotes.nearest_eq_none (hd : Denotes Keying.names nameOf m e) (p : TrieName) :
    e.nearest (fold p.val).1 (fold p.val).2 = none ↔
      ∀ B ∈ m, ¬ Covers (leafKey nameOf B) (qpkeyFromname p.val) := by
  refine Qp.nearest_eq_none.trans ⟨?_, ?_⟩
  · intro h B hB hcov
    obtain ⟨habs, hsuffix⟩ := (covers_fromname (nameOf B) p).mp hcov
    have hsome : e.under (fold p.val).1 (fold (nameOf B).val).2 = some B :=
      hd.lookup_name.mpr ⟨hB, Prod.ext habs rfl⟩
    rw [h _ hsuffix] at hsome
    cases hsome
  · intro h ms hms
    by_contra hsome
    obtain ⟨B, hB⟩ := ne_none_iff_exists'.mp hsome
    obtain ⟨hmem, hfold⟩ := hd.lookup_name.mp hB
    refine h B hmem ((covers_fromname (nameOf B) p).mpr ?_)
    rw [hfold]
    exact ⟨rfl, hms⟩

/-! ### The answers -/

/-- The leaf is stored, under its name. -/
def Entries.Holds (nameOf : Leaf → TrieName) (e : Entries FoldedName) (l : Leaf) : Prop :=
  e.lookup (fold (nameOf l).val) = some l

/-- The search for a relative name takes an absolute one for its ancestor: there is no entry at the name or above it, one
    absolute name is there and no other, and the search comes near a name whose key begins as that of the name does. -/
structure Mistaken (nameOf : Leaf → TrieName) (e : Entries FoldedName) (p : Name) : Prop where
  nonempty : 0 < p.nlabels
  relative : p.absolute = false
  orphan : e.nearest false (fold p).2 = none
  lone : ∃! i, i ∈ e ∧ i.1 = true
  near : ∃ l, e.Holds nameOf l ∧ qpkeyBit (leafKey nameOf l) 0 = qpkeyBit (qpkeyFromname p) 0 ∧
    Near (leafKey nameOf) (e.Holds nameOf) (qpkeyFromname p) l

theorem Denotes.holds_eq (hd : Denotes Keying.names nameOf m e) : e.Holds nameOf = (· ∈ m) :=
  funext fun _ => propext (hd.lookup_name.trans (and_iff_left rfl))

theorem Denotes.stray (hd : Denotes Keying.names nameOf m e) (p : TrieName)
    (hnearest : e.nearest (fold p.val).1 (fold p.val).2 = none) :
    (∃ y, Stray (leafKey nameOf) (· ∈ m) (qpkeyFromname p.val) y) ↔ Mistaken nameOf e p.val := by
  have hbegins : qpkeyBit (qpkeyFromname p.val) 0 ≠ SHIFT_NOBYTE ↔ p.val.absolute = false := by
    rw [Ne, qpkeyBit_zero, Bool.not_eq_true]
  constructor
  · rintro ⟨y, hb, hmem, honly, hfound⟩
    have hrel := hbegins.mp hb
    refine ⟨p.property, hrel, hrel ▸ hnearest, ⟨fold (nameOf y).val, ⟨?_, ?_⟩, ?_⟩, by rwa [hd.holds_eq]⟩
    · exact Finmap.mem_iff.mpr ⟨y, hd.lookup_name.mpr ⟨hmem, rfl⟩⟩
    · exact (qpkeyBit_zero (nameOf y)).mp ((honly y hmem).mpr rfl)
    · rintro i ⟨hi, habs⟩
      obtain ⟨z, hz⟩ := Finmap.mem_iff.mp hi
      obtain ⟨hzm, rfl⟩ := hd.lookup_name.mp hz
      rw [(honly z hzm).mp ((qpkeyBit_zero (nameOf z)).mpr habs)]
  · rintro ⟨-, hrel, -, ⟨i, ⟨hi, habs⟩, hunique⟩, hfound⟩
    obtain ⟨y, hy⟩ := Finmap.mem_iff.mp hi
    obtain ⟨hym, rfl⟩ := hd.lookup_name.mp hy
    rw [hd.holds_eq] at hfound
    refine ⟨y, hbegins.mpr hrel, hym, fun z hz => ⟨fun h0 => ?_, ?_⟩, hfound⟩
    · have hlookup : e.lookup (fold (nameOf z).val) = some z := hd.lookup_name.mpr ⟨hz, rfl⟩
      rw [hunique _ ⟨Finmap.mem_iff.mpr ⟨z, hlookup⟩, (qpkeyBit_zero (nameOf z)).mp h0⟩, hy] at hlookup
      exact (some.inj hlookup).symm
    · rintro rfl
      exact (qpkeyBit_zero (nameOf z)).mpr habs

theorem Mistaken.nearest {p : Name} (h : Mistaken nameOf e p) : e.nearest (fold p).1 (fold p).2 = none := by
  rw [show (fold p).1 = false from h.relative]
  exact h.orphan

variable {v : Nat → Node} {root : Option Nat} {F : Multiset Nat}

/-- A search by a key: the leaf with the longest key that covers it, or none, or a leaf noted by mistake. -/
theorem Shows.search (h : Shows Keying.names nameOf v root F e) {name : Name} {noexact : Bool} {search : Key}
    (hsearch : searchKey name noexact = search) (hk : KeyOk search) (hcount : countLabels true search ≤ NAME_MAXLABELS)
    (hsealed : Sealed search) :
    ∃ m r, Denotes Keying.names nameOf m e ∧
      findnameAncestor (leafKey nameOf) v root name noexact = .ok (resultOf noexact r) ∧
      ((∃ A, Closest (leafKey nameOf) m search A ∧ r = some ((qpkeyCompare search (leafKey nameOf A)).isNone, A)) ∨
        (∀ B ∈ m, ¬ Covers (leafKey nameOf B) search) ∧
          ∀ r', r = some r' ↔ ∃ y, r' = (false, y) ∧ Stray (leafKey nameOf) (· ∈ m) search y) := by
  obtain ⟨o, hs, hwf, hd⟩ := h
  cases o with
  | none =>
    obtain ⟨rfl, -⟩ := hs
    refine ⟨0, none, hd, rfl, .inr ⟨fun B hB => absurd hB (Multiset.notMem_zero B), fun r' => ?_⟩⟩
    exact iff_of_false (fun h => nomatch h) fun ⟨y, _, hy⟩ => absurd hy.mem (Multiset.notMem_zero y)
  | some t =>
    obtain ⟨root, rfl, hrep⟩ := hs
    have hwf : t.WF (leafKey nameOf) 0 := hwf t rfl
    have hkeys : ∀ z, NameKey (leafKey nameOf z) := fun z => nameKey_fromname (nameOf z)
    subst hsearch
    obtain ⟨x, L, hdown, hrun⟩ := findnameAncestor_spec name noexact hk hcount hrep hwf
    refine ⟨t.leaves, _, hd, hrun, ?_⟩
    by_cases hex : ∃ B ∈ t.leaves, Covers (leafKey nameOf B) (searchKey name noexact)
    · exact .inl (hdown.closest hkeys hsealed hwf hex)
    · have hnone : ∀ B ∈ t.leaves, ¬ Covers (leafKey nameOf B) (searchKey name noexact) := fun B hB hcov => hex ⟨B, hB, hcov⟩
      exact .inr ⟨hnone, hdown.unrelated hkeys hsealed hwf hnone⟩

/-- What a search by the key of a name answers: the nearest entry if there is one, and whether it is that of the name. -/
inductive Answers (nameOf : Leaf → TrieName) (e : Entries FoldedName) (p : TrieName) : Option (Bool × Leaf) → Prop
  | found (A : Leaf) (exact : Bool) (hA : e.nearest (fold p.val).1 (fold p.val).2 = some A)
      (hencloses : Encloses (fold (nameOf A).val) (fold p.val))
      (hexact : exact = true ↔ e.lookup (fold p.val) = some A) : Answers nameOf e p (some (exact, A))
  | nothing (hnone : e.nearest (fold p.val).1 (fold p.val).2 = none) (h : ¬ Mistaken nameOf e p.val) :
      Answers nameOf e p none
  | mistaken (y : Leaf) (hy : (nameOf y).val.absolute = true) (h : Mistaken nameOf e p.val) :
      Answers nameOf e p (some (false, y))

section
variable (h : Shows Keying.names nameOf v root F e)
include h

theorem Shows.answers {name : Name} {noexact : Bool} (p : TrieName) (hp : searchKey name noexact = qpkeyFromname p.val) :
    ∃ r, findnameAncestor (leafKey nameOf) v root name noexact = .ok (resultOf noexact r) ∧ Answers nameOf e p r := by
  obtain ⟨m, r, hd, hrun, hr⟩ :=
    h.search hp (keyOk_fromname p.val) (countLabels_fromname p.val) (nameKey_fromname p).sealed
  refine ⟨r, hrun, ?_⟩
  rcases hr with ⟨A, hA, rfl⟩ | ⟨hnone, hr⟩
  · refine .found A _ (hd.closest p hA) ((covers_fromname _ _).mp hA.covers) ?_
    rw [isNone_iff_eq_none, qpkeyCompare_eq_none, hd.lookup_name, and_iff_right hA.mem]
    exact (sameKey_iff p (nameOf A)).trans eq_comm
  · have hnearest := (hd.nearest_eq_none p).mpr hnone
    have hstray := hd.stray p hnearest
    rcases r with _ | r
    · refine .nothing hnearest fun hm => ?_
      obtain ⟨y, hy⟩ := hstray.mpr hm
      cases (hr (false, y)).mpr ⟨y, rfl, hy⟩
    · obtain ⟨y, rfl, hy⟩ := (hr r).mp rfl
      exact .mistaken y ((qpkeyBit_zero (nameOf y)).mp ((hy.only y hy.mem).mpr rfl)) (hstray.mp ⟨y, hy⟩)

theorem Shows.answers_empty {name : Name} {noexact : Bool} (hp : searchKey name noexact = []) :
    ∃ r, findnameAncestor (leafKey nameOf) v root name noexact = .ok (resultOf noexact r) ∧
      r.map Prod.snd = e.lookup (true, []) := by
  obtain ⟨m, r, hd, hrun, hr⟩ := h.search hp ⟨fun o => ⟨le_rfl, (by decide : SHIFT_NOBYTE < SHIFT_OFFSET)⟩, by decide⟩
    (Nat.zero_le _) fun o _ _ => Nat.zero_le _
  refine ⟨r, hrun, ?_⟩
  rcases hr with ⟨A, hA, rfl⟩ | ⟨hnone, hr⟩
  · exact (hd.lookup_name.mpr ⟨hA.mem, (covers_empty (nameOf A)).mp hA.covers⟩).symm
  · have hlookup : e.lookup (true, []) = none :=
      (hd.lookup_eq_none _).mpr fun l hl hfold => hnone l hl ((covers_empty (nameOf l)).mpr hfold)
    rcases r with _ | r
    · exact hlookup.symm
    · obtain ⟨y, -, hy⟩ := (hr r).mp rfl
      exact absurd rfl hy.begins

theorem Shows.above_single {q : TrieName} (hq : q.val.nlabels = 1) : above (e.under (fold q.val).1) (fold q.val).2 = none := by
  obtain ⟨o, -, -, hd⟩ := h
  rcases hlabels : q.val.labels with _ | ⟨l, ls⟩
  · unfold fold
    rw [hlabels]
    rfl
  · rw [Name.nlabels, hlabels, length_cons] at hq
    obtain rfl : ls = [] := length_eq_zero_iff.mp (by omega)
    have hrel : q.val.absolute = false := by
      by_contra habs
      rw [Bool.not_eq_false _ |>.mp habs] at hq
      cases hq
    unfold fold
    rw [hlabels, hrel]
    refine (hd.lookup_eq_none _).mpr fun z _ hz => ?_
    have hpos := (nameOf z).property
    rw [Name.nlabels, show (nameOf z).val.absolute = false from congrArg Prod.fst hz,
      map_eq_nil_iff.mp (congrArg Prod.snd hz)] at hpos
    cases hpos

end

end

theorem Entries.above_parent (e : Entries FoldedName) {q : TrieName} (hq : 1 < q.val.nlabels) :
    above (e.under (fold q.val).1) (fold q.val).2 = e.nearest (fold (parent q.val)).1 (fold (parent q.val)).2 := by
  rw [fold_parent q hq]
  rcases hlabels : (fold q.val).2 with _ | ⟨l, ls⟩
  · have hnil : q.val.labels = [] := map_eq_nil_iff.mp hlabels
    have hroot : (rootWire q.val.absolute).length ≤ 1 := by cases q.val.absolute <;> decide
    rw [Name.nlabels, hnil, length_nil] at hq
    omega
  · rw [show fold q.val = (q.val.absolute, l :: ls) from Prod.ext rfl hlabels]
    rfl

/-! ### Searches after calls -/

/-- The trie that calls leave. -/
def trieAfter (nameOf : Leaf → TrieName) (cs : List (Call TrieName)) : Except Fault State := do
  let s ← qpCreate
  let (_, s) ← s.calls (leafKey nameOf) (cs.map nameCall)
  return s

/-- The map that calls leave. -/
def entriesAfter (nameOf : Leaf → TrieName) (cs : List (Call TrieName)) : Entries FoldedName :=
  (calls (fun name => fold name.val) nameOf ∅ cs).2

theorem entriesAfter_append (nameOf : Leaf → TrieName) (cs cs' : List (Call TrieName)) : entriesAfter nameOf (cs ++ cs') =
    (calls (fun name => fold name.val) nameOf (entriesAfter nameOf cs) cs').2 := by
  unfold entriesAfter
  generalize (∅ : Entries FoldedName) = e
  induction cs generalizing e with
  | nil => rfl
  | cons c cs ih => exact ih _

theorem trieAfter_shows (nameOf : Leaf → TrieName) (cs : List (Call TrieName)) : ∃ s F, trieAfter nameOf cs = .ok s ∧
    Shows Keying.names nameOf s.cell s.rootRef F (entriesAfter nameOf cs) := by
  obtain ⟨s0, s, hs0, hs, hstores⟩ := qpCreate_calls Keying.names nameOf cs
  obtain ⟨F, hshows, -⟩ := hstores.shows_
  refine ⟨s, F, ?_, hshows⟩
  have hs : s0.calls (leafKey nameOf) (cs.map nameCall) = .ok (_, s) := hs
  unfold trieAfter
  simp only [hs0, hs, bind, Except.bind, pure, Except.pure]

/-- The search for an absolute name finds it, or else the closest name above it. -/
theorem Shows.findAncestor (h : Shows Keying.names nameOf v root F e) (q : TrieName) (hq : q.val.absolute = true) :
    findnameAncestor (leafKey nameOf) v root q.val false = .ok (e.findAncestor (fold q.val)) := by
  obtain ⟨r, hrun, hr⟩ := h.answers q (show searchKey q.val false = _ from rfl)
  refine hrun.trans (congrArg Except.ok ?_)
  unfold Entries.findAncestor Qp.findAncestor Qp.findAbove
  cases hr with
  | found A exact hA _ hexact =>
    replace hexact : exact = true ↔ e.under (fold q.val).1 (fold q.val).2 = some A := hexact
    rw [Entries.nearest, nearest_eq] at hA
    rcases hl : e.under (fold q.val).1 (fold q.val).2 with _ | l
    · rw [hl, none_or] at hA
      rw [hl] at hexact
      rw [hA, resultOf, if_neg fun h => nomatch hexact.mp h.1]
    · rw [hl] at hA
      rw [resultOf, if_pos ⟨hexact.mpr (hl.trans hA), rfl⟩, some.inj hA]
  | nothing hnone =>
    rw [Entries.nearest, nearest_eq, or_eq_none_iff] at hnone
    rw [hnone.1, hnone.2]
    rfl
  | mistaken y hy hm => exact absurd hm.relative (by rw [hq]; exact Bool.noConfusion)

theorem findname_ancestor_absolute (nameOf : Leaf → TrieName) (cs : List (Call TrieName)) (q : TrieName)
    (hq : q.val.absolute = true) : ∃ s, trieAfter nameOf cs = .ok s ∧
      findnameAncestor (leafKey nameOf) s.cell s.rootRef q.val false =
        .ok ((entriesAfter nameOf cs).findAncestor (fold q.val)) := by
  obtain ⟨s, F, hs, hshows⟩ := trieAfter_shows nameOf cs
  exact ⟨s, hs, hshows.findAncestor q hq⟩

/-- The name `a.` -/
def tldName : TrieName := ⟨Name.tld 0x61, Name.nlabels_tld_pos _⟩

/-- The name of a letter below `a.`. -/
def belowTld (octet : UInt8) : TrieName :=
  ⟨⟨(Name.tld octet).labels ++ tldName.val.labels, true, (by decide : 5 ≤ NAME_MAXWIRE)⟩, Nat.succ_pos _⟩

/-- The root, `a.`, `b.a.` and `b.`, by the number of the leaf. -/
def fourNames (l : Leaf) : TrieName :=
  match l.ival with
  | 0 => ⟨⟨[], true, Name.root_length_le⟩, Nat.one_pos⟩
  | 1 => tldName
  | 2 => belowTld 0x62
  | _ => ⟨Name.tld 0x62, Name.nlabels_tld_pos _⟩

/-- Among four names, `a.` is the closest above `c.a.`. -/
theorem findname_ancestor_absolute_tld : (belowTld 0x63).val.absolute = true ∧
    ∃ s, trieAfter fourNames [.insert ⟨1, 0⟩, .insert ⟨2, 1⟩, .insert ⟨3, 2⟩, .insert ⟨4, 3⟩] = .ok s ∧
      findnameAncestor (leafKey fourNames) s.cell s.rootRef (belowTld 0x63).val false = .ok (.partialmatch, some ⟨2, 1⟩) := by
  obtain ⟨s, hs, hrun⟩ := findname_ancestor_absolute fourNames
    [.insert ⟨1, 0⟩, .insert ⟨2, 1⟩, .insert ⟨3, 2⟩, .insert ⟨4, 3⟩] (belowTld 0x63) rfl
  exact ⟨rfl, s, hs, hrun.trans (congrArg Except.ok (by decide +kernel))⟩

/-- With `DNS_QPFIND_NOEXACT` the closest name above is found, unless the name has one label and the root is there, or an
    absolute name is taken for one above. -/
theorem findname_ancestor_noexact (nameOf : Leaf → TrieName) (cs : List (Call TrieName)) (q : TrieName) :
    ∃ s result, trieAfter nameOf cs = .ok s ∧
      findnameAncestor (leafKey nameOf) s.cell s.rootRef q.val true = .ok result ∧
      (result = (entriesAfter nameOf cs).findAbove (fold q.val) ↔
        ¬ (q.val.nlabels = 1 ∧ (true, []) ∈ entriesAfter nameOf cs) ∧
          ¬ Mistaken nameOf (entriesAfter nameOf cs) (parent q.val)) := by
  obtain ⟨s, F, hs, hshows⟩ := trieAfter_shows nameOf cs
  have hkey := searchKey_noexact q
  have hlabels := parent_nlabels q
  by_cases hone : q.val.nlabels = 1
  · have hzero : (parent q.val).nlabels = 0 := by omega
    have hempty : searchKey q.val true = [] := by
      rw [hkey, qpkeyFromname_eq, length_eq_zero_iff.mp ((parent q.val).stack_length.trans hzero)]
      rfl
    obtain ⟨r, hrun, hr⟩ := hshows.answers_empty hempty
    refine ⟨s, _, hs, hrun, ?_⟩
    have hright : ¬ Mistaken nameOf (entriesAfter nameOf cs) (parent q.val) := fun hm =>
      absurd hm.nonempty (by omega)
    rw [Entries.findAbove, Qp.findAbove, hshows.above_single hone, and_iff_left hright, not_and, Finmap.mem_iff, ← hr]
    rcases r with _ | ⟨exact, A⟩
    · exact iff_of_true rfl fun _ h => nomatch h.choose_spec
    · exact iff_of_false (fun h => nomatch congrArg Prod.snd h) fun h => h hone ⟨A, rfl⟩
  · have hpos : 0 < (parent q.val).nlabels := by
      omega
    obtain ⟨r, hrun, hr⟩ := hshows.answers ⟨parent q.val, hpos⟩ hkey
    refine ⟨s, _, hs, hrun, ?_⟩
    rw [Entries.findAbove, Qp.findAbove, above_parent _ (by omega), and_iff_right fun h => hone h.1]
    cases hr with
    | found A exact hA =>
      rw [show Entries.nearest _ (fold (parent q.val)).1 _ = some A from hA, resultOf, if_neg fun h => nomatch h.2]
      refine iff_of_true rfl fun hm => ?_
      rw [hm.nearest] at hA
      cases hA
    | nothing hnone h =>
      rw [show Entries.nearest _ (fold (parent q.val)).1 _ = none from hnone]
      exact iff_of_true rfl h
    | mistaken y hy hm =>
      rw [hm.nearest]
      exact iff_of_false (fun h => nomatch congrArg Prod.snd h) fun h => h hm

/-- The root name. -/
def rootName : TrieName := ⟨⟨[], true, Name.root_length_le⟩, Nat.one_pos⟩

/-- The root is found above itself. -/
theorem findname_ancestor_noexact_root :
    (do
      let s ← trieAfter (fun _ => rootName) [.insert ⟨1, 0⟩]
      findnameAncestor (leafKey fun _ => rootName) s.cell s.rootRef rootName.val true).toOption =
        some (.partialmatch, some ⟨1, 0⟩) ∧
    (entriesAfter (fun _ => rootName) [.insert ⟨1, 0⟩]).findAbove (fold rootName.val) = (.notfound, none) :=
  ⟨by decide +kernel, rfl⟩

/-- A leaf that is found has a name at or above the one that was searched for, unless an absolute name is taken for one above. -/
theorem findname_ancestor_mixed (nameOf : Leaf → TrieName) (cs : List (Call TrieName)) (q : TrieName) :
    ∃ s result, trieAfter nameOf cs = .ok s ∧
      findnameAncestor (leafKey nameOf) s.cell s.rootRef q.val false = .ok result ∧
      ((result.1 ≠ .notfound → ∃ l, result.2 = some l ∧ Encloses (fold (nameOf l).val) (fold q.val)) ↔
        ¬ Mistaken nameOf (entriesAfter nameOf cs) q.val) := by
  obtain ⟨s, F, hs, hshows⟩ := trieAfter_shows nameOf cs
  obtain ⟨r, hrun, hr⟩ := hshows.answers q (show searchKey q.val false = _ from rfl)
  refine ⟨s, _, hs, hrun, ?_⟩
  cases hr with
  | found A exact hA hencloses =>
    refine iff_of_true (fun _ => ⟨A, rfl, hencloses⟩) fun hm => ?_
    rw [hm.nearest] at hA
    cases hA
  | nothing hnone h => exact iff_of_true (fun hne => absurd rfl hne) h
  | mistaken y hy hm =>
    refine iff_of_false (fun h => ?_) fun h => h hm
    obtain ⟨l, hl, habs, -⟩ := h (fun h => nomatch h)
    cases hl
    exact absurd (habs.symm.trans hy) (Bool.eq_false_iff.mp hm.relative)

/-- The relative names `b` and `bb`. -/
def bName : TrieName := ⟨⟨[⟨[0x62], by decide, by decide⟩], false, by decide⟩, by decide⟩
def bbName : TrieName := ⟨⟨[⟨[0x62, 0x62], by decide, by decide⟩], false, by decide⟩, by decide⟩

/-- In a trie of `a.` and `b`, the leaf of `a.` is found for `bb`. -/
theorem findname_ancestor_mixed_bb :
    (do
      let s ← trieAfter (fun l => if l.ival = 0 then tldName else bName) [.insert ⟨1, 0⟩, .insert ⟨2, 1⟩]
      findnameAncestor (leafKey fun l => if l.ival = 0 then tldName else bName) s.cell s.rootRef bbName.val false).toOption =
        some (.partialmatch, some ⟨1, 0⟩) ∧
    ¬ Encloses (Name.fold tldName.val) (Name.fold bbName.val) :=
  ⟨by decide +kernel, fun h => nomatch h.1⟩

end OqsBind.Dns.Qp
