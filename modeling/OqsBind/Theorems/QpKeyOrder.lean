import OqsBind.Dns.QpKey
import OqsBind.Theorems.NameOrder

/-! Keys embed the canonical order of names. The table gives each folded octet one position, or an escape and
    a position behind it, in the order of the octets; a label ends with `SHIFT_NOBYTE`, which is smaller than
    all of them. -/

namespace OqsBind.Dns.Qp
open Isc List Name

/-- The table in closed form, as the pair of `bit_one` and `bit_two`. -/
def octetBits (byte : Nat) : Nat × Nat :=
  if byte ≤ 44 then (3, byte + 3)
  else if byte ≤ 57 then (byte - 41, 0)
  else if byte ≤ 64 then (17, byte - 55)
  else if byte ≤ 90 then (byte - 45, 0)
  else if byte ≤ 94 then (17, byte - 55)
  else if byte ≤ 122 then (byte - 77, 0)
  else if byte ≤ 168 then (46, byte - 120)
  else if byte ≤ 214 then (47, byte - 166)
  else (48, byte - 212)

theorem table_eq :
    initializeBitsForByte.table = (range 256).map fun b => (octetBits b).2 <<< 8 ||| (octetBits b).1 := by
  decide +kernel

/-- Both positions as one number. Upper case counts as the escaped octets around it do: the source leaves a gap
    of that size in the escaped range. -/
def octetRank (b : Nat) : Nat :=
  if 65 ≤ b ∧ b ≤ 90 then 17 * SHIFT_OFFSET + (b - 55) else (octetBits b).1 * SHIFT_OFFSET + (octetBits b).2

/-- What the table is good for, octet by octet. -/
theorem octetBits_table : ∀ b < 256,
    (SHIFT_NOBYTE < (octetBits b).1 ∧ (octetBits b).1 < SHIFT_OFFSET ∧
      ((octetBits b).2 ≠ 0 → SHIFT_NOBYTE < (octetBits b).2) ∧ (octetBits b).2 < SHIFT_OFFSET) ∧
    octetBits (if 65 ≤ b ∧ b ≤ 90 then b + 32 else b) = octetBits b ∧
    ((octetBits b).2 ≠ 0 ↔ (octetBits b).1 ∈ [3, 17, 46, 47, 48]) ∧ (b < 255 → octetRank b < octetRank (b + 1)) := by
  decide +kernel

theorem bits_eq_octetBits (byte : UInt8) :
    (bitsForByte byte &&& 0xFF, bitsForByte byte >>> 8) = octetBits byte.toNat := by
  have hlt : byte.toNat < 256 := byte.toNat_lt
  have hbits : bitsForByte byte = (octetBits byte.toNat).2 <<< 8 ||| (octetBits byte.toNat).1 := by
    rw [bitsForByte, table_eq, getD_eq_getElem?_getD, getElem?_map, getElem?_range hlt]
    rfl
  have hone : (octetBits byte.toNat).1 < 2 ^ 8 := (octetBits_table byte.toNat hlt).1.2.1.trans (by decide)
  rw [hbits, ← Nat.shiftLeft_add_eq_or_of_lt hone, Nat.and_two_pow_sub_one_eq_mod _ 8]
  refine Prod.ext ?_ ?_ <;> simp only <;> omega

theorem labelBits_cons (byte : UInt8) (ldata : Bytes) :
    labelBits (byte :: ldata) = (octetBits byte.toNat).1 ::
      if (octetBits byte.toNat).2 ≠ 0 then (octetBits byte.toNat).2 :: labelBits ldata else labelBits ldata := by
  rw [labelBits, ← bits_eq_octetBits]
  split_ifs <;> rfl

theorem octetBits_range {b : Nat} (h : b < 256) : SHIFT_NOBYTE < (octetBits b).1 ∧ (octetBits b).1 < SHIFT_OFFSET ∧
    ((octetBits b).2 ≠ 0 → SHIFT_NOBYTE < (octetBits b).2) ∧ (octetBits b).2 < SHIFT_OFFSET := (octetBits_table b h).1

theorem octetBits_tolower (b : UInt8) : octetBits (tolower b).toNat = octetBits b.toNat := by
  rw [tolower_toNat, (octetBits_table b.toNat b.toNat_lt).2.1]

theorem octetBits_escape {b : Nat} (h : b < 256) :
    (octetBits b).2 ≠ 0 ↔ (octetBits b).1 ∈ [3, 17, 46, 47, 48] := (octetBits_table b h).2.2.1

theorem octetRank_lt {a b : Nat} (h : a < b) (hb : b < 256) : octetRank a < octetRank b := by
  induction b with
  | zero => omega
  | succ b ih =>
    have hs := (octetBits_table b (by omega)).2.2.2 (by omega)
    rcases Nat.lt_or_eq_of_le (Nat.lt_succ_iff.mp h) with hlt | rfl
    · exact Nat.lt_trans (ih hlt (by omega)) hs
    · exact hs

/-- A smaller folded octet has a smaller first position, or the same escape and a smaller second position. -/
theorem octetBits_lt {a b : Nat} (h : a < b) (hb : b < 256) (ha : ¬(65 ≤ a ∧ a ≤ 90)) (hb' : ¬(65 ≤ b ∧ b ≤ 90)) :
    (octetBits a).1 < (octetBits b).1 ∨ (octetBits a).1 = (octetBits b).1 ∧ (octetBits a).2 ≠ 0 ∧
      (octetBits b).2 ≠ 0 ∧ (octetBits a).2 < (octetBits b).2 := by
  have hrank := octetRank_lt h hb
  rw [octetRank, octetRank, if_neg ha, if_neg hb'] at hrank
  have hra := (octetBits_range (h.trans hb)).2.2.2
  have hrb := (octetBits_range hb).2.2.2
  have hea := octetBits_escape (h.trans hb)
  have heb := octetBits_escape hb
  unfold SHIFT_OFFSET at hrank hra hrb
  rcases Nat.lt_trichotomy (octetBits a).1 (octetBits b).1 with hlt | heq | hgt
  · exact .inl hlt
  · -- one escape for both: they differ in the second position, and so both have one
    rw [heq] at hrank hea
    have hlt : (octetBits a).2 < (octetBits b).2 := by omega
    have hb2 : (octetBits b).2 ≠ 0 := by omega
    exact .inr ⟨heq, hea.mpr (heb.mp hb2), hb2, hlt⟩
  · omega

theorem tolower_not_upper (c : UInt8) : ¬(65 ≤ (tolower c).toNat ∧ (tolower c).toNat ≤ 90) := by
  rw [tolower_toNat]
  split_ifs <;> omega

/-- The order of two keys: that of the positions at the first offset where they differ. -/
def keyOrder (a b : Key) : Ordering :=
  match qpkeyCompare a b with
  | none => .eq
  | some offset => Ord.compare (qpkeyBit a offset) (qpkeyBit b offset)

theorem qpkeyBit_end {key : Key} {offset : Nat} (h : key.length ≤ offset) : qpkeyBit key offset = SHIFT_NOBYTE := by
  rw [qpkeyBit, getD_eq_getElem?_getD, getElem?_eq_none h, Option.getD_none]

theorem qpkeyCompare_eq_none {a b : Key} : qpkeyCompare a b = none ↔ ∀ offset, qpkeyBit a offset = qpkeyBit b offset := by
  simp only [qpkeyCompare, find?_eq_none, mem_range, bne_iff_ne, not_not]
  refine ⟨fun h offset => ?_, fun h offset _ => h offset⟩
  by_cases hlt : offset < max a.length b.length
  · exact h offset hlt
  · rw [qpkeyBit_end (by omega), qpkeyBit_end (by omega)]

theorem qpkeyCompare_eq_some {a b : Key} {offset : Nat} : qpkeyCompare a b = some offset ↔
    qpkeyBit a offset ≠ qpkeyBit b offset ∧ ∀ j < offset, qpkeyBit a j = qpkeyBit b j := by
  simp only [qpkeyCompare, find?_range_eq_some, bne_iff_ne, mem_range, Bool.not_eq_true', bne_eq_false_iff_eq]
  refine ⟨fun ⟨h, _, hlt⟩ => ⟨h, hlt⟩, fun ⟨h, hlt⟩ => ⟨h, ?_, hlt⟩⟩
  by_contra hge
  apply h
  rw [qpkeyBit_end (by omega), qpkeyBit_end (by omega)]

theorem keyOrder_eq_iff {a b : Key} : keyOrder a b = .eq ↔ qpkeyCompare a b = none := by
  unfold keyOrder
  cases h : qpkeyCompare a b with
  | none => simp
  | some offset =>
    have := (qpkeyCompare_eq_some.mp h).1
    simp [this]

theorem keyOrder_step (a b : Key) : keyOrder a b =
    (Ord.compare (qpkeyBit a 0) (qpkeyBit b 0)).then (keyOrder a.tail b.tail) := by
  have htail : ∀ (k : Key) (j : Nat), qpkeyBit k.tail j = qpkeyBit k (j + 1) := by
    intro k j
    cases k <;> rfl
  by_cases h0 : qpkeyBit a 0 = qpkeyBit b 0
  · rw [h0, Nat.compare_eq_eq.mpr rfl, Ordering.eq_then]
    unfold keyOrder
    cases h : qpkeyCompare a.tail b.tail with
    | none =>
      have hnone : qpkeyCompare a b = none := by
        rw [qpkeyCompare_eq_none] at h ⊢
        intro offset
        cases offset with
        | zero => exact h0
        | succ j => rw [← htail, ← htail, h]
      rw [hnone]
    | some j =>
      have hsome : qpkeyCompare a b = some (j + 1) := by
        rw [qpkeyCompare_eq_some] at h ⊢
        refine ⟨by rw [← htail, ← htail]; exact h.1, fun i hi => ?_⟩
        cases i with
        | zero => exact h0
        | succ i => rw [← htail, ← htail, h.2 i (by omega)]
      rw [hsome]
      simp only [htail]
  · have hsome : qpkeyCompare a b = some 0 := qpkeyCompare_eq_some.mpr ⟨h0, fun _ hj => absurd hj (Nat.not_lt_zero _)⟩
    rw [keyOrder]
    cases hcmp : Ord.compare (qpkeyBit a 0) (qpkeyBit b 0) <;> simp_all

theorem keyOrder_cons (x y : Nat) (a b : Key) :
    keyOrder (x :: a) (y :: b) = (Ord.compare x y).then (keyOrder a b) := keyOrder_step _ _

/-- The order of two labels is decided before their ends, or both end together. -/
theorem keyOrder_label : ∀ (as bs : Bytes) (k1 k2 : Key),
    keyOrder (labelBits as ++ SHIFT_NOBYTE :: k1) (labelBits bs ++ SHIFT_NOBYTE :: k2) =
      (labelOrder as bs).then (keyOrder k1 k2)
  | [], [], k1, k2 => by
    simp only [labelBits, nil_append]
    rw [keyOrder_cons]
    rfl
  | [], b :: bs, k1, k2 => by
    rw [labelBits_cons]
    simp only [labelBits, nil_append, cons_append]
    rw [keyOrder_cons, Nat.compare_eq_lt.mpr (octetBits_range b.toNat_lt).1]
    rfl
  | a :: as, [], k1, k2 => by
    rw [labelBits_cons]
    simp only [labelBits, nil_append, cons_append]
    rw [keyOrder_cons, Nat.compare_eq_gt.mpr (octetBits_range a.toNat_lt).1]
    rfl
  | a :: as, b :: bs, k1, k2 => by
    have ih := keyOrder_label as bs k1 k2
    rw [labelBits_cons, labelBits_cons, labelOrder, ← octetBits_tolower a, ← octetBits_tolower b, cons_append,
      cons_append, keyOrder_cons]
    have ha := tolower_not_upper a
    have hb := tolower_not_upper b
    have ha' := (tolower a).toNat_lt
    have hb' := (tolower b).toNat_lt
    generalize (tolower a).toNat = x at *
    generalize (tolower b).toNat = y at *
    rcases Nat.lt_trichotomy x y with hlt | rfl | hgt
    · rw [Nat.compare_eq_lt.mpr hlt]
      rcases octetBits_lt hlt hb' ha hb with h | ⟨heq, ha2, hb2, h⟩
      · rw [Nat.compare_eq_lt.mpr h]
        rfl
      · rw [heq, Nat.compare_eq_eq.mpr rfl, if_pos ha2, if_pos hb2, cons_append, cons_append, keyOrder_cons,
          Nat.compare_eq_lt.mpr h]
        rfl
    · rw [Nat.compare_eq_eq.mpr rfl, Nat.compare_eq_eq.mpr rfl]
      split_ifs with h2
      · simp [keyOrder_cons, Ordering.eq_then, ih]
      · exact ih
    · rw [Nat.compare_eq_gt.mpr hgt]
      rcases octetBits_lt hgt ha' hb ha with h | ⟨heq, hb2, ha2, h⟩
      · rw [Nat.compare_eq_gt.mpr h]
        rfl
      · rw [heq, Nat.compare_eq_eq.mpr rfl, if_pos ha2, if_pos hb2, cons_append, cons_append, keyOrder_cons,
          Nat.compare_eq_gt.mpr h]
        rfl

/-- The key of a stack of labels. -/
def stackKey (ls : List Bytes) : Key := ls.flatMap fun l => labelBits l ++ [SHIFT_NOBYTE]

theorem stackKey_cons (l : Bytes) (ls : List Bytes) :
    stackKey (l :: ls) = labelBits l ++ SHIFT_NOBYTE :: stackKey ls := by
  simp [stackKey]

theorem fromnameLoop_eq (name : Name) : ∀ {label : Nat}, label ≤ name.nlabels →
    fromnameLoop name label = stackKey (name.stack.drop (name.nlabels - label))
  | 0, _ => by
    rw [Nat.sub_zero, ← name.stack_length, drop_length]
    rfl
  | label + 1, h => by
    have hlab := name.label_eq (i := label) (by omega)
    rw [show name.nlabels - 1 - label = name.nlabels - (label + 1) by omega] at hlab
    obtain ⟨hlt, hget⟩ := List.getElem?_eq_some_iff.mp hlab
    rw [drop_eq_getElem_cons hlt, hget, stackKey_cons, fromnameLoop, fromnameLoop_eq name (by omega)]
    congr 4
    omega

theorem qpkeyFromname_eq (name : Name) : qpkeyFromname name = stackKey name.stack := by
  simp [qpkeyFromname, fromnameLoop_eq name le_rfl]

/-- Keys of stacks of ordinary labels: the end of a key reads as the smallest position. -/
theorem keyOrder_stack : ∀ (as bs : List Bytes), (∀ l ∈ as, l ≠ []) → (∀ l ∈ bs, l ≠ []) →
    keyOrder (stackKey as) (stackKey bs) = stackOrder as bs
  | [], [], _, _ => rfl
  | [], [] :: bs, _, hb => absurd rfl (hb [] mem_cons_self)
  | [] :: as, [], ha, _ => absurd rfl (ha [] mem_cons_self)
  | [], (b :: l) :: bs, _, _ => by
    rw [stackKey_cons, labelBits_cons, keyOrder_step]
    have hlt : Ord.compare (qpkeyBit (stackKey []) 0) (octetBits b.toNat).1 = .lt :=
      Nat.compare_eq_lt.mpr (octetBits_range b.toNat_lt).1
    exact congrArg (fun o => Ordering.then o _) hlt
  | (a :: l) :: as, [], _, _ => by
    rw [stackKey_cons, labelBits_cons, keyOrder_step]
    have hgt : Ord.compare (octetBits a.toNat).1 (qpkeyBit (stackKey []) 0) = .gt :=
      Nat.compare_eq_gt.mpr (octetBits_range a.toNat_lt).1
    exact congrArg (fun o => Ordering.then o _) hgt
  | a :: as, b :: bs, ha, hb => by
    have ih := keyOrder_stack as bs (fun l hl => ha l (mem_cons_of_mem _ hl))
      (fun l hl => hb l (mem_cons_of_mem _ hl))
    rw [stackKey_cons, stackKey_cons, keyOrder_label, ih, stackOrder]

theorem keyOrder_fromname (n m : Name) (h : n.absolute = m.absolute) :
    keyOrder (qpkeyFromname n) (qpkeyFromname m) = stackOrder n.stack m.stack := by
  have hne : ∀ (x : Name), ∀ l ∈ (x.labels.map Label.bytes).reverse, l ≠ [] := by
    intro x l hl
    simp only [mem_reverse, mem_map] at hl
    obtain ⟨lab, _, rfl⟩ := hl
    exact length_pos_iff.mp lab.length_pos
  have hord := keyOrder_stack _ _ (hne n) (hne m)
  rw [qpkeyFromname_eq, qpkeyFromname_eq, stack, stack, h]
  cases m.absolute with
  | false => simpa using hord
  | true =>
    -- both keys start with the separator of the root label
    simp [stackKey_cons, keyOrder_label, hord, stackOrder]

theorem labelBits_length_le : ∀ l : Bytes, (labelBits l).length ≤ 2 * l.length
  | [] => by simp [labelBits]
  | b :: l => by
    have ih := labelBits_length_le l
    rw [labelBits_cons]
    split_ifs <;> simp <;> omega

/-- An octet takes at most two positions and each label has a length octet for its terminator. -/
theorem stackKey_length_le : ∀ ls : List Bytes, (stackKey ls).length ≤ 2 * (ls.map (·.length + 1)).sum
  | [] => by simp [stackKey]
  | l :: ls => by
    have ih := stackKey_length_le ls
    have hl := labelBits_length_le l
    rw [stackKey_cons]
    simp only [length_append, length_cons, map_cons, sum_cons]
    omega

theorem qpkeyFromname_length (name : Name) : (qpkeyFromname name).length < QP_MAXKEY := by
  have hlen := name.length_le_maxwire
  have hkey := stackKey_length_le name.stack
  have hsum : (name.stack.map (·.length + 1)).sum = name.length := by
    have hwire : ∀ ls : List Label, ((ls.map Label.bytes).map (·.length + 1)).sum = (labelsWire ls).length := by
      intro ls
      induction ls with
      | nil => rfl
      | cons l ls ih =>
        rw [map_cons, map_cons, sum_cons, ih, labelsWire_cons, length_append, Label.wire_length]
    rw [name.length_eq, stack, map_reverse, sum_reverse, map_append, sum_append, hwire]
    cases name.absolute <;> rfl
  rw [qpkeyFromname_eq, QP_MAXKEY]
  omega

/-- Keys are equal for the trie iff the names are equal up to case, they compare as the names do, and they
    fit the key array. -/
theorem qpkey_order (n m : Name) (h : n.absolute = m.absolute) :
    keyOrder (qpkeyFromname n) (qpkeyFromname m) = Ord.compare (n.compare m) 0 ∧
      (qpkeyCompare (qpkeyFromname n) (qpkeyFromname m) = none ↔ n.equal m = true) ∧
      (qpkeyFromname n).length < QP_MAXKEY ∧ (qpkeyFromname m).length < QP_MAXKEY := by
  refine ⟨?_, ?_, qpkeyFromname_length n, qpkeyFromname_length m⟩
  · rw [keyOrder_fromname n m h, compare_order]
  · rw [← keyOrder_eq_iff, keyOrder_fromname n m h, equal_iff n m h]

/-- `A.` and `a.` have one key, and it comes before that of `b.` -/
theorem qpkey_order_tld :
    keyOrder (qpkeyFromname (tld 0x41)) (qpkeyFromname (tld 0x62)) =
        Ord.compare ((tld 0x41).compare (tld 0x62)) 0 ∧
      (qpkeyCompare (qpkeyFromname (tld 0x41)) (qpkeyFromname (tld 0x62)) = none ↔
        (tld 0x41).equal (tld 0x62) = true) ∧
      (qpkeyFromname (tld 0x41)).length < QP_MAXKEY ∧ (qpkeyFromname (tld 0x62)).length < QP_MAXKEY :=
  qpkey_order (tld 0x41) (tld 0x62) rfl

end OqsBind.Dns.Qp
