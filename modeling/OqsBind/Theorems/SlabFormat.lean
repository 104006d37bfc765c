import OqsBind.Dns.Rdataslab
import Mathlib.Data.List.Range

/-! The slab format: what is written is a header, the count, the offset table and the records, and it is read back. -/

namespace OqsBind.Dns.Slab
open Isc List Function

section
variable {f : Format}

/-- A record, with its order in the fixed format. -/
def record (f : Format) (order : Nat) (part : Bytes) : Bytes :=
  be16 part.length ++ (if f.fixed then be16 order else []) ++ part

def recordLength (f : Format) (part : Bytes) : Nat := 2 + (if f.fixed then 2 else 0) + part.length

/-- The records, for pairs of an order and the octets after it. -/
def records (f : Format) (items : List (Nat × Bytes)) : Bytes := items.flatMap fun i => record f i.1 i.2

def layout (f : Format) (header : Bytes) (table : List Nat) (items : List (Nat × Bytes)) : Bytes :=
  header ++ be16 items.length ++ (if f.fixed then table.flatMap be32 else []) ++ records f items

/-- The position of the record with the given order, when the records start at `pos`. -/
def offsetAt (f : Format) (pos : Nat) : List (Nat × Bytes) → Nat → Nat
  | [], _ => 0
  | i :: items, order => if i.1 = order then pos else offsetAt f (pos + recordLength f i.2) items order

@[simp] theorem length_record (order : Nat) (part : Bytes) : (record f order part).length = recordLength f part := by
  unfold record recordLength
  split <;> simp only [length_append, length_be16, length_nil]

@[simp] theorem length_flatMap_be32 (table : List Nat) : (table.flatMap be32).length = 4 * table.length := by
  simp [length_flatMap, Nat.mul_comm]

@[simp] theorem records_nil : records f [] = [] := rfl

@[simp] theorem records_cons (i : Nat × Bytes) (items : List (Nat × Bytes)) :
    records f (i :: items) = record f i.1 i.2 ++ records f items := rfl

@[simp] theorem records_append (a b : List (Nat × Bytes)) : records f (a ++ b) = records f a ++ records f b :=
  flatMap_append

theorem length_records (items : List (Nat × Bytes)) :
    (records f items).length = (items.map fun i => recordLength f i.2).sum := by
  simp [records, length_flatMap]

theorem length_records_map (g : Nat → Nat) (items : List (Nat × Bytes)) :
    (records f (items.map fun i => (g i.1, i.2))).length = (records f items).length := by
  simp [length_records, comp_def]

variable {items : List (Nat × Bytes)} {order : Nat}

theorem offsetAt_of_notMem (h : order ∉ items.map Prod.fst) (pos : Nat) : offsetAt f pos items order = 0 := by
  induction items generalizing pos with
  | nil => rfl
  | cons i items ih =>
    simp only [map_cons, mem_cons, not_or] at h
    rw [offsetAt, if_neg (Ne.symm h.1), ih h.2]

theorem offsetAt_split (h : order ∈ items.map Prod.fst) (pos : Nat) :
    ∃ a part b, items = a ++ (order, part) :: b ∧ offsetAt f pos items order = pos + (records f a).length := by
  induction items generalizing pos with
  | nil => cases h
  | cons i items ih =>
    by_cases hi : i.1 = order
    · subst hi
      exact ⟨[], i.2, items, rfl, by simp [offsetAt]⟩
    · have hmem : order ∈ items.map Prod.fst := by
        rcases mem_cons.mp h with h | h
        · exact absurd h.symm hi
        · exact h
      obtain ⟨a, part, b, rfl, heq⟩ := ih hmem (pos + recordLength f i.2)
      refine ⟨i :: a, part, b, rfl, ?_⟩
      rw [offsetAt, if_neg hi, heq, records_cons, length_append, length_record, Nat.add_assoc]

theorem offsetAt_map {g : Nat → Nat} (hg : ∀ k ∈ items.map Prod.fst, g k = g order → k = order) (pos : Nat) :
    offsetAt f pos (items.map fun i => (g i.1, i.2)) (g order) = offsetAt f pos items order := by
  induction items generalizing pos with
  | nil => rfl
  | cons i items ih =>
    simp only [map_cons, mem_cons, forall_eq_or_imp] at hg
    simp only [map_cons, offsetAt, ih hg.2]
    by_cases hi : i.1 = order
    · simp [hi]
    · rw [if_neg hi, if_neg (fun h => hi (hg.1 h))]

theorem setBytes_table (hf : f.fixed) (header : Bytes) (a : List Nat) (t : Nat) (b : List Nat) (x : Nat)
    (items : List (Nat × Bytes)) :
    setBytes (layout f header (a ++ t :: b) items) (header.length + (a.length * 4 + 2)) (be32 x) =
      layout f header (a ++ x :: b) items := by
  have key := setBytes_append (a := header ++ be16 items.length ++ a.flatMap be32) (b := be32 t) (d := be32 x)
    (b.flatMap be32 ++ records f items) rfl
  have hpos : (header ++ be16 items.length ++ a.flatMap be32).length = header.length + (a.length * 4 + 2) := by
    simp
    omega
  rw [hpos] at key
  simpa [layout, hf] using key

theorem setBytes_order (hf : f.fixed) (header : Bytes) (table : List Nat) (a b : List (Nat × Bytes)) (o x : Nat)
    (part : Bytes) (n : Nat) (hn : n = table.length) :
    setBytes (layout f header table (a ++ (o, part) :: b)) (header.length + (2 + 4 * n + (records f a).length) + 2)
      (be16 x) = layout f header table (a ++ (x, part) :: b) := by
  have key := setBytes_append
    (a := header ++ be16 (a ++ (o, part) :: b).length ++ table.flatMap be32 ++ records f a ++ be16 part.length)
    (b := be16 o) (d := be16 x) (part ++ records f b) rfl
  have hpos : (header ++ be16 (a ++ (o, part) :: b).length ++ table.flatMap be32 ++ records f a ++
      be16 part.length).length = header.length + (2 + 4 * n + (records f a).length) + 2 := by
    simp
    omega
  rw [hpos] at key
  simpa [layout, record, hf] using key

/-- The orders that are filled in: the numbers from `j` on, for the keys of a list. -/
def assign : List Nat → Nat → (Nat → Nat) → Nat → Nat
  | [], _, g => g
  | k :: ks, j, g => assign ks (j + 1) (update g k j)

theorem assign_of_notMem {ks : List Nat} {k : Nat} (h : k ∉ ks) (j : Nat) (g : Nat → Nat) : assign ks j g k = g k := by
  induction ks generalizing j g with
  | nil => rfl
  | cons k' ks ih =>
    simp only [mem_cons, not_or] at h
    rw [assign, ih h.2, update_of_ne h.1]

theorem assign_of_mem {ks : List Nat} (hnd : ks.Nodup) {k : Nat} (h : k ∈ ks) (j : Nat) (g : Nat → Nat) :
    assign ks j g k = j + ks.idxOf k := by
  induction ks generalizing j g with
  | nil => cases h
  | cons k' ks ih =>
    obtain ⟨hk', hnd⟩ := nodup_cons.mp hnd
    by_cases hk : k = k'
    · subst hk
      simp [assign, assign_of_notMem hk']
    · have hmem : k ∈ ks := by simpa [hk] using h
      rw [assign, ih hnd hmem, idxOf_cons_ne _ (Ne.symm hk)]
      omega

/-- The loop over a part of the temporary table: of its keys, those of records get the next places. -/
theorem fillinLoop_layout (hf : f.fixed) (header : Bytes)
    (hnd : (items.map Prod.fst).Nodup) (l : List Nat) (g : Nat → Nat) (t z : List Nat) {pos : Nat}
    (hpos : pos = 2 + 4 * (t ++ z).length) (hz : z.length = (l.filter (· ∈ items.map Prod.fst)).length) :
    fillinLoop header.length (l.map (offsetAt f pos items)) t.length
        (layout f header (t ++ z) (items.map fun i => (g i.1, i.2))) =
      layout f header (t ++ (l.filter (· ∈ items.map Prod.fst)).map (offsetAt f pos items))
        (items.map fun i => (assign (l.filter (· ∈ items.map Prod.fst)) t.length g i.1, i.2)) := by
  induction l generalizing g t z with
  | nil =>
    obtain rfl : z = [] := eq_nil_of_length_eq_zero (by simpa using hz)
    rfl
  | cons k l ih =>
    by_cases hk : k ∈ items.map Prod.fst
    · rw [filter_cons_of_pos (by simpa using hk)] at hz ⊢
      obtain ⟨t', z, rfl⟩ : ∃ t' z', z = t' :: z' := exists_cons_of_length_eq_add_one hz
      obtain ⟨a, part, b, hitems, hoff⟩ := offsetAt_split (f := f) hk pos
      have hne : offsetAt f pos items k ≠ 0 := by omega
      -- the order of this record is the only one that changes
      have hupd : (items.map fun i => (update g k t.length i.1, i.2)) =
          a.map (fun i => (g i.1, i.2)) ++ (t.length, part) :: b.map fun i => (g i.1, i.2) := by
        have hnd' := hnd
        simp only [hitems, map_append, map_cons, nodup_middle, nodup_cons, mem_append,
          not_or] at hnd'
        obtain ⟨⟨ha, hb⟩, -⟩ := hnd'
        simp only [hitems, map_append, map_cons, update_self]
        congr 1
        · refine map_congr_left fun i hi => ?_
          have hne : i.1 ≠ k := fun h => ha (h ▸ mem_map_of_mem hi)
          rw [update_of_ne hne]
        · refine congrArg _ (map_congr_left fun i hi => ?_)
          have hne : i.1 ≠ k := fun h => hb (h ▸ mem_map_of_mem hi)
          rw [update_of_ne hne]
      have hlay : (items.map fun i => (g i.1, i.2)) =
          a.map (fun i => (g i.1, i.2)) ++ (g k, part) :: b.map fun i => (g i.1, i.2) := by simp [hitems]
      have hlen : (t ++ offsetAt f pos items k :: z).length = (t ++ t' :: z).length := by simp
      have horder := setBytes_order hf header (t ++ offsetAt f pos items k :: z) (a.map fun i => (g i.1, i.2))
        (b.map fun i => (g i.1, i.2)) (g k) t.length part _ hlen.symm
      rw [length_records_map, ← hpos, ← hoff, ← hlay, ← hupd] at horder
      have := ih (update g k t.length) (t ++ [offsetAt f pos items k]) z (by simpa using hpos)
        (by simpa using hz)
      simp only [map_cons, fillinLoop, if_neg hne]
      rw [setBytes_table hf, horder]
      simpa [assign] using this
    · rw [filter_cons_of_neg (by simpa using hk)] at hz ⊢
      rw [map_cons, fillinLoop, if_pos (offsetAt_of_notMem hk pos)]
      exact ih g t z hpos hz

theorem foldl_set_offset (hnd : (items.map Prod.fst).Nodup) (table : List Nat) (pos : Nat) :
    ∃ table', items.foldl (fun t i => (t.1.set i.1 t.2, t.2 + recordLength f i.2)) (table, pos) =
        (table', pos + (records f items).length) ∧ table'.length = table.length ∧
      ∀ k, table'[k]? = if k ∈ items.map Prod.fst ∧ k < table.length then some (offsetAt f pos items k) else table[k]? := by
  induction items generalizing table pos with
  | nil => exact ⟨table, by simp, rfl, by simp⟩
  | cons i items ih =>
    obtain ⟨hi, hnd⟩ := nodup_cons.mp hnd
    obtain ⟨table', heq, hlen, hget⟩ := ih hnd (table.set i.1 pos) (pos + recordLength f i.2)
    refine ⟨table', by simpa [Nat.add_assoc] using heq, by simpa using hlen, fun k => ?_⟩
    rw [hget, getElem?_set, length_set]
    by_cases hk : i.1 = k
    · subst hk
      by_cases hlt : i.1 < table.length
      · simp [hi, hlt, offsetAt]
      · simp [hlt]
    · simp only [map_cons, mem_cons, Ne.symm hk, false_or, if_neg hk, offsetAt]

/-- The data in the octets of a record after its order. -/
def Format.data (f : Format) (part : Bytes) : Bytes := if f.rrsig then part.drop 1 else part

/-- The octet of a record that is taken for the meta data: in the fixed format, the high octet of the order. -/
def Format.flag (f : Format) (order : Nat) (part : Bytes) : UInt8 :=
  if f.fixed then UInt8.ofNat (order / 2 ^ 8) else part.getD 0 0

/-- What is read from a record. -/
def Format.read (f : Format) (i : Nat × Bytes) : SlabRdata :=
  ⟨⟨f.data i.2, f.rrsig && f.flag i.1 i.2 &&& OFFLINE != 0⟩, record f i.1 i.2⟩

/-- The lengths fit their fields, and signatures have their meta data. -/
def PartOk (f : Format) (part : Bytes) : Prop := part.length ≤ 0xffff ∧ (f.rrsig → part ≠ [])

variable {part : Bytes}

theorem get16_record (h : PartOk f part) (rest : Bytes) : get16 (record f order part ++ rest) = part.length := by
  simpa [record] using get16_be16 (Nat.lt_succ_of_le h.1) _

theorem overhead_length (h : PartOk f part) : f.overhead + (f.data part).length = recordLength f part := by
  unfold Format.overhead Format.data recordLength
  cases hr : f.rrsig with
  | false => simp
  | true =>
    have : 0 < part.length := length_pos_iff.mpr (h.2 hr)
    simp
    omega

theorem drop_overhead (order : Nat) (part : Bytes) :
    (record f order part).drop f.overhead = f.data part := by
  unfold record Format.overhead Format.data
  cases hf : f.fixed <;> cases hr : f.rrsig <;> simp [be16, drop_succ_cons]

theorem rdataFromSlab_record (h : PartOk f part) (rest : Bytes) :
    rdataFromSlab f (record f order part ++ rest) = (f.read (order, part), rest) := by
  have hlen : (if f.rrsig then part.length - 1 else part.length) = (f.data part).length := by
    unfold Format.data
    split <;> simp
  have hnext : f.overhead + (f.data part).length = (record f order part).length := by
    rw [overhead_length h, length_record]
  have hover : f.overhead ≤ (record f order part).length := by omega
  have hflag : f.rrsig → (record f order part ++ rest).getD 2 0 = f.flag order part := by
    intro hr
    obtain ⟨x, part, rfl⟩ := exists_cons_of_ne_nil (h.2 hr)
    unfold record Format.flag
    cases hf : f.fixed <;> simp [be16]
  unfold rdataFromSlab
  simp only [get16_record h, hlen, hnext, take_left, drop_left]
  refine Prod.ext ?_ rfl
  simp only [Format.read, SlabRdata.mk.injEq, Rdata.mk.injEq, and_true]
  constructor
  · rw [drop_append_of_le_length hover, drop_overhead, take_left]
  · cases hr : f.rrsig with
    | false => rfl
    | true => rw [hflag hr]

theorem readRdatas_records (h : ∀ i ∈ items, PartOk f i.2) (rest : Bytes) :
    readRdatas f items.length (records f items ++ rest) = items.map f.read := by
  induction items with
  | nil => rfl
  | cons i items ih =>
    simp only [mem_cons, forall_eq_or_imp] at h
    simp only [length_cons, readRdatas, records_cons, append_assoc, rdataFromSlab_record h.1, ih h.2,
      map_cons]

theorem sizeLoop_records (h : ∀ i ∈ items, PartOk f i.2) (before : Bytes) :
    sizeLoop f (before ++ records f items) items.length before.length = (before ++ records f items).length := by
  induction items generalizing before with
  | nil => simp [sizeLoop]
  | cons i items ih =>
    simp only [mem_cons, forall_eq_or_imp] at h
    have hnext : before.length + 2 + i.2.length + (if f.fixed then 2 else 0) = (before ++ record f i.1 i.2).length := by
      rw [length_append, length_record, recordLength]
      omega
    simp only [length_cons, sizeLoop, records_cons, drop_left, get16_record h.1, hnext]
    rw [← append_assoc, ih h.2]

/-- What a slab holds: a header, and records with the order and the octets after it. -/
structure Content (f : Format) where
  header : Bytes
  items : List (Nat × Bytes)
  count_le : items.length ≤ 0xffff
  parts : ∀ i ∈ items, PartOk f i.2
  orders : f.fixed → (items.map Prod.fst).Perm (range items.length)

namespace Content
variable (c : Content f)

/-- The position of the first record, from the end of the header. -/
def start : Nat := 2 + 4 * c.items.length

/-- The offset table: in load order. -/
def table : List Nat := (range c.items.length).map (offsetAt f c.start c.items)

def slab : Bytes := layout f c.header c.table c.items

/-- The octets before the records. -/
def front : Bytes :=
  c.header ++ be16 c.items.length ++ if f.fixed then c.table.flatMap be32 else []

theorem slab_eq : c.slab = c.front ++ records f c.items := rfl

@[simp] theorem length_table : c.table.length = c.items.length := by simp [table]

theorem length_front : c.front.length = c.header.length + 2 + if f.fixed then 4 * c.items.length else 0 := by
  unfold front
  split <;> simp only [length_append, length_be16, length_flatMap_be32, length_table, length_nil]

@[simp] theorem slabCount_slab : slabCount c.slab c.header.length = c.items.length := by
  unfold slabCount slab layout
  rw [append_assoc, append_assoc, drop_left]
  exact get16_be16 (Nat.lt_succ_of_le c.count_le) _

theorem slabStart_slab : slabStart f c.slab c.header.length = c.front.length := by
  rw [slabStart, slabCount_slab, length_front]

theorem decode_slab : decode f c.slab c.header.length = c.items.map f.read := by
  have := readRdatas_records c.parts []
  rw [append_nil] at this
  rw [decode, slabCount_slab, slabStart_slab, slab_eq, drop_left, this]

theorem slabSize_slab : slabSize f c.slab c.header.length = c.slab.length % 2 ^ 32 := by
  rw [slabSize, slabCount_slab, slabStart_slab, slab_eq, sizeLoop_records c.parts]

theorem length_slab : c.slab.length = c.front.length + (records f c.items).length := by
  rw [slab_eq, length_append]

theorem get32_table (hf : f.fixed) (hs : c.slab.length < 2 ^ 32) {j : Nat} (hj : j < c.items.length) :
    get32 (c.slab.drop (c.header.length + 2 + 4 * j)) = offsetAt f c.start c.items j := by
  have hmem : j ∈ c.items.map Prod.fst := (c.orders hf).mem_iff.mpr (mem_range.mpr hj)
  obtain ⟨a, part, b, hitems, hoff⟩ := offsetAt_split (f := f) hmem c.start
  have hlt : offsetAt f c.start c.items j < 2 ^ 32 := by
    have hlen := c.length_slab
    have hrec : (records f c.items).length = (records f a).length + (records f ((j, part) :: b)).length := by
      rw [hitems, records_append, length_append]
    have hstart : c.start = 2 + 4 * c.items.length := rfl
    rw [length_front, if_pos hf] at hlen
    omega
  have htable : c.table = (c.table.take j) ++ offsetAt f c.start c.items j :: c.table.drop (j + 1) := by
    have hj' : j < c.table.length := by simpa using hj
    conv_lhs => rw [← take_append_drop j c.table, drop_eq_getElem_cons hj']
    simp [table]
  have hslab : c.slab = (c.header ++ be16 c.items.length ++ (c.table.take j).flatMap be32) ++
      (be32 (offsetAt f c.start c.items j) ++ ((c.table.drop (j + 1)).flatMap be32 ++ records f c.items)) := by
    unfold slab layout
    rw [if_pos hf]
    conv_lhs => rw [htable]
    simp
  have hpos : (c.header ++ be16 c.items.length ++ (c.table.take j).flatMap be32).length = c.header.length + 2 + 4 * j := by
    simp only [length_append, length_be16, length_flatMap_be32, length_take, length_table,
      Nat.min_eq_left hj.le]
  rw [hslab, ← hpos, drop_left]
  exact get32_be32 hlt _

theorem loadOrder_slab (hf : f.fixed) (hs : c.slab.length < 2 ^ 32) :
    ∃ items : List (Nat × Bytes), items.Perm c.items ∧ items.map Prod.fst = range c.items.length ∧
      loadOrder f c.slab c.header.length = items.map f.read := by
  have hnd : (c.items.map Prod.fst).Nodup := (c.orders hf).nodup_iff.mpr nodup_range
  have hread : ∀ j ∈ range c.items.length, ∃ part, (j, part) ∈ c.items ∧
      (rdataFromSlab f (c.slab.drop (c.header.length + get32 (c.slab.drop (c.header.length + 2 + 4 * j))))).1 =
        f.read (j, part) := by
    intro j hj
    have hmem : j ∈ c.items.map Prod.fst := (c.orders hf).mem_iff.mpr hj
    obtain ⟨a, part, b, hitems, hoff⟩ := offsetAt_split (f := f) hmem c.start
    have hpart : (j, part) ∈ c.items := by simp [hitems]
    refine ⟨part, hpart, ?_⟩
    have hpos : c.header.length + offsetAt f c.start c.items j = (c.front ++ records f a).length := by
      rw [length_append, length_front, if_pos hf, hoff, start]
      omega
    have hslab : c.slab = (c.front ++ records f a) ++ (record f j part ++ records f b) := by
      rw [slab_eq]
      conv_lhs => rw [hitems]
      simp
    rw [c.get32_table hf hs (mem_range.mp hj), hpos, hslab, drop_left, rdataFromSlab_record (c.parts _ hpart)]
  choose! part hmem hpart using hread
  refine ⟨(range c.items.length).map fun j => (j, part j), ?_, by simp [comp_def], ?_⟩
  · refine (perm_ext_iff_of_nodup ?_ hnd.of_map).mpr fun i => ?_
    · exact nodup_range.map fun _ _ h => (Prod.mk.inj h).1
    · constructor
      · intro hi
        obtain ⟨j, hj, rfl⟩ := mem_map.mp hi
        exact hmem j hj
      · intro hi
        have hj : i.1 ∈ range c.items.length := (c.orders hf).mem_iff.mp (mem_map_of_mem hi)
        have heq : i = (i.1, part i.1) := inj_on_of_nodup_map hnd hi (hmem i.1 hj) rfl
        exact mem_map.mpr ⟨i.1, hj, heq.symm⟩
  · rw [loadOrder, slabCount_slab, map_map]
    exact map_congr_left fun j hj => hpart j hj

end Content

end

end OqsBind.Dns.Slab
