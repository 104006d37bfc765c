import OqsBind.Theorems.SlabFormat
import Mathlib.Data.List.Sublists

/-! Writing a slab: records with distinct keys are copied one after the other, and `fillin_offsets` turns the keys into
    orders, in which they are numbered through. -/

namespace OqsBind.Dns.Slab
open Isc List

section
variable {f : Format}

/-- The keys and octets are copied with some orders in the records. -/
def copyItem (f : Format) (g : Nat → Nat) (limit offsetbase : Nat) (o : Out) (i : Nat × Bytes) : Except Fault Out :=
  writeRecord limit offsetbase o i.1 (record f (g i.1) i.2)

theorem newRecord_eq (part : Bytes) : newRecord f part = record f 0 part := by
  unfold newRecord record
  have hzero : be16 0 = [0, 0] := rfl
  rw [hzero]

theorem insist_ok {cond : Prop} [Decidable cond] (h : cond) : insist cond = .ok () := if_pos h

theorem insist_error {cond : Prop} [Decidable cond] (h : ¬cond) : insist cond = .error .insist := if_neg h

variable {limit base : Nat} {o : Out}

theorem copyItem_ok {g : Nat → Nat} {i : Nat × Bytes} (h : o.buf.length + recordLength f i.2 ≤ limit) :
    copyItem f g limit base o i = .ok ⟨o.buf ++ record f (g i.1) i.2,
      o.offsettable.set i.1 ((o.buf.length - base) % 2 ^ 32)⟩ := by
  unfold copyItem writeRecord
  simpa using h

theorem copyItem_error {g : Nat → Nat} {i : Nat × Bytes}
    (h : limit < o.buf.length + recordLength f i.2) : copyItem f g limit base o i = .error .overrun := by
  unfold copyItem writeRecord
  simpa using h

theorem foldlM_copyItem_ok (g : Nat → Nat) {items : List (Nat × Bytes)}
    (h : o.buf.length + (records f items).length ≤ limit) (hlimit : limit < 2 ^ 32) (hbase : base ≤ o.buf.length) :
    items.foldlM (copyItem f g limit base) o = .ok ⟨o.buf ++ records f (items.map fun i => (g i.1, i.2)),
      (items.foldl (fun t i => (t.1.set i.1 t.2, t.2 + recordLength f i.2)) (o.offsettable, o.buf.length - base)).1⟩ := by
  induction items generalizing o with
  | nil => simp [pure, Except.pure]
  | cons i items ih =>
    rw [records_cons, length_append, length_record] at h
    rw [foldlM_cons, copyItem_ok (by omega)]
    have hmod : (o.buf.length - base) % 2 ^ 32 = o.buf.length - base := Nat.mod_eq_of_lt (by omega)
    have hpos : o.buf.length + recordLength f i.2 - base = o.buf.length - base + recordLength f i.2 := by omega
    have := ih (o := ⟨o.buf ++ record f (g i.1) i.2, o.offsettable.set i.1 (o.buf.length - base)⟩)
      (by simp only [length_append, length_record]; omega)
      (by simp only [length_append, length_record]; omega)
    simp only [length_append, length_record, hpos] at this
    rw [hmod]
    simpa [bind, Except.bind] using this

theorem foldlM_copyItem_error (g : Nat → Nat) {items : List (Nat × Bytes)}
    (h : limit < o.buf.length + (records f items).length) (hne : items ≠ []) :
    items.foldlM (copyItem f g limit base) o = .error .overrun := by
  induction items generalizing o with
  | nil => exact absurd rfl hne
  | cons i items ih =>
    rw [records_cons, length_append, length_record] at h
    rw [foldlM_cons]
    by_cases hi : limit < o.buf.length + recordLength f i.2
    · rw [copyItem_error hi]
      rfl
    · rw [copyItem_ok (by omega)]
      refine ih (by simp only [length_append, length_record]; omega) ?_
      rintro rfl
      simp at h
      omega

/-- What is to be written: the octets of the records with keys below `nalloc`. -/
structure Draft (f : Format) where
  header : Bytes
  items : List (Nat × Bytes)
  nalloc : Nat
  count_le : items.length ≤ 0xffff
  parts : ∀ i ∈ items, PartOk f i.2
  nodup : f.fixed → (items.map Prod.fst).Nodup
  keys : f.fixed → ∀ k ∈ items.map Prod.fst, k < nalloc

namespace Draft
variable (d : Draft f)

/-- The keys, from the least on. -/
def sorted : List Nat := (range d.nalloc).filter (· ∈ d.items.map Prod.fst)

theorem sorted_nodup : d.sorted.Nodup := nodup_range.filter _

variable {k : Nat}

theorem mem_sorted (hf : f.fixed) : k ∈ d.sorted ↔ k ∈ d.items.map Prod.fst := by
  simpa [sorted] using d.keys hf k

theorem sorted_perm (hf : f.fixed) : d.sorted.Perm (d.items.map Prod.fst) :=
  (perm_ext_iff_of_nodup d.sorted_nodup (d.nodup hf)).mpr fun _ => d.mem_sorted hf

theorem length_sorted (hf : f.fixed) : d.sorted.length = d.items.length := by
  rw [(d.sorted_perm hf).length_eq, length_map]

/-- The number of a key. -/
def rank (k : Nat) : Nat := d.sorted.idxOf k

theorem map_rank_sorted : d.sorted.map d.rank = range d.sorted.length := by
  refine ext_getElem (by simp) fun j h _ => ?_
  simpa [rank] using d.sorted_nodup.idxOf_getElem j (by simpa using h)

theorem rank_eq (hf : f.fixed) (hk : k ∈ d.items.map Prod.fst) : d.rank k = (d.items.map Prod.fst).countP (· < k) := by
  have hidx : ∀ l : List Nat, l.Pairwise (· < ·) → k ∈ l → l.idxOf k = l.countP (· < k) := by
    intro l hl hmem
    induction l with
    | nil => cases hmem
    | cons a l ih =>
      obtain ⟨ha, hl⟩ := pairwise_cons.mp hl
      rcases mem_cons.mp hmem with rfl | hmem
      · have hzero : l.countP (· < k) = 0 := countP_eq_zero.mpr fun b hb => by simpa using (ha b hb).le
        simp [hzero]
      · have hak := ha k hmem
        rw [idxOf_cons_ne _ hak.ne, ih hl hmem, countP_cons_of_pos (by simpa using hak)]
  rw [rank, hidx d.sorted (pairwise_lt_range.filter _) ((d.mem_sorted hf).mpr hk), (d.sorted_perm hf).countP_eq]

/-- What the slab holds at the end. -/
def content : Content f where
  header := d.header
  items := d.items.map fun i => (d.rank i.1, i.2)
  count_le := by simpa using d.count_le
  parts := by
    intro _ hi
    obtain ⟨i, hmem, rfl⟩ := mem_map.mp hi
    exact d.parts i hmem
  orders := by
    intro hf
    have := (d.sorted_perm hf).map d.rank
    rw [map_rank_sorted, d.length_sorted hf] at this
    simpa [Function.comp_def] using this.symm

@[simp] theorem content_header : d.content.header = d.header := rfl

@[simp] theorem content_items : d.content.items = d.items.map fun i => (d.rank i.1, i.2) := rfl

theorem content_table (hf : f.fixed) :
    d.content.table = d.sorted.map (offsetAt f (2 + 4 * d.items.length) d.items) := by
  have hrange := d.map_rank_sorted
  rw [d.length_sorted hf] at hrange
  rw [Content.table, content_items, length_map, ← hrange, map_map]
  refine map_congr_left fun k _ => ?_
  have hst : d.content.start = 2 + 4 * d.items.length := by simp [Content.start]
  simpa [hst] using offsetAt_map (g := d.rank) (fun k' hk' => (idxOf_inj ((d.mem_sorted hf).mpr hk')).mp) _

/-- The size of the slab. -/
def size : Nat :=
  d.header.length + 2 + (if f.fixed then 4 * d.items.length else 0) + (records f d.items).length

theorem length_slab : d.content.slab.length = d.size := by
  rw [Content.length_slab, Content.length_front, content_items, length_records_map, length_map, content_header, size]

theorem records_of_not_fixed (hf : ¬f.fixed) (g : Nat → Nat) (items : List (Nat × Bytes)) :
    records f (items.map fun i => (g i.1, i.2)) = records f items := by
  simp [records, record, hf, flatMap_map]

theorem startOut_buf : (startOut f d.header d.items.length d.nalloc).buf =
    d.header ++ be16 d.items.length ++ if f.fixed then (replicate d.items.length 0).flatMap be32 else [] := by
  unfold startOut
  have hzero : ∀ n : Nat, replicate (4 * n) (0 : UInt8) = (replicate n 0).flatMap be32 := by
    intro n
    induction n with
    | zero => rfl
    | succ n ih =>
      rw [Nat.mul_succ, Nat.add_comm, replicate_add, ih]
      rfl
  rw [hzero]

theorem length_startOut : (startOut f d.header d.items.length d.nalloc).buf.length =
    d.header.length + 2 + if f.fixed then 4 * d.items.length else 0 := by
  rw [startOut_buf]
  split <;> simp only [length_append, length_be16, length_flatMap_be32, length_replicate, length_nil]

theorem copy_overrun (g : Nat → Nat) {limit : Nat} (h : limit < d.size) (hne : d.items ≠ []) :
    d.items.foldlM (copyItem f g limit d.header.length) (startOut f d.header d.items.length d.nalloc) =
      .error .overrun := by
  rw [size, ← length_startOut] at h
  exact foldlM_copyItem_error g h hne

theorem copy_ok (g : Nat → Nat) {limit : Nat} (h : d.size ≤ limit) (hlimit : limit < 2 ^ 32) :
    ∃ o, d.items.foldlM (copyItem f g limit d.header.length) (startOut f d.header d.items.length d.nalloc) = .ok o ∧
      o.buf.length = d.size ∧ fillinOffsets f d.header.length o = d.content.slab := by
  have hlen := d.length_startOut
  rw [size, ← hlen] at h
  refine ⟨_, foldlM_copyItem_ok g h hlimit (by omega), ?_, ?_⟩
  · rw [length_append, length_records_map, hlen, size]
  · unfold fillinOffsets
    by_cases hf : f.fixed
    · have hpos : (startOut f d.header d.items.length d.nalloc).buf.length - d.header.length =
          2 + 4 * d.items.length := by
        rw [hlen, if_pos hf]
        omega
      obtain ⟨table, htable, htl, hget⟩ := foldl_set_offset (f := f) (d.nodup hf) (replicate d.nalloc 0)
        (2 + 4 * d.items.length)
      have htab : table = (range d.nalloc).map (offsetAt f (2 + 4 * d.items.length) d.items) := by
        refine ext_getElem? fun k => ?_
        rw [hget]
        by_cases hk : k < d.nalloc
        · by_cases hmem : k ∈ d.items.map Prod.fst
          · simp [hk, hmem]
          · simp [hk, hmem, offsetAt_of_notMem hmem]
        · simp [hk]
      have hfill := fillinLoop_layout hf d.header (d.nodup hf) (range d.nalloc) g [] (replicate d.items.length 0)
        (by rw [nil_append, length_replicate]) (by rw [length_replicate]; exact (d.length_sorted hf).symm)
      have hrank : (d.items.map fun i => (assign d.sorted 0 g i.1, i.2)) = d.content.items := by
        refine map_congr_left fun i hi => ?_
        rw [assign_of_mem d.sorted_nodup ((d.mem_sorted hf).mpr (mem_map_of_mem hi)), Nat.zero_add, rank]
      have hbuf : (startOut f d.header d.items.length d.nalloc).buf ++ records f (d.items.map fun i => (g i.1, i.2)) =
          layout f d.header (replicate d.items.length 0) (d.items.map fun i => (g i.1, i.2)) := by
        rw [startOut_buf, layout, length_map]
      rw [if_pos hf, hpos, hbuf]
      simp only [startOut, htable, htab]
      refine hfill.trans ?_
      rw [Content.slab, d.content_table hf, ← hrank]
      rfl
    · rw [startOut_buf]
      simp only [Content.slab, layout, if_neg hf, content_items, content_header, records_of_not_fixed hf,
        length_map]

end Draft

end

end OqsBind.Dns.Slab
