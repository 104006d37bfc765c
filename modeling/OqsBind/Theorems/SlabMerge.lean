import OqsBind.Theorems.SlabEncode

/-! Merging and subtracting slabs are union and difference. -/

namespace OqsBind.Dns.Slab
open Isc List

section
variable {f : Format} (o : RdataOrder)

@[simp] theorem slabPart_read (i : Nat × Bytes) : f.slabPart (f.read i) = i.2 := by
  unfold Format.slabPart
  split
  · rename_i hr
    simp only [Format.read, record, Format.overhead, if_pos hr]
    cases f.fixed <;> simp [be16, drop_succ_cons]
  · rename_i hr
    simp only [Format.read, Format.data, if_neg hr]

@[simp] theorem data_read (i : Nat × Bytes) : (f.read i).data = f.data i.2 := rfl

variable {i : Nat × Bytes}

theorem order_read (hf : f.fixed) (hi : i.1 < 2 ^ 16) : (f.read i).order = i.1 := by
  simp only [SlabRdata.order, Format.read, record, if_pos hf]
  exact get16_be16 hi i.2

theorem record_read (hi : f.fixed → i.1 < 2 ^ 16) : (f.read i).record = record f (f.read i).order i.2 := by
  by_cases hf : f.fixed
  · rw [order_read hf (hi hf)]
    rfl
  · simp only [Format.read, record, if_neg hf]

theorem Content.order_lt (c : Content f) (hf : f.fixed) (hi : i ∈ c.items) : i.1 < c.items.length :=
  mem_range.mp ((c.orders hf).mem_iff.mp (mem_map_of_mem hi))

theorem Content.order_lt_two_pow (c : Content f) (hf : f.fixed) (hi : i ∈ c.items) : i.1 < 2 ^ 16 :=
  (c.order_lt hf hi).trans_le (c.count_le.trans (by decide))

theorem rdataInSlab_eq {l : List SlabRdata} (h : Increasing o.cmp (·.data) l) (r : SlabRdata) :
    rdataInSlab o.cmp r.data l = among o.cmp (·.data) l r := by
  induction l with
  | nil => rfl
  | cons t l ih =>
    obtain ⟨ht, hl⟩ := increasing_cons.mp h
    rw [rdataInSlab, ih hl]
    cases hc : o.cmp t.data r.data with
    | eq => exact (among_iff.mpr ⟨t, mem_cons_self .., Std.OrientedCmp.eq_comm.mp hc⟩).symm
    | lt =>
      have hne : o.cmp r.data t.data ≠ .eq := by
        rw [ne_eq, Std.OrientedCmp.eq_comm, hc]
        decide
      simp [among, hne]
    | gt =>
      refine (Bool.eq_false_iff.mpr fun hin => ?_).symm
      obtain ⟨y, hy, heq⟩ := among_iff.mp hin
      have hlt := Std.OrientedCmp.gt_iff_lt.mp hc
      rcases mem_cons.mp hy with rfl | hy
      · rw [hlt] at heq
        cases heq
      · rw [Std.TransCmp.lt_trans hlt (ht y hy)] at heq
        cases heq

/-- The rdatas of the new slab that are to be added. -/
def pending (cmp : Bytes → Bytes → Ordering) (olds ns : List SlabRdata) : List SlabRdata :=
  ns.filter fun r => !rdataInSlab cmp r.data olds

/-- The rdatas of the result, with their keys. -/
def mergedRdatas (cmp : Bytes → Bytes → Ordering) (ocount : Nat) (os added : List SlabRdata) : List (Nat × SlabRdata) :=
  (os.map fun r => (r.order, r)).merge (added.map fun r => (ocount + r.order, r)) fun x y =>
    cmp x.2.data y.2.data = .lt

/-- A key and the octets that are copied for it. -/
def Format.item (f : Format) (x : Nat × SlabRdata) : Nat × Bytes := (x.1, f.slabPart x.2)

section
variable {cmp : Bytes → Bytes → Ordering} {limit base : Nat} {olds : List SlabRdata} {ocount oncount : Nat}

/-- The cursor of the new slab is at an rdata to be added, if one is left. -/
def AtPending (cmp : Bytes → Bytes → Ordering) (olds ns : List SlabRdata) : Prop :=
  pending cmp olds ns ≠ [] → ∃ r rest, ns = r :: rest ∧ rdataInSlab cmp r.data olds = false

variable {ns : List SlabRdata}

theorem nextNew_ok (h : pending cmp olds ns ≠ []) (hns : ∀ r ∈ ns, f.fixed → r.order < oncount) :
    ∃ ns', nextNew f cmp olds oncount ns = .ok ns' ∧ pending cmp olds ns' = pending cmp olds ns ∧
      AtPending cmp olds ns' ∧ ns' ⊆ ns := by
  induction ns with
  | nil => exact absurd rfl h
  | cons r ns ih =>
    obtain ⟨hr, hns⟩ := forall_mem_cons.mp hns
    rw [nextNew, insist_ok hr]
    cases hin : rdataInSlab cmp r.data olds with
    | true =>
      have hskip : pending cmp olds (r :: ns) = pending cmp olds ns := filter_cons_of_neg (by simp [hin])
      rw [hskip] at h ⊢
      obtain ⟨ns', heq, hpend, hat, hsub⟩ := ih h hns
      exact ⟨ns', heq, hpend, hat, subset_cons_of_subset _ hsub⟩
    | false => exact ⟨r :: ns, rfl, rfl, fun _ => ⟨r, ns, rfl, hin⟩, Subset.refl _⟩

theorem advance_ok (cmp : Bytes → Bytes → Ordering) (olds : List SlabRdata) (hns : ∀ r ∈ ns, f.fixed → r.order < oncount) :
    ∃ ns', advanceNew f cmp olds oncount (pending cmp olds ns).length ns = .ok ns' ∧
      pending cmp olds ns' = pending cmp olds ns ∧ AtPending cmp olds ns' ∧ ns' ⊆ ns := by
  unfold advanceNew
  by_cases h : pending cmp olds ns = []
  · rw [h]
    exact ⟨ns, rfl, h, fun hne => absurd h hne, Subset.refl _⟩
  · rw [if_pos (length_pos_iff.mpr h)]
    exact nextNew_ok h hns

theorem nextOld_ok {os : List SlabRdata} (ho : ∀ r ∈ os, f.fixed → r.order < ocount) : nextOld f ocount os = .ok os := by
  rw [nextOld, insist_ok fun r hr => ho r (mem_of_mem_head? hr)]
  rfl

theorem writeRecord_eq (out : Out) (k : Nat) (r : SlabRdata) :
    writeRecord limit base out k (newRecord f (f.slabPart r)) = copyItem f (fun _ => 0) limit base out (f.item (k, r)) := by
  rw [newRecord_eq]
  rfl

theorem mergeLoop_eq (limit base rounds : Nat) {os : List SlabRdata} {nleft : Nat} (hr : rounds = os.length + nleft)
    (hn : nleft = (pending cmp olds ns).length) (hat : AtPending cmp olds ns)
    (ho : ∀ r ∈ os, f.fixed → r.order < ocount) (hns : ∀ r ∈ ns, f.fixed → r.order < oncount) (out : Out) :
    mergeLoop f cmp limit base olds ocount oncount rounds os ns nleft out =
      ((mergedRdatas cmp ocount os (pending cmp olds ns)).map f.item).foldlM (copyItem f (fun _ => 0) limit base) out := by
  induction rounds generalizing os ns nleft out with
  | zero =>
    obtain rfl : os = [] := eq_nil_of_length_eq_zero (by omega)
    have hpend : pending cmp olds ns = [] := eq_nil_of_length_eq_zero (by omega)
    simp [mergeLoop, hpend, mergedRdatas, pure, Except.pure]
  | succ rounds ih =>
    -- the next one of the old slab is added, or the next one of the new slab
    have hold : ∀ ordata os', os = ordata :: os' → mergedRdatas cmp ocount os (pending cmp olds ns) =
        (ordata.order, ordata) :: mergedRdatas cmp ocount os' (pending cmp olds ns) →
        (do
          let out ← writeRecord limit base out ordata.order (newRecord f (f.slabPart ordata))
          let os ← nextOld f ocount os'
          mergeLoop f cmp limit base olds ocount oncount rounds os ns nleft out) =
        ((mergedRdatas cmp ocount os (pending cmp olds ns)).map f.item).foldlM
          (copyItem f (fun _ => 0) limit base) out := by
      rintro ordata os' rfl hmerge
      obtain ⟨-, ho'⟩ := forall_mem_cons.mp ho
      rw [hmerge, writeRecord_eq]
      refine congrArg _ (funext fun out => ?_)
      rw [nextOld_ok ho']
      refine ih ?_ hn hat ho' hns out
      rw [length_cons] at hr
      omega
    have hnew : ∀ nrdata ns', ns = nrdata :: ns' → pending cmp olds ns = nrdata :: pending cmp olds ns' →
        mergedRdatas cmp ocount os (pending cmp olds ns) =
          (ocount + nrdata.order, nrdata) :: mergedRdatas cmp ocount os (pending cmp olds ns') →
        (do
          let out ← writeRecord limit base out (ocount + nrdata.order) (newRecord f (f.slabPart nrdata))
          let ns ← advanceNew f cmp olds oncount (nleft - 1) ns'
          mergeLoop f cmp limit base olds ocount oncount rounds os ns (nleft - 1) out) =
        ((mergedRdatas cmp ocount os (pending cmp olds ns)).map f.item).foldlM
          (copyItem f (fun _ => 0) limit base) out := by
      rintro nrdata ns' rfl hpend hmerge
      obtain ⟨-, hns'⟩ := forall_mem_cons.mp hns
      rw [hpend, length_cons] at hn
      have hleft : nleft - 1 = (pending cmp olds ns').length := by omega
      obtain ⟨ns'', hadv, hpend', hat', hsub⟩ := advance_ok cmp olds hns'
      have hlen := congrArg length hpend'
      rw [hmerge, writeRecord_eq, hleft]
      refine congrArg _ (funext fun out => ?_)
      rw [hadv, ← hpend']
      exact ih (by omega) rfl hat' ho (fun r hr => hns' r (hsub hr)) out
    have hfilter : ∀ {r ns'}, rdataInSlab cmp r.data olds = false →
        pending cmp olds (r :: ns') = r :: pending cmp olds ns' := fun h => filter_cons_of_pos (by simp [h])
    cases os with
    | nil =>
      have hne : pending cmp olds ns ≠ [] := by
        rw [← length_pos_iff]
        simp only [length_nil] at hr
        omega
      obtain ⟨r, rest, rfl, hin⟩ := hat hne
      refine hnew r rest rfl (hfilter hin) ?_
      rw [hfilter hin]
      simp only [mergedRdatas, map_nil, nil_merge, map_cons]
    | cons ordata os =>
      cases hpend : pending cmp olds ns with
      | nil =>
        have hzero : nleft = 0 := by rw [hn, hpend, length_nil]
        rw [← hpend]
        have := hold ordata os rfl (by simp only [hpend, mergedRdatas, map_nil, merge_right, map_cons])
        cases ns with
        | nil => simpa only [mergeLoop] using this
        | cons nrdata ns => simpa only [mergeLoop, hzero, decide_true, Bool.true_or] using this
      | cons nrdata added =>
        obtain ⟨r, rest, rfl, hin⟩ := hat (by rw [hpend]; exact cons_ne_nil _ _)
        have hcons : pending cmp olds (r :: rest) = r :: pending cmp olds rest := hfilter hin
        have hzero : nleft ≠ 0 := by rw [hn, hcons]; simp
        rw [← hpend]
        by_cases hlt : cmp ordata.data r.data = .lt
        · have := hold ordata os rfl (by
            simp only [hcons, mergedRdatas, map_cons, cons_merge_cons, hlt, decide_true, if_true])
          simpa only [mergeLoop, hzero, hlt, decide_true, decide_false, Bool.false_or] using this
        · have := hnew r rest rfl hcons (by
            simp only [hcons, mergedRdatas, map_cons, cons_merge_cons, hlt, decide_false, Bool.false_eq_true,
              if_false])
          simpa only [mergeLoop, hzero, hlt, decide_false, Bool.false_or] using this

end

/-- What a slab holds that `dns_rdataslab_fromrdataset`, merges and subtractions make. -/
structure Held (o : RdataOrder) (f : Format) (reservelen : Nat) extends Content f where
  reserve : header.length = reservelen
  increasing : Increasing o.cmp (fun i => f.data i.2) items
  small : toContent.slab.length < 2 ^ 32

variable {o} {reservelen : Nat}

namespace Held
variable (c : Held o f reservelen)

def rdatas : List SlabRdata := c.items.map f.read

theorem decode_eq : decode f c.slab reservelen = c.rdatas := by
  have := c.decode_slab
  rwa [c.reserve] at this

theorem count_eq : slabCount c.slab reservelen = c.rdatas.length := by
  have := c.slabCount_slab
  rw [c.reserve] at this
  rw [this, rdatas, length_map]

theorem rdatas_increasing : Increasing o.cmp (·.data) c.rdatas :=
  Pairwise.map _ (fun _ _ hlt => hlt) c.increasing

variable {r : SlabRdata}

theorem mem_rdatas (hr : r ∈ c.rdatas) : ∃ i ∈ c.items, r = f.read i := by
  obtain ⟨i, hi, rfl⟩ := mem_map.mp hr
  exact ⟨i, hi, rfl⟩

theorem partOk (hr : r ∈ c.rdatas) : PartOk f (f.slabPart r) := by
  obtain ⟨i, hi, rfl⟩ := c.mem_rdatas hr
  rw [slabPart_read]
  exact c.parts i hi

theorem data_slabPart (hr : r ∈ c.rdatas) : f.data (f.slabPart r) = r.data := by
  obtain ⟨i, hi, rfl⟩ := c.mem_rdatas hr
  rw [slabPart_read, data_read]

theorem record_eq (hr : r ∈ c.rdatas) : r.record = record f r.order (f.slabPart r) := by
  obtain ⟨i, hi, rfl⟩ := c.mem_rdatas hr
  rw [slabPart_read]
  exact record_read fun hf => c.order_lt_two_pow hf hi

theorem map_order (hf : f.fixed) : c.rdatas.map SlabRdata.order = c.items.map Prod.fst := by
  rw [rdatas, map_map]
  exact map_congr_left fun i hi => order_read hf (c.order_lt_two_pow hf hi)

theorem orders_nodup (hf : f.fixed) : (c.rdatas.map SlabRdata.order).Nodup := by
  rw [c.map_order hf]
  exact (c.orders hf).nodup_iff.mpr nodup_range

theorem rdata_order_lt (hf : f.fixed) (hr : r ∈ c.rdatas) : r.order < c.rdatas.length := by
  obtain ⟨i, hi, rfl⟩ := c.mem_rdatas hr
  rw [order_read hf (c.order_lt_two_pow hf hi), rdatas, length_map]
  exact c.order_lt hf hi

theorem length_le : c.rdatas.length ≤ 0xffff := by
  rw [rdatas, length_map]
  exact c.count_le

end Held

/-- The slab that is written holds its rdatas in order. -/
def Draft.held (d : Draft f) (hres : d.header.length = reservelen) (hinc : Increasing o.cmp (fun i => f.data i.2) d.items)
    (hsize : d.size < 2 ^ 32) : Held o f reservelen where
  toContent := d.content
  reserve := hres
  increasing := Pairwise.map _ (fun _ _ hlt => hlt) hinc
  small := by rwa [d.length_slab]

/-- The space of an rdata, with its entry in the offset table. -/
def cost (f : Format) (r : SlabRdata) : Nat := (if f.fixed then 8 else 2) + (f.slabPart r).length

theorem sum_cost (l : List (Nat × SlabRdata)) : ((l.map Prod.snd).map (cost f)).sum =
    (if f.fixed then 4 * l.length else 0) + (records f (l.map f.item)).length := by
  induction l with
  | nil => simp
  | cons x l ih =>
    rw [map_cons, map_cons, sum_cons, ih, map_cons, records_cons, length_append, length_record,
      recordLength, length_cons, cost]
    simp only [Format.item]
    split <;> omega

namespace Held
variable (a b : Held o f reservelen)

variable {r : SlabRdata}

theorem cost_eq_get16 (hr : r ∈ a.rdatas) : get16 r.record + (if f.fixed then 8 else 2) = cost f r := by
  have hget : get16 (record f r.order (f.slabPart r) ++ []) = _ := get16_record (a.partOk hr) []
  rw [append_nil, ← a.record_eq hr] at hget
  rw [hget, cost, Nat.add_comm]

theorem cost_eq_space (hr : r ∈ a.rdatas) : f.space r.data.length = cost f r := by
  have hlen := overhead_length (a.partOk hr)
  rw [a.data_slabPart hr, Format.overhead, recordLength] at hlen
  rw [Format.space, cost]
  omega

/-- The rdatas of the new slab that the old slab does not have. -/
def added : List SlabRdata := b.rdatas.filter fun r => !among o.cmp (·.data) a.rdatas r

theorem pending_eq : pending o.cmp a.rdatas b.rdatas = a.added b :=
  filter_congr fun r _ => by rw [rdataInSlab_eq o a.rdatas_increasing]

def merged : List (Nat × SlabRdata) := mergedRdatas o.cmp a.rdatas.length a.rdatas (a.added b)

theorem merged_perm : (a.merged b).Perm
    ((a.rdatas.map fun r => (r.order, r)) ++ (a.added b).map fun r => (a.rdatas.length + r.order, r)) :=
  merge_perm_append _

theorem merged_snd : ((a.merged b).map Prod.snd).Perm (a.rdatas ++ a.added b) := by
  simpa [Function.comp_def] using (a.merged_perm b).map Prod.snd

theorem length_merged : (a.merged b).length = a.rdatas.length + (a.added b).length := by
  simpa using (a.merged_perm b).length_eq

theorem mem_added : r ∈ a.added b ↔ r ∈ b.rdatas ∧ ¬among o.cmp (·.data) a.rdatas r := by
  simp [added]

theorem merged_increasing : Increasing o.cmp (fun x : Nat × SlabRdata => x.2.data) (a.merged b) := by
  refine Increasing.merge ?_ ?_ fun x hx y hy heq => ?_
  · exact Pairwise.map _ (fun _ _ hlt => hlt) a.rdatas_increasing
  · exact Pairwise.map _ (fun _ _ hlt => hlt) (b.rdatas_increasing.filter _)
  · obtain ⟨r, hr, rfl⟩ := mem_map.mp hx
    obtain ⟨t, ht, rfl⟩ := mem_map.mp hy
    exact ((a.mem_added b).mp ht).2 (among_iff.mpr ⟨r, hr, Std.OrientedCmp.eq_comm.mp heq⟩)

variable {x : Nat × SlabRdata}

theorem mem_merged (hx : x ∈ a.merged b) :
    (x.2 ∈ a.rdatas ∧ x.1 = x.2.order) ∨ (x.2 ∈ b.rdatas ∧ x.1 = a.rdatas.length + x.2.order) := by
  rcases mem_append.mp ((a.merged_perm b).mem_iff.mp hx) with hx | hx
  · obtain ⟨r, hr, rfl⟩ := mem_map.mp hx
    exact .inl ⟨hr, rfl⟩
  · obtain ⟨r, hr, rfl⟩ := mem_map.mp hx
    exact .inr ⟨((a.mem_added b).mp hr).1, rfl⟩

theorem merged_partOk (hx : x ∈ a.merged b) : PartOk f (f.slabPart x.2) := by
  rcases a.mem_merged b hx with ⟨hr, -⟩ | ⟨hr, -⟩
  · exact a.partOk hr
  · exact b.partOk hr

theorem merged_data (hx : x ∈ a.merged b) : f.data (f.slabPart x.2) = x.2.data := by
  rcases a.mem_merged b hx with ⟨hr, -⟩ | ⟨hr, -⟩
  · exact a.data_slabPart hr
  · exact b.data_slabPart hr

theorem merged_keys_nodup (hf : f.fixed) : ((a.merged b).map Prod.fst).Nodup := by
  rw [((a.merged_perm b).map Prod.fst).nodup_iff, map_append, map_map, map_map]
  refine Nodup.append (a.orders_nodup hf) ?_ ?_
  · have hadded : ((a.added b).map SlabRdata.order).Nodup :=
      (b.orders_nodup hf).sublist (Sublist.map _ filter_sublist)
    have := hadded.map fun _ _ h => Nat.add_left_cancel (n := a.rdatas.length) h
    rwa [map_map] at this
  · intro k hk hk'
    obtain ⟨r, hr, rfl⟩ := mem_map.mp hk
    obtain ⟨t, -, heq⟩ := mem_map.mp hk'
    have hlt := a.rdata_order_lt hf hr
    simp only [Function.comp_apply] at heq hlt
    omega

/-- The records of both slabs. -/
def unionDraft (hcount : a.rdatas.length + (a.added b).length ≤ 0xffff) : Draft f where
  header := b.header
  items := (a.merged b).map f.item
  nalloc := a.rdatas.length + b.rdatas.length
  count_le := by rwa [length_map, length_merged]
  parts := by
    intro _ hi
    obtain ⟨x, hx, rfl⟩ := mem_map.mp hi
    exact a.merged_partOk b hx
  nodup := by
    intro hf
    rw [map_map]
    exact a.merged_keys_nodup b hf
  keys := by
    intro hf k hk
    rw [map_map] at hk
    obtain ⟨x, hx, rfl⟩ := mem_map.mp hk
    rcases a.mem_merged b hx with ⟨hr, heq⟩ | ⟨hr, heq⟩
    · have := a.rdata_order_lt hf hr
      simp only [Function.comp_apply, Format.item, heq]
      omega
    · have := b.rdata_order_lt hf hr
      simp only [Function.comp_apply, Format.item, heq]
      omega

/-- The size of the result. -/
def unionSize : Nat := reservelen + 2 + ((a.rdatas ++ a.added b).map (cost f)).sum

theorem unionDraft_size (hcount : a.rdatas.length + (a.added b).length ≤ 0xffff) :
    (a.unionDraft b hcount).size = a.unionSize b := by
  have hsum := sum_cost (f := f) (a.merged b)
  rw [((a.merged_snd b).map _).sum_nat] at hsum
  rw [Draft.size, unionSize]
  simp only [unionDraft, length_map, b.reserve]
  omega

theorem take_header : b.slab.take reservelen = b.header := by
  have : b.slab = b.header ++ (be16 b.items.length ++ ((if f.fixed then b.table.flatMap be32 else []) ++
      records f b.items)) := by
    simp [Content.slab, layout]
  rw [this]
  exact take_left' b.reserve

/-- The new slab's count is replaced before it is compared, so the exactness is never looked at. -/
theorem merge_eq (flags : Flags) (ha : a.rdatas ≠ []) (hb : b.rdatas ≠ []) :
    merge f o.cmp a.slab b.slab reservelen flags =
      if a.added b = [] ∧ ¬flags.force then .ok .unchanged
      else if a.rdatas.length + (a.added b).length > 1 ∧ f.singleton then .ok .singleton
      else if a.rdatas.length + (a.added b).length > 0xffff then .ok .nospace
      else do
        let out ← ((a.merged b).map f.item).foldlM (copyItem f (fun _ => 0) (a.unionSize b % 2 ^ 32) reservelen)
          (startOut f b.header (a.rdatas.length + (a.added b).length) (a.rdatas.length + b.rdatas.length))
        insist (out.buf.length = a.unionSize b % 2 ^ 32)
        return .success (fillinOffsets f reservelen out) := by
  have hlen : reservelen + 2 + (a.rdatas.map fun r => get16 r.record + if f.fixed then 8 else 2).sum +
      ((a.added b).map fun r => f.space r.data.length).sum = a.unionSize b := by
    rw [map_congr_left fun r hr => a.cost_eq_get16 hr,
      map_congr_left fun r hr => b.cost_eq_space ((a.mem_added b).mp hr).1, unionSize, map_append,
      sum_append_nat, Nat.add_assoc]
  have hpend := a.pending_eq b
  obtain ⟨ns, hadv, hpend', hat, hsub⟩ := advance_ok (f := f) o.cmp a.rdatas
    (fun r hr hf => b.rdata_order_lt hf hr : ∀ r ∈ b.rdatas, f.fixed → r.order < b.rdatas.length)
  rw [hpend] at hadv hpend'
  have hloop := fun out => mergeLoop_eq (a.unionSize b % 2 ^ 32) reservelen
    (a.rdatas.length + (a.added b).length) rfl (by rw [hpend']) hat
    (fun r hr hf => a.rdata_order_lt hf hr) (fun r hr hf => b.rdata_order_lt hf (hsub hr)) out
  have hold := nextOld_ok (f := f) fun r hr hf => a.rdata_order_lt hf hr
  have hpos : a.rdatas.length > 0 ∧ b.rdatas.length > 0 :=
    ⟨length_pos_iff.mpr ha, length_pos_iff.mpr hb⟩
  rw [hpend'] at hloop
  have hfilter : (b.rdatas.filter fun r => !rdataInSlab o.cmp r.data a.rdatas) = a.added b := a.pending_eq b
  have hexact : ¬(flags.exactly ∧ a.rdatas.length + (a.added b).length ≠ (a.added b).length + a.rdatas.length) :=
    fun h => h.2 (Nat.add_comm _ _)
  unfold merge
  simp only [a.count_eq, b.count_eq, a.decode_eq, b.decode_eq, insist_ok hpos, take_header, hfilter, hlen, hold, hadv,
    hloop, bind, Except.bind, if_neg hexact]
  rfl

end Held

end

end OqsBind.Dns.Slab
