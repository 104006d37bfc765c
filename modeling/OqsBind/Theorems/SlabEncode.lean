import OqsBind.Lib.Checked
import OqsBind.Lib.Increasing
import OqsBind.Theorems.SlabWrite

/-! Encoding an rdataset and decoding the slab. -/

namespace OqsBind.Dns.Slab
open Isc List

/-- `dns_rdata_compare` for the rdatas of one type. It requires that they are valid: an address has 4 octets, and rdatas of
    most other types are not empty. -/
structure RdataOrder where
  valid : Bytes → Bool
  compare : {data // valid data} → {data // valid data} → Ordering
  trans : Std.TransCmp compare

def RdataOrder.key (o : RdataOrder) (data : Bytes) : Option {data // o.valid data} :=
  if h : o.valid data then some ⟨data, h⟩ else none

/-- The order of valid rdatas, for functions of any octets. -/
def RdataOrder.cmp (o : RdataOrder) : Bytes → Bytes → Ordering := @compareOn _ _ (@instOrdOption _ ⟨o.compare⟩) o.key

theorem RdataOrder.cmp_valid (o : RdataOrder) {a b : Bytes} (ha : o.valid a) (hb : o.valid b) :
    o.cmp a b = o.compare ⟨a, ha⟩ ⟨b, hb⟩ := by
  simp only [cmp, compareOn, key, dif_pos ha, dif_pos hb]
  rfl

instance (o : RdataOrder) : Std.TransCmp o.cmp := by
  let _ : Ord {data // o.valid data} := ⟨o.compare⟩
  have : Std.TransOrd {data // o.valid data} := o.trans
  exact inferInstanceAs (Std.TransCmp (compareOn o.key))

/-- `qsort`: some sorting, which need not be stable. -/
structure Qsort (cmp : Bytes → Bytes → Ordering) where
  sort : List XRdata → List XRdata
  perm : ∀ l, (sort l).Perm l
  sorted : ∀ l, (sort l).Pairwise fun x y => (cmp x.data y.data).isLE

section
variable {f : Format} (o : RdataOrder) {q : Qsort o.cmp}

/-! ### Duplicates -/

/-- What is left of a list without its duplicates. -/
structure Deduplicated (l kept : List XRdata) : Prop where
  sorted : Increasing o.cmp (·.data) kept
  mem : ∀ y ∈ kept, ∃ x ∈ l, x.toRdata = y.toRdata
  covers : ∀ x ∈ l, ∃ y ∈ kept, o.cmp x.data y.data = .eq ∧ y.order ≤ x.order
  least : ∀ y ∈ kept, ∃ x ∈ l, o.cmp x.data y.data = .eq ∧ x.order = y.order
  length_le : kept.length ≤ l.length

theorem removeDuplicates_spec (x : XRdata) (rest : List XRdata)
    (h : (x :: rest).Pairwise fun x y => (o.cmp x.data y.data).isLE) :
    Deduplicated o (x :: rest) (removeDuplicates o.cmp x rest) := by
  induction rest generalizing x with
  | nil =>
    refine ⟨pairwise_singleton _ _, ?_, ?_, ?_, le_rfl⟩ <;> simp [removeDuplicates, Std.ReflCmp.compare_self]
  | cons y rest ih =>
    obtain ⟨hx, hrest⟩ := pairwise_cons.mp h
    by_cases hxy : o.cmp x.data y.data = .eq
    · -- `y` takes the place of `x`, with the lesser order of both
      have hy := ih { y with order := min x.order y.order } (by
        obtain ⟨hy, hrest⟩ := pairwise_cons.mp hrest
        exact pairwise_cons.mpr ⟨hy, hrest⟩)
      rw [removeDuplicates, if_pos hxy]
      refine ⟨hy.sorted, fun z hz => ?_, fun z hz => ?_, fun z hz => ?_, le_trans hy.length_le (by simp)⟩
      · obtain ⟨w, hw, heq⟩ := hy.mem z hz
        rcases mem_cons.mp hw with rfl | hw
        · exact ⟨y, by simp, heq⟩
        · exact ⟨w, by simp [hw], heq⟩
      · obtain ⟨w, hw, heq, hle⟩ := hy.covers _ (mem_cons_self ..)
        rcases mem_cons.mp hz with rfl | hz
        · exact ⟨w, hw, Std.TransCmp.eq_trans hxy heq, le_trans hle (min_le_left _ _)⟩
        · rcases mem_cons.mp hz with rfl | hz
          · exact ⟨w, hw, heq, le_trans hle (min_le_right _ _)⟩
          · exact hy.covers z (mem_cons_of_mem _ hz)
      · obtain ⟨w, hw, heq, horder⟩ := hy.least z hz
        rcases mem_cons.mp hw with rfl | hw
        · rcases min_choice x.order y.order with hmin | hmin
          · exact ⟨x, by simp, Std.TransCmp.eq_trans hxy heq, hmin.symm.trans horder⟩
          · exact ⟨y, by simp, heq, hmin.symm.trans horder⟩
        · exact ⟨w, by simp [hw], heq, horder⟩
    · have hy := ih y hrest
      have hlt : o.cmp x.data y.data = .lt := by
        cases hc : o.cmp x.data y.data <;> simp_all
      rw [removeDuplicates, if_neg hxy]
      refine ⟨increasing_cons.mpr ⟨fun z hz => ?_, hy.sorted⟩, ?_, ?_, ?_, by simpa using hy.length_le⟩
      · obtain ⟨w, hw, heq⟩ := hy.mem z hz
        have hyw : (o.cmp y.data w.data).isLE := by
          rcases mem_cons.mp hw with rfl | hw
          · simp [Std.ReflCmp.compare_self]
          · exact (pairwise_cons.mp hrest).1 w hw
        rw [← heq]
        exact Std.TransCmp.lt_of_lt_of_isLE hlt hyw
      · refine forall_mem_cons.mpr ⟨⟨x, by simp, rfl⟩, fun z hz => (hy.mem z hz).imp fun w => ?_⟩
        exact And.imp_left (mem_cons_of_mem _)
      · refine forall_mem_cons.mpr ⟨⟨x, by simp, Std.ReflCmp.compare_self, le_rfl⟩, fun z hz => (hy.covers z hz).imp fun w => ?_⟩
        exact And.imp_left (mem_cons_of_mem _)
      · refine forall_mem_cons.mpr ⟨⟨x, by simp, Std.ReflCmp.compare_self, rfl⟩, fun z hz => (hy.least z hz).imp fun w => ?_⟩
        exact And.imp_left (mem_cons_of_mem _)

/-- The rdatas with their positions. -/
def numbered (rdatas : List Rdata) : List XRdata := rdatas.zipIdx.map fun r => ⟨r.1, r.2⟩

variable {rdatas : List Rdata} {x : XRdata}

theorem mem_numbered : x ∈ numbered rdatas ↔ rdatas[x.order]? = some x.toRdata := by
  constructor
  · intro h
    obtain ⟨r, hr, rfl⟩ := mem_map.mp h
    exact mem_zipIdx_iff_getElem?.mp hr
  · intro h
    exact mem_map.mpr ⟨(x.toRdata, x.order), mem_zipIdx_iff_getElem?.mpr h, rfl⟩

theorem keep_spec (q : Qsort o.cmp) (rdatas : List Rdata) : Deduplicated o (numbered rdatas) (keep o.cmp q.sort rdatas) := by
  have hperm := q.perm (numbered rdatas)
  have hsorted := q.sorted (numbered rdatas)
  unfold keep
  rw [← numbered]
  cases hl : q.sort (numbered rdatas) with
  | nil =>
    rw [hl] at hperm
    rw [← hperm.nil_eq]
    exact ⟨Pairwise.nil, by simp, by simp, by simp, le_rfl⟩
  | cons x rest =>
    rw [hl] at hperm hsorted
    have := removeDuplicates_spec o x rest hsorted
    exact ⟨this.sorted, fun y hy => by simpa only [hperm.mem_iff] using this.mem y hy,
      fun z hz => this.covers z (hperm.mem_iff.mpr hz), fun y hy => by simpa only [hperm.mem_iff] using this.least y hy,
      by simpa only [hperm.length_eq] using this.length_le⟩

theorem numbered_eq {y : XRdata} (hx : x ∈ numbered rdatas) (hy : y ∈ numbered rdatas)
    (h : x.order = y.order) : x.toRdata = y.toRdata := by
  rw [mem_numbered] at hx hy
  rw [h, hy] at hx
  exact (Option.some.inj hx).symm

theorem order_lt (hx : x ∈ numbered rdatas) : x.order < rdatas.length :=
  (List.getElem?_eq_some_iff.mp (mem_numbered.mp hx)).1

namespace Deduplicated
variable {o} {rdatas : List Rdata} {kept : List XRdata} (h : Deduplicated o (numbered rdatas) kept)
include h

theorem keys_nodup : (kept.map XRdata.order).Nodup := by
  refine Nodup.map_on (fun y hy y' hy' heq => ?_) h.sorted.nodup
  obtain ⟨x, hx, hcmp, horder⟩ := h.least y hy
  obtain ⟨x', hx', hcmp', horder'⟩ := h.least y' hy'
  have hsame := numbered_eq hx hx' (by rw [horder, horder', heq])
  rw [hsame] at hcmp
  exact h.sorted.eq_of_cmp hy hy' (Std.TransCmp.eq_trans (Std.OrientedCmp.eq_comm.mp hcmp) hcmp')

theorem keys_lt : ∀ k ∈ kept.map XRdata.order, k < rdatas.length := by
  intro k hk
  obtain ⟨y, hy, rfl⟩ := mem_map.mp hk
  obtain ⟨x, hx, -, horder⟩ := h.least y hy
  exact horder ▸ order_lt hx

theorem mem_keys {k : Nat} (hk : k < rdatas.length) :
    k ∈ kept.map XRdata.order ↔ ∀ j (hj : j < k), o.cmp (rdatas[j]).data (rdatas[k]).data ≠ .eq := by
  have hx : ∀ {j} (hj : j < rdatas.length), (⟨rdatas[j], j⟩ : XRdata) ∈ numbered rdatas := fun hj =>
    mem_numbered.mpr (getElem?_eq_getElem hj)
  constructor
  · rintro hmem j hj heq
    obtain ⟨y, hy, rfl⟩ := mem_map.mp hmem
    obtain ⟨x, hxm, hcmp, horder⟩ := h.least y hy
    have hxk : x.toRdata = rdatas[y.order] := numbered_eq hxm (hx hk) horder
    obtain ⟨z, hz, hcmpz, hle⟩ := h.covers _ (hx (hj.trans hk))
    rw [hxk] at hcmp
    have hzy : o.cmp z.data y.data = .eq :=
      Std.TransCmp.eq_trans (Std.OrientedCmp.eq_comm.mp hcmpz) (Std.TransCmp.eq_trans heq hcmp)
    rw [h.sorted.eq_of_cmp hz hy hzy] at hle
    exact absurd hj (Nat.not_lt.mpr hle)
  · intro hfirst
    obtain ⟨y, hy, hcmp, hle⟩ := h.covers _ (hx hk)
    obtain ⟨x, hxm, hcmpx, horder⟩ := h.least y hy
    have hlt := order_lt hxm
    have hxk : x.toRdata = rdatas[x.order] := numbered_eq hxm (hx hlt) rfl
    rcases Nat.lt_or_eq_of_le hle with hlt' | heq
    · refine absurd ?_ (hfirst x.order (horder ▸ hlt'))
      rw [← hxk]
      exact Std.TransCmp.eq_trans hcmpx (Std.OrientedCmp.eq_comm.mp hcmp)
    · exact mem_map.mpr ⟨y, hy, heq⟩

end Deduplicated

/-! ### Rdatasets -/

/-- An rdataset of a type, of at most 65535 valid rdatas. -/
structure Rdataset (f : Format) where
  rdatas : List Rdata
  valid : ∀ r ∈ rdatas, o.valid r.data
  count_le : rdatas.length ≤ 0xffff
  length_le : ∀ r ∈ rdatas, r.data.length ≤ 0xffff
  single : f.singleton → rdatas.length ≤ 1

/-- The positions of the rdatas that none before is equal to. -/
def firstPositions (cmp : Bytes → Bytes → Ordering) (rdatas : List Rdata) : List (Fin rdatas.length) :=
  (finRange rdatas.length).filter fun i => ∀ j < i, cmp (rdatas.get j).data (rdatas.get i).data ≠ .eq

/-- The rdatas that none before is equal to, in load order. -/
def firsts (cmp : Bytes → Bytes → Ordering) (rdatas : List Rdata) : List Rdata :=
  (firstPositions cmp rdatas).map rdatas.get

/-- What a slab must give back of an rdataset. -/
structure RoundTrip (f : Format) (q : Qsort o.cmp) (rdatas : List Rdata) (reservelen : Nat) (slab : Bytes) : Prop where
  increasing : Increasing o.cmp (·.data) (decode f slab reservelen)
  contents : ∀ r ∈ decode f slab reservelen, ∃ x ∈ rdatas, x.data = r.data
  covers : ∀ x ∈ rdatas, ∃ r ∈ decode f slab reservelen, o.cmp r.data x.data = .eq
  offline : f.rrsig → (decode f slab reservelen).map SlabRdata.toRdata = (keep o.cmp q.sort rdatas).map XRdata.toRdata
  load : f.fixed → (loadOrder f slab reservelen).Perm (decode f slab reservelen) ∧
    Forall₂ (fun r x => o.cmp r.data x.data = .eq) (loadOrder f slab reservelen) (firsts o.cmp rdatas)
  size : slabSize f slab reservelen = slab.length

/-- The slab is written, and read back. -/
def Encodes (f : Format) (q : Qsort o.cmp) (rdatas : List Rdata) (reservelen : Nat) : Prop :=
  ∃ slab, fromrdataset f o.cmp q.sort rdatas reservelen = .ok (.success slab) ∧ RoundTrip o f q rdatas reservelen slab

/-- How many rdatas that are kept come before one in load order. -/
def place (kept : List XRdata) (x : XRdata) : Nat := kept.countP (·.order < x.order)

/-- When rdatasets are encoded rightly. -/
structure Encodable (f : Format) (q : Qsort o.cmp) (rdatas : List Rdata) (reservelen : Nat) : Prop where
  nonempty : rdatas ≠ [] ∨ f.type = 0
  short : f.rrsig → ∀ x ∈ keep o.cmp q.sort rdatas, x.data.length < 0xffff
  size : reservelen + 2 + ((keep o.cmp q.sort rdatas).map fun x => f.space x.data.length).sum < 2 ^ 32
  flag : f.fixed → f.rrsig → ∀ x ∈ keep o.cmp q.sort rdatas,
    x.offline ↔ place (keep o.cmp q.sort rdatas) x / 2 ^ 8 % 2 = 1

/-! ### Writing the rdatas that are kept -/

theorem length_part (r : Rdata) : (f.part r).length = r.data.length + if f.rrsig then 1 else 0 := by
  unfold Format.part
  split <;> simp

theorem data_part (r : Rdata) : f.data (f.part r) = r.data := by
  unfold Format.data Format.part
  split <;> simp

theorem foldlM_ne_ok {σ α : Type} {step : σ → α → Except Fault σ} {l : List α} {x : α} (hx : x ∈ l)
    (h : ∀ s s', step s x ≠ .ok s') (s s' : σ) : l.foldlM step s ≠ .ok s' := by
  induction l generalizing s with
  | nil => cases hx
  | cons y l ih =>
    rw [foldlM_cons]
    cases hy : step s y with
    | error e => simp [bind, Except.bind]
    | ok t =>
      rcases mem_cons.mp hx with rfl | hx
      · exact absurd hy (h s t)
      · exact ih hx t

/-- The records of the rdatas that are kept, if they fit their fields. -/
def keptDraft (q : Qsort o.cmp) {rdatas : List Rdata} (hcount : rdatas.length ≤ 0xffff) (reservelen : Nat)
    (h : ∀ x ∈ keep o.cmp q.sort rdatas, (f.part x.toRdata).length ≤ 0xffff) : Draft f where
  header := replicate reservelen 0
  items := (keep o.cmp q.sort rdatas).map fun x => (x.order, f.part x.toRdata)
  nalloc := rdatas.length
  count_le := by
    have := (keep_spec o q rdatas).length_le
    simp only [numbered, length_map, length_zipIdx] at this ⊢
    exact this.trans hcount
  parts := by
    intro _ hi
    obtain ⟨x, hx, rfl⟩ := mem_map.mp hi
    refine ⟨h x hx, fun hr => ?_⟩
    simp [Format.part, hr]
  nodup := by
    intro _
    rw [map_map]
    exact (keep_spec o q rdatas).keys_nodup
  keys := by
    intro _
    rw [map_map]
    exact (keep_spec o q rdatas).keys_lt

theorem copyRdata_eq {limit base : Nat} {kept : List XRdata} (h : ∀ x ∈ kept, (f.part x.toRdata).length ≤ 0xffff)
    (out : Out) : kept.foldlM (copyRdata f limit base) out =
      (kept.map fun x => (x.order, f.part x.toRdata)).foldlM (copyItem f (fun _ => 0) limit base) out := by
  induction kept generalizing out with
  | nil => rfl
  | cons x kept ih =>
    obtain ⟨hx, hkept⟩ := forall_mem_cons.mp h
    have hstep : copyRdata f limit base out x = copyItem f (fun _ => 0) limit base out (x.order, f.part x.toRdata) := by
      rw [copyRdata, insist_ok hx, newRecord_eq]
      rfl
    simpa [hstep] using congrArg _ (funext fun out => ih hkept out)

theorem sum_space (kept : List XRdata) : (kept.map fun x => f.space x.data.length).sum =
    (if f.fixed then 4 * kept.length else 0) + (records f (kept.map fun x => (x.order, f.part x.toRdata))).length := by
  induction kept with
  | nil => simp
  | cons x kept ih =>
    rw [map_cons, sum_cons, ih, map_cons, records_cons, length_append, length_record, recordLength,
      length_part, length_cons, Format.space]
    split <;> omega

section
variable {rdatas : List Rdata} (hcount : rdatas.length ≤ 0xffff) (reservelen : Nat)

include hcount in
theorem fromrdataset_eq (hsingle : ¬((keep o.cmp q.sort rdatas).length > 1 ∧ f.singleton)) (hne : rdatas ≠ []) : fromrdataset f o.cmp q.sort rdatas reservelen = do
    let out ← (keep o.cmp q.sort rdatas).foldlM (copyRdata f ((reservelen + 2 +
        ((keep o.cmp q.sort rdatas).map fun x => f.space x.data.length).sum) % 2 ^ 32) reservelen)
      (startOut f (replicate reservelen 0) (keep o.cmp q.sort rdatas).length rdatas.length)
    return .success (fillinOffsets f reservelen out) := by
  have hlen : rdatas.length ≠ 0 := fun h => hne (eq_nil_of_length_eq_zero h)
  rw [fromrdataset, if_neg hlen, if_neg (Nat.not_lt.mpr hcount)]
  simp only [if_neg hsingle]

theorem keep_nil : keep o.cmp q.sort [] = [] := by
  have := (keep_spec o q []).length_le
  exact eq_nil_of_length_eq_zero (Nat.le_zero.mp this)

theorem keep_ne_nil {rdatas : List Rdata} (hne : rdatas ≠ []) : keep o.cmp q.sort rdatas ≠ [] := by
  obtain ⟨r, rest, rfl⟩ := exists_cons_of_ne_nil hne
  have hmem : (⟨r, 0⟩ : XRdata) ∈ numbered (r :: rest) := mem_numbered.mpr rfl
  obtain ⟨y, hy, -⟩ := (keep_spec o q (r :: rest)).covers _ hmem
  exact ne_nil_of_mem hy

include hcount in
theorem fromrdataset_long (hsingle : ¬((keep o.cmp q.sort rdatas).length > 1 ∧ f.singleton))
    (hne : rdatas ≠ []) {x : XRdata} (hx : x ∈ keep o.cmp q.sort rdatas)
    (hlong : ¬(f.part x.toRdata).length ≤ 0xffff) (outcome : Outcome) :
    fromrdataset f o.cmp q.sort rdatas reservelen ≠ .ok outcome := by
  rw [fromrdataset_eq o hcount reservelen hsingle hne]
  intro hok
  obtain ⟨out, hfold, -⟩ := bind_ok hok
  refine foldlM_ne_ok hx (fun out out' hstep => ?_) _ _ hfold
  rw [copyRdata, insist_error hlong] at hstep
  cases hstep

variable {o hcount reservelen} {h : ∀ x ∈ keep o.cmp q.sort rdatas, (f.part x.toRdata).length ≤ 0xffff} {d : Draft f}
  (hd : keptDraft o q hcount reservelen h = d)
include hd

theorem header_kept : d.header = replicate reservelen 0 := hd ▸ rfl

theorem items_kept : d.items = (keep o.cmp q.sort rdatas).map fun x => (x.order, f.part x.toRdata) := hd ▸ rfl

theorem nalloc_kept : d.nalloc = rdatas.length := hd ▸ rfl

theorem size_kept : d.size =
    reservelen + 2 + ((keep o.cmp q.sort rdatas).map fun x => f.space x.data.length).sum := by
  rw [sum_space, ← Nat.add_assoc]
  simp only [Draft.size, header_kept hd, items_kept hd, length_replicate, length_map]

theorem fromrdataset_ok (hsingle : ¬((keep o.cmp q.sort rdatas).length > 1 ∧ f.singleton))
    (hne : rdatas ≠ [] ∨ f.type = 0) (hsize : d.size < 2 ^ 32) :
    fromrdataset f o.cmp q.sort rdatas reservelen = .ok (.success d.content.slab) := by
  by_cases hnil : rdatas = []
  · have htype : f.type = 0 := hne.resolve_left (not_not.mpr hnil)
    have hkeep : keep o.cmp q.sort rdatas = [] := by rw [hnil, keep_nil]
    have hslab : d.content.slab = replicate reservelen 0 ++ be16 0 := by
      simp [Content.slab, layout, hkeep, Content.table, header_kept hd, items_kept hd]
    have hlt : ¬(reservelen + 2) % 2 ^ 32 < reservelen + 2 := by
      rw [size_kept hd, hkeep, map_nil, sum_nil, Nat.add_zero] at hsize
      rw [Nat.mod_eq_of_lt hsize]
      exact lt_irrefl _
    rw [fromrdataset, hslab, hnil, length_nil, if_pos rfl, if_neg (not_not.mpr htype), if_neg hlt]
  · obtain ⟨out, hcopy, -, hfill⟩ := d.copy_ok (fun _ => 0) le_rfl hsize
    rw [fromrdataset_eq o hcount reservelen hsingle hnil, ← size_kept hd, Nat.mod_eq_of_lt hsize]
    simp only [header_kept hd, items_kept hd, nalloc_kept hd, length_replicate, length_map] at hcopy hfill
    simp only [copyRdata_eq h, hcopy]
    exact congrArg (fun slab => Except.ok (Outcome.success slab)) hfill

theorem fromrdataset_overrun (hsingle : ¬((keep o.cmp q.sort rdatas).length > 1 ∧ f.singleton))
    (hne : rdatas ≠ []) (hsize : 2 ^ 32 ≤ d.size) :
    fromrdataset f o.cmp q.sort rdatas reservelen = .error .overrun := by
  have hlimit : d.size % 2 ^ 32 < d.size :=
    lt_of_lt_of_le (Nat.mod_lt _ (by decide)) hsize
  have hcopy := d.copy_overrun (fun _ => 0) hlimit (by
    rw [items_kept hd, ne_eq, map_eq_nil_iff]
    exact keep_ne_nil o hne)
  rw [fromrdataset_eq o hcount reservelen hsingle hne, ← size_kept hd]
  simp only [header_kept hd, items_kept hd, nalloc_kept hd, length_replicate, length_map] at hcopy
  simp only [copyRdata_eq h, hcopy]
  rfl

/-! ### Reading them back -/

theorem decode_kept : decode f d.content.slab reservelen =
    (keep o.cmp q.sort rdatas).map fun x =>
      f.read (d.rank x.order, f.part x.toRdata) := by
  have := d.content.decode_slab
  simpa [Function.comp_def, header_kept hd, items_kept hd] using this

omit hd in
theorem and_offline (n : Nat) : (UInt8.ofNat n &&& OFFLINE != 0) = decide (n % 2 = 1) := by
  have hand : (UInt8.ofNat n &&& OFFLINE).toNat = n % 2 := by
    have hone : OFFLINE.toNat = 1 := rfl
    rw [UInt8.toNat_and, UInt8.toNat_ofNat', hone, Nat.and_one_is_mod]
    omega
  rw [Bool.eq_iff_iff, bne_iff_ne, decide_eq_true_iff, ne_eq, ← UInt8.toNat_inj, UInt8.toNat_zero]
  omega

theorem rank_kept (hf : f.fixed) {x : XRdata} (hx : x ∈ keep o.cmp q.sort rdatas) :
    d.rank x.order = place (keep o.cmp q.sort rdatas) x := by
  have hmem : x.order ∈ d.items.map Prod.fst := by
    simpa [items_kept hd] using mem_map_of_mem hx
  rw [d.rank_eq hf hmem, items_kept hd, map_map, countP_map]
  rfl

/-- For signatures, what is read is what was kept, but in the fixed format the place takes the place of the flag. -/
theorem offline_kept (hr : f.rrsig) : (decode f d.content.slab reservelen).map
      SlabRdata.toRdata = (keep o.cmp q.sort rdatas).map XRdata.toRdata ↔
    (f.fixed → ∀ x ∈ keep o.cmp q.sort rdatas, x.offline ↔ place (keep o.cmp q.sort rdatas) x / 2 ^ 8 % 2 = 1) := by
  rw [decode_kept hd, map_map, map_inj_left]
  have hread : ∀ x ∈ keep o.cmp q.sort rdatas,
      (SlabRdata.toRdata (f.read (d.rank x.order, f.part x.toRdata)) = x.toRdata ↔
        (f.fixed → (x.offline ↔ place (keep o.cmp q.sort rdatas) x / 2 ^ 8 % 2 = 1))) := by
    intro x hx
    have hdata : SlabRdata.toRdata (f.read (d.rank x.order, f.part x.toRdata)) = x.toRdata ↔
        (f.flag (d.rank x.order) (f.part x.toRdata) &&& OFFLINE != 0) = x.offline := by
      simp [Format.read, Rdata.ext_iff, data_part, hr]
    rw [hdata]
    by_cases hf : f.fixed
    · rw [Format.flag, if_pos hf, and_offline, rank_kept hd hf hx]
      simp only [hf, forall_const]
      rw [eq_comm, Bool.eq_iff_iff, decide_eq_true_iff]
    · simp only [Format.flag, if_neg hf, Format.part, if_pos hr, getD_cons_zero]
      cases x.offline <;> simp [hf, OFFLINE]
  constructor
  · exact fun hall hf x hx => (hread x hx).mp (hall x hx) hf
  · exact fun hall x hx => (hread x hx).mpr fun hf => hall hf x hx

theorem sorted_kept : d.sorted = (firstPositions o.cmp rdatas).map Fin.val := by
  subst hd
  rw [Draft.sorted, ← map_coe_finRange_eq_range, filter_map]
  refine congrArg _ (filter_congr fun i _ => ?_)
  have hkeys := (keep_spec o q rdatas).mem_keys i.isLt
  rw [Function.comp_apply, decide_eq_decide, items_kept rfl, map_map]
  exact hkeys.trans ⟨fun hall j hj => hall j hj, fun hall j hj => hall ⟨j, hj.trans i.isLt⟩ hj⟩

theorem load_kept (hf : f.fixed) (hsize : d.size < 2 ^ 32) :
    (loadOrder f d.content.slab reservelen).Perm
        (decode f d.content.slab reservelen) ∧
      Forall₂ (fun r x => o.cmp r.data x.data = .eq)
        (loadOrder f d.content.slab reservelen) (firsts o.cmp rdatas) := by
  have hreserve : d.content.header.length = reservelen := hd ▸ length_replicate
  obtain ⟨items, hperm, hrange, hload⟩ := d.content.loadOrder_slab hf
    ((Draft.length_slab _).trans_lt hsize)
  have hdecode := d.content.decode_slab
  rw [hreserve] at hload hdecode
  rw [hload, hdecode]
  refine ⟨hperm.map _, ?_⟩
  have hsorted := sorted_kept hd
  have hlen : items.length = (firstPositions o.cmp rdatas).length := by
    rw [hperm.length_eq, Draft.content_items, length_map, ← Draft.length_sorted _ hf, hsorted, length_map]
  rw [firsts, forall₂_map_left_iff, forall₂_map_right_iff, forall₂_iff_get]
  refine ⟨hlen, fun j hj hj' => ?_⟩
  -- the record in place `j` is that of an rdata that is kept, and its key is the position in place `j`
  obtain ⟨i, hi, heq⟩ := mem_map.mp (hperm.mem_iff.mp (getElem_mem hj))
  obtain ⟨x, hx, rfl⟩ := mem_map.mp (items_kept hd ▸ hi)
  have hplace : d.rank x.order = j := by
    have hfst : (items.map Prod.fst)[j]? = some j := by
      rw [hrange, getElem?_range (by rwa [← hperm.length_eq])]
    rw [getElem?_map, getElem?_eq_getElem hj, ← heq] at hfst
    exact Option.some.inj hfst
  have hpos : ((firstPositions o.cmp rdatas).get ⟨j, hj'⟩).val = x.order := by
    have hmem : x.order ∈ d.sorted := by
      rw [d.mem_sorted hf, items_kept hd, map_map]
      exact mem_map_of_mem hx
    have hget := getElem?_idxOf hmem
    rw [← Draft.rank, hplace, hsorted, getElem?_map, getElem?_eq_getElem hj'] at hget
    exact Option.some.inj hget
  obtain ⟨y, hy, hcmp, horder⟩ := (keep_spec o q rdatas).least x hx
  have hfirst : rdatas.get ((firstPositions o.cmp rdatas).get ⟨j, hj'⟩) = y.toRdata := by
    have := mem_numbered.mp hy
    rw [horder, ← hpos] at this
    exact (List.getElem?_eq_some_iff.mp this).2
  rw [hfirst, get_eq_getElem, ← heq]
  simp only [Format.read, data_part]
  exact Std.OrientedCmp.eq_comm.mp hcmp

theorem roundTrip_kept (hsize : d.size < 2 ^ 32)
    (hflag : f.fixed → f.rrsig → ∀ x ∈ keep o.cmp q.sort rdatas,
      x.offline ↔ place (keep o.cmp q.sort rdatas) x / 2 ^ 8 % 2 = 1) :
    RoundTrip o f q rdatas reservelen d.content.slab := by
  have hkept := keep_spec o q rdatas
  refine ⟨?_, ?_, ?_, fun hr => ?_, fun hf => load_kept hd hf hsize, ?_⟩
  · rw [decode_kept hd]
    refine Pairwise.map _ (fun x y hlt => ?_) hkept.sorted
    simpa only [Format.read, data_part] using hlt
  · intro r hr
    rw [decode_kept hd] at hr
    obtain ⟨y, hy, rfl⟩ := mem_map.mp hr
    obtain ⟨x, hx, heq⟩ := hkept.mem y hy
    refine ⟨x.toRdata, mem_of_getElem? (mem_numbered.mp hx), ?_⟩
    simp only [Format.read, data_part, heq]
  · intro r hr
    obtain ⟨k, hk⟩ := getElem?_of_mem hr
    obtain ⟨y, hy, hcmp, -⟩ := hkept.covers ⟨r, k⟩ (mem_numbered.mpr hk)
    refine ⟨_, by rw [decode_kept hd]; exact mem_map_of_mem hy, ?_⟩
    simp only [Format.read, data_part]
    exact Std.OrientedCmp.eq_comm.mp hcmp
  · exact (offline_kept hd hr).mpr fun hf => hflag hf hr
  · have := d.content.slabSize_slab
    rw [Draft.length_slab, Nat.mod_eq_of_lt hsize, ← Draft.length_slab] at this
    simpa [header_kept hd] using this

end

theorem fromrdataset_inv {reservelen : Nat} {slab : Bytes}
    (hok : fromrdataset f o.cmp q.sort rdatas reservelen = .ok (.success slab)) :
    (rdatas ≠ [] ∨ f.type = 0) ∧ ∃ (hcount : rdatas.length ≤ 0xffff)
      (h : ∀ x ∈ keep o.cmp q.sort rdatas, (f.part x.toRdata).length ≤ 0xffff),
      (keptDraft o q hcount reservelen h).size < 2 ^ 32 ∧ slab = (keptDraft o q hcount reservelen h).content.slab := by
  have hne : rdatas ≠ [] ∨ f.type = 0 := by
    by_contra hcon
    rw [not_or, not_not] at hcon
    rw [fromrdataset, hcon.1, if_pos hcon.2] at hok
    cases hok
  suffices hfits : ∃ hcount h, ¬((keep o.cmp q.sort rdatas).length > 1 ∧ f.singleton) ∧
      (keptDraft o q (f := f) hcount reservelen h).size < 2 ^ 32 by
    obtain ⟨hcount, hparts, hsingle, hsize⟩ := hfits
    have hslab := fromrdataset_ok rfl hsingle hne hsize
    rw [hok] at hslab
    exact ⟨hne, hcount, hparts, hsize, Outcome.success.inj (Except.ok.inj hslab)⟩
  by_cases hnil : rdatas = []
  · have htype := hne.resolve_left (not_not.mpr hnil)
    refine ⟨by simp [hnil], by simp [hnil, keep_nil], by simp [hnil, keep_nil], ?_⟩
    rw [size_kept rfl, hnil, keep_nil]
    by_contra hlarge
    have hmod : (reservelen + 2) % 2 ^ 32 < reservelen + 2 :=
      lt_of_lt_of_le (Nat.mod_lt _ (by decide)) (not_lt.mp hlarge)
    rw [fromrdataset, hnil, if_neg (not_not.mpr htype), if_pos hmod] at hok
    cases hok
  · have hlen : rdatas.length ≠ 0 := fun h => hnil (eq_nil_of_length_eq_zero h)
    have hcount : rdatas.length ≤ 0xffff := by
      by_contra hlarge
      rw [fromrdataset, if_neg hlen, if_pos (not_le.mp hlarge)] at hok
      cases hok
    have hsingle : ¬((keep o.cmp q.sort rdatas).length > 1 ∧ f.singleton) := by
      intro hsingle
      rw [fromrdataset, if_neg hlen, if_neg (not_lt.mpr hcount)] at hok
      simp only [if_pos hsingle] at hok
      cases hok
    have hparts : ∀ x ∈ keep o.cmp q.sort rdatas, (f.part x.toRdata).length ≤ 0xffff := by
      intro x hx
      by_contra hlong
      exact fromrdataset_long o hcount reservelen hsingle hnil hx hlong _ hok
    refine ⟨hcount, hparts, hsingle, ?_⟩
    by_contra hlarge
    rw [fromrdataset_overrun (h := hparts) rfl hsingle hnil (not_lt.mp hlarge)] at hok
    cases hok

/-- An rdataset is encoded and decoded rightly just in these cases: it has an rdata or no type; no signature has 65535
    octets, as the length counts the meta data; the slab has less than 2^32 octets; and in the fixed format, the flags of
    signatures are those that their places in load order happen to give. -/
theorem fromrdataset_encodes_iff (q : Qsort o.cmp) (s : Rdataset o f) (reservelen : Nat) :
    Encodes o f q s.rdatas reservelen ↔ Encodable o f q s.rdatas reservelen := by
  have hshort : (f.rrsig → ∀ x ∈ keep o.cmp q.sort s.rdatas, x.data.length < 0xffff) ↔
      ∀ x ∈ keep o.cmp q.sort s.rdatas, (f.part x.toRdata).length ≤ 0xffff := by
    have hlen : ∀ y ∈ keep o.cmp q.sort s.rdatas, y.data.length ≤ 0xffff := by
      intro y hy
      obtain ⟨x, hx, heq⟩ := (keep_spec o q s.rdatas).mem y hy
      rw [← heq]
      exact s.length_le _ (mem_of_getElem? (mem_numbered.mp hx))
    simp only [length_part]
    by_cases hr : f.rrsig
    · simp only [hr, forall_const, if_true]
      rfl
    · simpa [hr] using hlen
  have hsingle : ¬((keep o.cmp q.sort s.rdatas).length > 1 ∧ f.singleton) := by
    rintro ⟨hgt, hsingle⟩
    have := (keep_spec o q s.rdatas).length_le
    simp only [numbered, length_map, length_zipIdx] at this
    exact absurd (this.trans (s.single hsingle)) (Nat.not_le.mpr hgt)
  constructor
  · rintro ⟨slab, hok, htrip⟩
    obtain ⟨hne, hcount, hparts, hsize, rfl⟩ := fromrdataset_inv o hok
    refine ⟨hne, hshort.mpr hparts, by rwa [size_kept rfl] at hsize, fun hf hr => ?_⟩
    exact (offline_kept rfl hr).mp (htrip.offline hr) hf
  · intro henc
    have hparts := hshort.mp henc.short
    have hsize : (keptDraft o q s.count_le reservelen hparts).size < 2 ^ 32 := by
      rw [size_kept rfl]
      exact henc.size
    exact ⟨_, fromrdataset_ok rfl hsingle henc.nonempty hsize,
      roundTrip_kept rfl hsize henc.flag⟩

end

/-- Octets compared one by one, as `isc_region_compare` does, for rdatas of these lengths. -/
def octetOrder (lengthOk : Nat → Bool) : RdataOrder where
  valid data := lengthOk data.length
  compare a b := compare a.val b.val
  trans := inferInstanceAs (Std.TransCmp (compareOn Subtype.val))

def insertionQsort (o : RdataOrder) : Qsort o.cmp where
  sort := insertionSort fun x y => (o.cmp x.data y.data).isLE
  perm := perm_insertionSort _
  sorted l := by
    have htotal : Std.Total fun x y : XRdata => (o.cmp x.data y.data).isLE := ⟨fun x y => by
      have hswap : o.cmp y.data x.data = (o.cmp x.data y.data).swap := Std.OrientedCmp.eq_swap
      rw [hswap]
      cases o.cmp x.data y.data <;> simp⟩
    have htrans : IsTrans XRdata fun x y => (o.cmp x.data y.data).isLE := ⟨fun _ _ _ => Std.TransCmp.isLE_trans⟩
    exact pairwise_insertionSort _ l

/-- The order of `compare_rrsig`. -/
def rrsigOrder : RdataOrder := octetOrder (· ≠ 0)

/-- A signature that is not at hand now. It covers addresses, and the signer is the root. -/
def offlineRrsig : Rdata := ⟨[0, 1, 8, 2] ++ replicate 14 0 ++ [0, 1], true⟩

/-- In the fixed format, the flag of a signature that stands alone is lost. -/
theorem offline_lost : ∃ s : Rdataset rrsigOrder ⟨true, TYPE_RRSIG, false⟩, s.rdatas = [offlineRrsig] ∧
    ¬Encodes rrsigOrder ⟨true, TYPE_RRSIG, false⟩ (insertionQsort rrsigOrder) s.rdatas 0 := by
  refine ⟨⟨[offlineRrsig], by decide, by decide, by decide, by decide⟩, rfl, ?_⟩
  rintro ⟨slab, hok, htrip⟩
  cases hok
  exact absurd (htrip.offline rfl) (by decide)

end OqsBind.Dns.Slab
