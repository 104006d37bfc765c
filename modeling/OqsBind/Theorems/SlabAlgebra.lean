import OqsBind.Theorems.SlabMerge
import Mathlib.Algebra.Order.BigOperators.Group.List
import Mathlib.Algebra.Order.Group.Nat

/-! What merging and subtracting give, for the slabs that can be built. -/

namespace OqsBind.Dns.Slab
open Isc List

section
variable {f : Format} {o : RdataOrder} {reservelen : Nat}

/-- What a slab stores of an rdata: its data, and this with the meta data. -/
def Format.stored (f : Format) (r : SlabRdata) : Bytes × Bytes := (r.data, f.slabPart r)

theorem Draft.held_stored (d : Draft f) (hres : d.header.length = reservelen)
    (hinc : Increasing o.cmp (fun i => f.data i.2) d.items) (hsize : d.size < 2 ^ 32) :
    (d.held hres hinc hsize).rdatas.map f.stored = d.items.map fun i => (f.data i.2, i.2) := by
  simp [Held.rdatas, Draft.held, Format.stored, Function.comp_def]

namespace Held
variable (a b : Held o f reservelen) (flags : Flags)

/-! ### Union -/

section
variable (hcount : a.rdatas.length + (a.added b).length ≤ 0xffff) (hsize : a.unionSize b < 2 ^ 32)

theorem unionDraft_increasing : Increasing o.cmp (fun i => f.data i.2) (a.unionDraft b hcount).items := by
  refine pairwise_map.mpr ((a.merged_increasing b).imp_of_mem fun {x y} hx hy hlt => ?_)
  simpa only [Format.item, a.merged_data b hx, a.merged_data b hy] using hlt

/-- The result of a merge. -/
def union : Held o f reservelen :=
  (a.unionDraft b hcount).held (show (a.unionDraft b hcount).header.length = _ from b.reserve) (a.unionDraft_increasing b hcount)
    (by rwa [unionDraft_size])

theorem union_stored :
    ((a.union b hcount hsize).rdatas.map f.stored).Perm ((a.rdatas ++ a.added b).map f.stored) := by
  have hmerged : ((a.unionDraft b hcount).items.map fun i => (f.data i.2, i.2)) =
      ((a.merged b).map Prod.snd).map f.stored := by
    simp only [unionDraft, map_map]
    refine map_congr_left fun x hx => ?_
    simp [Format.item, Format.stored, a.merged_data b hx]
  rw [union, Draft.held_stored, hmerged]
  exact (a.merged_snd b).map _

variable (ha : a.rdatas ≠ []) (hb : b.rdatas ≠ []) (hchange : ¬(a.added b = [] ∧ ¬flags.force))
  (hsingle : ¬(a.rdatas.length + (a.added b).length > 1 ∧ f.singleton))
include hcount ha hb hchange hsingle

theorem merge_ok : merge f o.cmp a.slab b.slab reservelen flags = .ok (.success (a.union b hcount hsize).slab) := by
  have hdraft : (a.unionDraft b hcount).size < 2 ^ 32 := by rwa [unionDraft_size]
  obtain ⟨out, hcopy, hlen, hfill⟩ := (a.unionDraft b hcount).copy_ok (fun _ => 0) le_rfl hdraft
  rw [unionDraft_size] at hcopy hlen
  simp only [unionDraft, length_map, length_merged, b.reserve] at hcopy hfill
  rw [a.merge_eq b flags ha hb, if_neg hchange, if_neg hsingle, if_neg (Nat.not_lt.mpr hcount), Nat.mod_eq_of_lt hsize,
    hcopy]
  simp only [bind, Except.bind, insist_ok hlen, hfill]
  rfl

theorem merge_overrun (hlarge : 2 ^ 32 ≤ a.unionSize b) :
    merge f o.cmp a.slab b.slab reservelen flags = .error .overrun := by
  have hlimit : a.unionSize b % 2 ^ 32 < (a.unionDraft b hcount).size := by
    rw [unionDraft_size]
    exact lt_of_lt_of_le (Nat.mod_lt _ (by decide)) hlarge
  have hne : (a.unionDraft b hcount).items ≠ [] := by
    rw [← length_pos_iff]
    simp only [unionDraft, length_map, length_merged]
    have := length_pos_iff.mpr ha
    omega
  have hcopy := (a.unionDraft b hcount).copy_overrun (fun _ => 0) hlimit hne
  simp only [unionDraft, length_map, length_merged, b.reserve] at hcopy
  rw [a.merge_eq b flags ha hb, if_neg hchange, if_neg hsingle, if_neg (Nat.not_lt.mpr hcount), hcopy]
  rfl

end

theorem merge_cases (ha : a.rdatas ≠ []) (hb : b.rdatas ≠ []) :
    (a.added b = [] ∧ ¬flags.force) ∧ merge f o.cmp a.slab b.slab reservelen flags = .ok .unchanged ∨
    ¬(a.added b = [] ∧ ¬flags.force) ∧
      ((¬(a.rdatas ++ a.added b).length ≤ (if f.singleton then 1 else 0xffff) ∧
          (merge f o.cmp a.slab b.slab reservelen flags = .ok .singleton ∨
            merge f o.cmp a.slab b.slab reservelen flags = .ok .nospace)) ∨
        (¬a.unionSize b < 2 ^ 32 ∧ merge f o.cmp a.slab b.slab reservelen flags = .error .overrun) ∨
        ((a.rdatas ++ a.added b).length ≤ (if f.singleton then 1 else 0xffff) ∧ ∃ hcount, ∃ hsize : a.unionSize b < 2 ^ 32,
          merge f o.cmp a.slab b.slab reservelen flags = .ok (.success (a.union b hcount hsize).slab))) := by
  rw [length_append]
  by_cases hchange : a.added b = [] ∧ ¬flags.force
  · exact .inl ⟨hchange, by rw [a.merge_eq b flags ha hb, if_pos hchange]⟩
  refine .inr ⟨hchange, ?_⟩
  by_cases hsingle : a.rdatas.length + (a.added b).length > 1 ∧ f.singleton
  · refine .inl ⟨?_, .inl (by rw [a.merge_eq b flags ha hb, if_neg hchange, if_pos hsingle])⟩
    rw [if_pos hsingle.2]
    exact Nat.not_le.mpr hsingle.1
  by_cases hcount : a.rdatas.length + (a.added b).length ≤ 0xffff
  · refine .inr ?_
    by_cases hsize : a.unionSize b < 2 ^ 32
    · refine .inr ⟨?_, hcount, hsize, a.merge_ok b flags hcount hsize ha hb hchange hsingle⟩
      split
      · rename_i hs
        exact Nat.not_lt.mp fun hlt => hsingle ⟨hlt, hs⟩
      · exact hcount
    · exact .inl ⟨hsize, a.merge_overrun b flags hcount ha hb hchange hsingle (not_lt.mp hsize)⟩
  · refine .inl ⟨fun hle => hcount (hle.trans ?_), .inr ?_⟩
    · split <;> decide
    · rw [a.merge_eq b flags ha hb, if_neg hchange, if_neg hsingle, if_pos (not_le.mp hcount)]

/-! ### Difference -/

/-- The rdatas that are not subtracted. -/
def rest : List SlabRdata := a.rdatas.filter fun r => !among o.cmp (·.data) b.rdatas r

theorem mem_rest {r : SlabRdata} : r ∈ a.rest b ↔ r ∈ a.rdatas ∧ ¬among o.cmp (·.data) b.rdatas r := by
  simp [rest]

/-- The records that are not subtracted. -/
def restDraft : Draft f where
  header := a.header
  items := (a.rest b).map fun r => (r.order, f.slabPart r)
  nalloc := a.rdatas.length
  count_le := by
    rw [length_map]
    exact (length_filter_le _ _).trans a.length_le
  parts := by
    intro _ hi
    obtain ⟨r, hr, rfl⟩ := mem_map.mp hi
    exact a.partOk ((a.mem_rest b).mp hr).1
  nodup := by
    intro hf
    rw [map_map]
    exact (a.orders_nodup hf).sublist (Sublist.map _ filter_sublist)
  keys := by
    intro hf k hk
    rw [map_map] at hk
    obtain ⟨r, hr, rfl⟩ := mem_map.mp hk
    exact a.rdata_order_lt hf ((a.mem_rest b).mp hr).1

theorem restDraft_size : (a.restDraft b).size = reservelen + 2 + ((a.rest b).map fun r => r.record.length).sum +
    if f.fixed then 4 * (a.rest b).length else 0 := by
  have hrec : (records f (a.restDraft b).items).length = ((a.rest b).map fun r => r.record.length).sum := by
    rw [length_records, restDraft, map_map]
    refine congrArg _ (map_congr_left fun r hr => ?_)
    rw [a.record_eq ((a.mem_rest b).mp hr).1, length_record]
    rfl
  rw [Draft.size, hrec]
  simp only [restDraft, length_map, a.reserve]
  omega

theorem restDraft_small : (a.restDraft b).size < 2 ^ 32 := by
  have hsum : ((a.rest b).map fun r => r.record.length).sum ≤ (records f a.items).length := by
    have hall : (records f a.items).length = (a.rdatas.map fun r => r.record.length).sum := by
      rw [length_records, rdatas, map_map]
      exact congrArg _ (map_congr_left fun i _ => (length_record i.1 i.2).symm)
    rw [hall]
    exact (Sublist.map _ filter_sublist).sum_le_sum (fun _ _ => Nat.zero_le _)
  have hcount : (a.rest b).length ≤ a.items.length := by
    have := length_filter_le (fun r => !among o.cmp (·.data) b.rdatas r) a.rdatas
    simpa only [rest, rdatas, length_map] using this
  have hslab := a.small
  rw [Content.length_slab, Content.length_front, a.reserve] at hslab
  rw [restDraft_size]
  split at hslab <;> rename_i hf
  · rw [if_pos hf]
    omega
  · rw [if_neg hf]
    omega

theorem restDraft_increasing : Increasing o.cmp (fun i => f.data i.2) (a.restDraft b).items := by
  refine pairwise_map.mpr ((a.rdatas_increasing.filter _).imp_of_mem fun {x y} hx hy hlt => ?_)
  simpa only [a.data_slabPart ((a.mem_rest b).mp hx).1, a.data_slabPart ((a.mem_rest b).mp hy).1] using hlt

/-- The result of a subtraction. -/
def difference : Held o f reservelen :=
  (a.restDraft b).held (show (a.restDraft b).header.length = _ from a.reserve) (a.restDraft_increasing b) (a.restDraft_small b)

theorem difference_stored : (a.difference b).rdatas.map f.stored = (a.rest b).map f.stored := by
  rw [difference, Draft.held_stored]
  simp only [restDraft, map_map]
  refine map_congr_left fun r hr => ?_
  simp [Format.stored, a.data_slabPart ((a.mem_rest b).mp hr).1]

theorem copyRest_eq (limit base : Nat) {l : List SlabRdata} (hl : ∀ r ∈ l, r ∈ a.rdatas) (out : Out) :
    l.foldlM (copyRest f o.cmp limit base a.rdatas.length b.rdatas) out =
      ((l.filter fun r => !among o.cmp (·.data) b.rdatas r).map fun r => (r.order, f.slabPart r)).foldlM
        (copyItem f id limit base) out := by
  induction l generalizing out with
  | nil => rfl
  | cons r l ih =>
    obtain ⟨hr, hl⟩ := forall_mem_cons.mp hl
    rw [foldlM_cons, copyRest, insist_ok fun hf => a.rdata_order_lt hf hr]
    have hsub : subtracted o.cmp b.rdatas r = among o.cmp (·.data) b.rdatas r := rfl
    cases hin : among o.cmp (·.data) b.rdatas r with
    | true =>
      rw [filter_cons_of_neg (by simp [hin]), ← ih hl, hsub, hin]
      rfl
    | false =>
      rw [filter_cons_of_pos (by simp [hin]), hsub, hin, a.record_eq hr]
      exact congrArg _ (funext fun out => ih hl out)

theorem subtract_eq (ha : a.rdatas ≠ []) (hb : b.rdatas ≠ []) :
    subtract f o.cmp a.slab b.slab reservelen flags =
      if flags.exactly ∧ (a.rdatas.filter (among o.cmp (·.data) b.rdatas)).length ≠ b.rdatas.length then .ok .notexact
      else if (a.rest b).length = 0 then .ok .nxrrset
      else if (a.rdatas.filter (among o.cmp (·.data) b.rdatas)).length = 0 then .ok .unchanged
      else .ok (.success (a.difference b).slab) := by
  have hpos : a.rdatas.length > 0 ∧ b.rdatas.length > 0 :=
    ⟨length_pos_iff.mpr ha, length_pos_iff.mpr hb⟩
  obtain ⟨out, hcopy, hlen, hfill⟩ := (a.restDraft b).copy_ok id le_rfl (a.restDraft_small b)
  have hsize := a.restDraft_size b
  have hmod := Nat.mod_eq_of_lt (a.restDraft_small b)
  rw [hsize] at hcopy hlen hmod
  simp only [restDraft, length_map, a.reserve] at hcopy hfill
  have hloop := a.copyRest_eq b (reservelen + 2 + ((a.rest b).map fun r => r.record.length).sum +
    if f.fixed then 4 * (a.rest b).length else 0) reservelen (fun r hr => hr)
    (startOut f a.header (a.rest b).length a.rdatas.length)
  have hrest : (a.rdatas.filter fun r => !among o.cmp (·.data) b.rdatas r) = a.rest b := rfl
  have hsub : subtracted o.cmp b.rdatas = among o.cmp (·.data) b.rdatas := rfl
  rw [hrest, hcopy] at hloop
  unfold subtract
  simp only [a.count_eq, b.count_eq, a.decode_eq, b.decode_eq, insist_ok hpos, take_header, hsub, hrest, hmod, hloop,
    insist_ok hlen, hfill, bind, Except.bind]
  rfl

end Held

/-! ### Slabs that are built -/

/-- The slabs that `dns_rdataslab_fromrdataset` makes of valid rdatas, and merges and subtractions of such slabs; the
    callers fill in the header. -/
inductive Built (o : RdataOrder) (f : Format) (reservelen : Nat) : Bytes → Prop where
  | fromrdataset {q : Qsort o.cmp} {rdatas : List Rdata} {slab : Bytes} : (∀ r ∈ rdatas, o.valid r.data) →
    fromrdataset f o.cmp q.sort rdatas reservelen = .ok (.success slab) → Built o f reservelen slab
  | header {slab header : Bytes} : Built o f reservelen slab → header.length = reservelen →
    Built o f reservelen (header ++ slab.drop reservelen)
  | merge {oslab nslab slab : Bytes} {flags : Flags} : Built o f reservelen oslab → Built o f reservelen nslab →
    merge f o.cmp oslab nslab reservelen flags = .ok (.success slab) → Built o f reservelen slab
  | subtract {mslab sslab slab : Bytes} {flags : Flags} : Built o f reservelen mslab → Built o f reservelen sslab →
    subtract f o.cmp mslab sslab reservelen flags = .ok (.success slab) → Built o f reservelen slab

theorem keptDraft_increasing {q : Qsort o.cmp} {rdatas : List Rdata} (hcount : rdatas.length ≤ 0xffff)
    (h : ∀ x ∈ keep o.cmp q.sort rdatas, (f.part x.toRdata).length ≤ 0xffff) :
    Increasing o.cmp (fun i => f.data i.2) (keptDraft o q hcount reservelen h).items := by
  refine Pairwise.map _ (fun x y hlt => ?_) (keep_spec o q rdatas).sorted
  simpa only [data_part] using hlt

section
variable (a b : Held o f reservelen) (flags : Flags) (h : ¬(a.rdatas ≠ [] ∧ b.rdatas ≠ []))
include a b flags h

theorem Held.merge_empty :
    merge f o.cmp a.slab b.slab reservelen flags = .error .insist := by
  have hpos : ¬(a.rdatas.length > 0 ∧ b.rdatas.length > 0) := by
    simpa only [gt_iff_lt, length_pos_iff] using h
  unfold merge
  simp only [a.count_eq, b.count_eq, insist_error hpos]
  rfl

theorem Held.subtract_empty :
    subtract f o.cmp a.slab b.slab reservelen flags = .error .insist := by
  have hpos : ¬(a.rdatas.length > 0 ∧ b.rdatas.length > 0) := by
    simpa only [gt_iff_lt, length_pos_iff] using h
  unfold subtract
  simp only [a.count_eq, b.count_eq, insist_error hpos]
  rfl

end

theorem Built.held {slab : Bytes} (h : Built o f reservelen slab) : ∃ c : Held o f reservelen, c.slab = slab := by
  induction h with
  | fromrdataset _ hok =>
    obtain ⟨-, hcount, hparts, hsize, rfl⟩ := fromrdataset_inv o hok
    exact ⟨(keptDraft o _ hcount _ hparts).held length_replicate (keptDraft_increasing hcount hparts) hsize, rfl⟩
  | @header slab header _ hlen ih =>
    obtain ⟨c, rfl⟩ := ih
    have hslab : layout f header c.table c.items = header ++ c.slab.drop reservelen := by
      have hdrop : (c.header ++ (be16 c.items.length ++ ((if f.fixed then c.table.flatMap be32 else []) ++
          records f c.items))).drop reservelen = _ := drop_left' c.reserve
      simp [Content.slab, layout, hdrop]
    have hsame : (layout f header c.table c.items).length = c.slab.length := by
      simp [Content.slab, layout, hlen, c.reserve]
    exact ⟨⟨⟨header, c.items, c.count_le, c.parts, c.orders⟩, hlen, c.increasing, hsame.trans_lt c.small⟩, hslab⟩
  | @merge _ _ _ flags _ _ hok iha ihb =>
    obtain ⟨a, rfl⟩ := iha
    obtain ⟨b, rfl⟩ := ihb
    by_cases hne : a.rdatas ≠ [] ∧ b.rdatas ≠ []
    · have hcases := a.merge_cases b flags hne.1 hne.2
      rw [hok] at hcases
      rcases hcases with ⟨-, h⟩ | ⟨-, ⟨-, h | h⟩ | ⟨-, h⟩ | ⟨-, hcount, hsize, h⟩⟩
      · cases h
      · cases h
      · cases h
      · cases h
      · exact ⟨_, (Outcome.success.inj (Except.ok.inj h)).symm⟩
    · rw [a.merge_empty b flags hne] at hok
      cases hok
  | @subtract _ _ _ flags _ _ hok iha ihb =>
    obtain ⟨a, rfl⟩ := iha
    obtain ⟨b, rfl⟩ := ihb
    by_cases hne : a.rdatas ≠ [] ∧ b.rdatas ≠ []
    · rw [a.subtract_eq b flags hne.1 hne.2] at hok
      split at hok
      · cases hok
      split at hok
      · cases hok
      split at hok
      · cases hok
      exact ⟨_, Outcome.success.inj (Except.ok.inj hok)⟩
    · rw [a.subtract_empty b flags hne] at hok
      cases hok

/-- A slab that was built. -/
structure BuiltSlab (o : RdataOrder) (f : Format) (reservelen : Nat) where
  slab : Bytes
  built : Built o f reservelen slab

/-! ### Union and difference -/

section
variable (o f reservelen)

/-- The rdatas of a list that another one does not have. -/
def without (l others : List SlabRdata) : List SlabRdata := l.filter fun r => !among o.cmp (·.data) others r

/-- A merge is right. -/
structure MergeRight (oslab nslab : Bytes) (flags : Flags) : Prop where
  notexact : flags.exactly → (∃ r ∈ decode f nslab reservelen, among o.cmp (·.data) (decode f oslab reservelen) r) →
    merge f o.cmp oslab nslab reservelen flags = .ok .notexact
  unchanged : ¬(flags.exactly ∧ ∃ r ∈ decode f nslab reservelen, among o.cmp (·.data) (decode f oslab reservelen) r) →
    (merge f o.cmp oslab nslab reservelen flags = .ok .unchanged ↔
      without o (decode f nslab reservelen) (decode f oslab reservelen) = [] ∧ ¬flags.force)
  union : ¬(flags.exactly ∧ ∃ r ∈ decode f nslab reservelen, among o.cmp (·.data) (decode f oslab reservelen) r) →
    ¬(without o (decode f nslab reservelen) (decode f oslab reservelen) = [] ∧ ¬flags.force) →
    ∃ slab, merge f o.cmp oslab nslab reservelen flags = .ok (.success slab) ∧
      Increasing o.cmp (·.data) (decode f slab reservelen) ∧
      ((decode f slab reservelen).map f.stored).Perm ((decode f oslab reservelen ++
        without o (decode f nslab reservelen) (decode f oslab reservelen)).map f.stored)

/-- When a merge is right. -/
structure Mergeable (oslab nslab : Bytes) (flags : Flags) : Prop where
  nonempty : decode f oslab reservelen ≠ [] ∧ decode f nslab reservelen ≠ []
  distinct : ¬(flags.exactly ∧ ∃ r ∈ decode f nslab reservelen, among o.cmp (·.data) (decode f oslab reservelen) r)
  fits : without o (decode f nslab reservelen) (decode f oslab reservelen) = [] ∧ ¬flags.force ∨
    (decode f oslab reservelen ++ without o (decode f nslab reservelen) (decode f oslab reservelen)).length ≤
      (if f.singleton then 1 else 0xffff) ∧
    reservelen + 2 + ((decode f oslab reservelen ++ without o (decode f nslab reservelen)
      (decode f oslab reservelen)).map fun r => f.space r.data.length).sum < 2 ^ 32

/-- A subtraction is right. -/
structure SubtractRight (mslab sslab : Bytes) (flags : Flags) : Prop where
  notexact : flags.exactly → (subtract f o.cmp mslab sslab reservelen flags = .ok .notexact ↔
    without o (decode f sslab reservelen) (decode f mslab reservelen) ≠ [])
  nxrrset : ¬(flags.exactly ∧ without o (decode f sslab reservelen) (decode f mslab reservelen) ≠ []) →
    (subtract f o.cmp mslab sslab reservelen flags = .ok .nxrrset ↔
      without o (decode f mslab reservelen) (decode f sslab reservelen) = [])
  unchanged : ¬(flags.exactly ∧ without o (decode f sslab reservelen) (decode f mslab reservelen) ≠ []) →
    (subtract f o.cmp mslab sslab reservelen flags = .ok .unchanged ↔
      without o (decode f mslab reservelen) (decode f sslab reservelen) ≠ [] ∧
        without o (decode f mslab reservelen) (decode f sslab reservelen) = decode f mslab reservelen)
  difference : ¬(flags.exactly ∧ without o (decode f sslab reservelen) (decode f mslab reservelen) ≠ []) →
    without o (decode f mslab reservelen) (decode f sslab reservelen) ≠ [] →
    without o (decode f mslab reservelen) (decode f sslab reservelen) ≠ decode f mslab reservelen →
    ∃ slab, subtract f o.cmp mslab sslab reservelen flags = .ok (.success slab) ∧
      Increasing o.cmp (·.data) (decode f slab reservelen) ∧
      (decode f slab reservelen).map f.stored =
        (without o (decode f mslab reservelen) (decode f sslab reservelen)).map f.stored

end

namespace Held
variable (a b : Held o f reservelen) (flags : Flags)

theorem without_eq : without o (decode f b.slab reservelen) (decode f a.slab reservelen) = a.added b := by
  rw [a.decode_eq, b.decode_eq]
  rfl

theorem rest_eq : without o (decode f a.slab reservelen) (decode f b.slab reservelen) = a.rest b := by
  rw [a.decode_eq, b.decode_eq]
  rfl

theorem unionSize_eq :
    reservelen + 2 + ((a.rdatas ++ a.added b).map fun r => f.space r.data.length).sum = a.unionSize b := by
  refine congrArg _ (congrArg _ (map_congr_left fun r hr => ?_))
  rcases mem_append.mp hr with hr | hr
  · exact a.cost_eq_space hr
  · exact b.cost_eq_space ((a.mem_added b).mp hr).1

theorem mergeRight_iff :
    MergeRight f o reservelen a.slab b.slab flags ↔ Mergeable f o reservelen a.slab b.slab flags := by
  have hadd := a.without_eq b
  by_cases hne : a.rdatas ≠ [] ∧ b.rdatas ≠ []
  · have hcases := a.merge_cases b flags hne.1 hne.2
    constructor
    · intro hright
      have hdistinct : ¬(flags.exactly ∧ ∃ r ∈ decode f b.slab reservelen,
          among o.cmp (·.data) (decode f a.slab reservelen) r) := by
        intro hcommon
        have hres := hright.notexact hcommon.1 hcommon.2
        rw [hres] at hcases
        simp at hcases
      refine ⟨by rwa [a.decode_eq, b.decode_eq], hdistinct, ?_⟩
      rw [hadd, a.decode_eq, unionSize_eq]
      rcases hcases with ⟨hnone, -⟩ | ⟨hsome, hres⟩
      · exact .inl hnone
      · obtain ⟨slab, hok, -⟩ := hright.union hdistinct (by rwa [hadd])
        rw [hok] at hres
        rcases hres with ⟨-, hres | hres⟩ | ⟨-, hres⟩ | ⟨hle, -, hsize, -⟩
        · cases hres
        · cases hres
        · cases hres
        · exact .inr ⟨hle, hsize⟩
    · intro hmerge
      have hfits := hmerge.fits
      rw [hadd, a.decode_eq, unionSize_eq] at hfits
      refine ⟨fun he hc => absurd ⟨he, hc⟩ hmerge.distinct, fun _ => ?_, fun _ hsome => ?_⟩
      · rw [hadd]
        rcases hcases with ⟨hnone, hres⟩ | ⟨hsome, hres⟩
        · exact iff_of_true hres hnone
        · refine iff_of_false (fun heq => ?_) hsome
          rw [heq] at hres
          simp at hres
      · rw [hadd] at hsome
        obtain ⟨hle, hsize⟩ := hfits.resolve_left hsome
        rcases hcases with ⟨hnone, -⟩ | ⟨-, ⟨hlarge, -⟩ | ⟨hlarge, -⟩ | ⟨-, hcount, hsize, hok⟩⟩
        · exact absurd hnone hsome
        · exact absurd hle hlarge
        · exact absurd hsize hlarge
        · refine ⟨_, hok, ?_, ?_⟩
          · rw [(a.union b hcount hsize).decode_eq]
            exact (a.union b hcount hsize).rdatas_increasing
          · rw [(a.union b hcount hsize).decode_eq, hadd, a.decode_eq]
            exact a.union_stored b hcount hsize
  · have herr := a.merge_empty b flags hne
    refine iff_of_false (fun hright => ?_) fun hmerge => hne ?_
    · by_cases hcommon : flags.exactly ∧ ∃ r ∈ decode f b.slab reservelen,
          among o.cmp (·.data) (decode f a.slab reservelen) r
      · have hres := hright.notexact hcommon.1 hcommon.2
        rw [herr] at hres
        cases hres
      · by_cases hnone : without o (decode f b.slab reservelen) (decode f a.slab reservelen) = [] ∧ ¬flags.force
        · have hres := (hright.unchanged hcommon).mpr hnone
          rw [herr] at hres
          cases hres
        · obtain ⟨slab, hres, -⟩ := hright.union hcommon hnone
          rw [herr] at hres
          cases hres
    · have := hmerge.nonempty
      rwa [a.decode_eq, b.decode_eq] at this

theorem filter_among_iff : (a.rdatas.filter (among o.cmp (·.data) b.rdatas)).length = b.rdatas.length ↔
    b.rest a = [] := by
  simp [le_antisymm a.rdatas_increasing.length_filter_among_le b.rdatas_increasing.length_filter_among_le, rest]

theorem filter_among_eq_nil : a.rdatas.filter (among o.cmp (·.data) b.rdatas) = [] ↔ a.rest b = a.rdatas := by
  simp [rest]

theorem subtractRight_iff : SubtractRight f o reservelen a.slab b.slab flags ↔
    decode f a.slab reservelen ≠ [] ∧ decode f b.slab reservelen ≠ [] := by
  have hrest := a.rest_eq b
  have hback := b.rest_eq a
  by_cases hne : a.rdatas ≠ [] ∧ b.rdatas ≠ []
  · refine iff_of_true ?_ (by rwa [a.decode_eq, b.decode_eq])
    have heq := a.subtract_eq b flags hne.1 hne.2
    simp only [ne_eq, filter_among_iff, filter_among_eq_nil, length_eq_zero_iff] at heq
    refine ⟨fun he => ?_, fun hex => ?_, fun hex => ?_, fun hex hsome hchange => ?_⟩
    · rw [hback, heq]
      by_cases h : b.rest a = []
      · rw [if_neg fun hcon => hcon.2 h]
        exact iff_of_false (by split_ifs <;> nofun) (not_not.mpr h)
      · simp [he, h]
    · rw [hback] at hex
      rw [hrest, heq, if_neg hex]
      by_cases h : a.rest b = []
      · simp [h]
      · rw [if_neg h]
        exact iff_of_false (by split_ifs <;> nofun) h
    · rw [hback] at hex
      rw [hrest, heq, if_neg hex, a.decode_eq]
      by_cases h : a.rest b = []
      · rw [if_pos h]
        exact iff_of_false nofun fun hcon => hcon.1 h
      · rw [if_neg h]
        by_cases hall : a.rest b = a.rdatas
        · rw [if_pos hall]
          exact iff_of_true rfl ⟨h, hall⟩
        · rw [if_neg hall]
          exact iff_of_false nofun fun hcon => hall hcon.2
    · rw [hback] at hex
      rw [hrest] at hsome hchange ⊢
      rw [a.decode_eq] at hchange
      rw [if_neg hex, if_neg hsome, if_neg hchange] at heq
      refine ⟨_, heq, ?_, ?_⟩
      · rw [(a.difference b).decode_eq]
        exact (a.difference b).rdatas_increasing
      · rw [(a.difference b).decode_eq]
        exact a.difference_stored b
  · have herr := a.subtract_empty b flags hne
    refine iff_of_false (fun hright => ?_) (by rwa [a.decode_eq, b.decode_eq])
    have hexact : ¬(flags.exactly ∧ without o (decode f b.slab reservelen) (decode f a.slab reservelen) ≠ []) := by
      rintro ⟨he, hleft⟩
      have hres := (hright.notexact he).mpr hleft
      rw [herr] at hres
      cases hres
    have hsome : without o (decode f a.slab reservelen) (decode f b.slab reservelen) ≠ [] := by
      intro hnone
      have hres := (hright.nxrrset hexact).mpr hnone
      rw [herr] at hres
      cases hres
    have hchange : without o (decode f a.slab reservelen) (decode f b.slab reservelen) ≠ decode f a.slab reservelen := by
      intro hall
      have hres := (hright.unchanged hexact).mpr ⟨hsome, hall⟩
      rw [herr] at hres
      cases hres
    obtain ⟨slab, hres, -⟩ := hright.difference hexact hsome hchange
    rw [herr] at hres
    cases hres

end Held

/-- For all slabs that can be built: a merge is the union, with the old copies, just if both slabs have an rdata, the
    union fits, and exactness is not asked for slabs with an rdata in common, as this is never noticed; a subtraction is
    the difference just if both slabs have an rdata. -/
theorem merge_subtract_iff (a b : BuiltSlab o f reservelen) (flags : Flags) :
    (MergeRight f o reservelen a.slab b.slab flags ↔ Mergeable f o reservelen a.slab b.slab flags) ∧
    (SubtractRight f o reservelen a.slab b.slab flags ↔
      decode f a.slab reservelen ≠ [] ∧ decode f b.slab reservelen ≠ []) := by
  obtain ⟨a', ha⟩ := a.built.held
  obtain ⟨b', hb⟩ := b.built.held
  rw [← ha, ← hb]
  exact ⟨a'.mergeRight_iff b' flags, a'.subtractRight_iff b' flags⟩

end

/-- The order of `compare_in_a`. -/
def addressOrder : RdataOrder := octetOrder (· = 4)

/-- The slabs of 10.0.0.7, and of 10.0.0.8 and 10.0.0.7. -/
def oneAddress : Bytes := [0, 1, 0, 4, 10, 0, 0, 7]
def twoAddresses : Bytes := [0, 2, 0, 4, 10, 0, 0, 7, 0, 4, 10, 0, 0, 8]

/-- Slabs with an rdata in common are merged although exactness is asked for. -/
theorem merge_not_exact : Built addressOrder ⟨false, 1, false⟩ 0 oneAddress ∧ Built addressOrder ⟨false, 1, false⟩ 0 twoAddresses ∧
    ¬MergeRight ⟨false, 1, false⟩ addressOrder 0 oneAddress twoAddresses ⟨true, false⟩ := by
  refine ⟨@Built.fromrdataset _ _ _ (insertionQsort _) [⟨[10, 0, 0, 7], false⟩] _ (by decide) (by decide),
    @Built.fromrdataset _ _ _ (insertionQsort _) [⟨[10, 0, 0, 8], false⟩, ⟨[10, 0, 0, 7], false⟩] _ (by decide) (by decide),
    fun hright => ?_⟩
  have hres := hright.notexact rfl (by decide)
  exact absurd hres (by decide)

end OqsBind.Dns.Slab
