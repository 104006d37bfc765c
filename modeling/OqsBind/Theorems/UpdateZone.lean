import OqsBind.Theorems.UpdateRecord

/-! A dynamic update keeps a zone well formed. Each record of the update section keeps all of it but one condition: that
    a DS record is at a delegation is made good at the end, from the changes. -/

namespace OqsBind.Ns.Update
open Isc Dns.ZoneDiff List MinimalDiff
open Dns (Name RdataType RdataClass)

section
variable {c : Conf} {s s' s'' : Pending} {z old : List RR} {u : UpdateRR}

/-- The record is the SOA record of the zone: it is at the apex, and there is no other. -/
structure SoaOf (origin : Name) (z : List RR) (r : RR) : Prop where
  mem : r ∈ z
  type : r.rdata.type = .soa
  owner : r.owner.equal origin = true
  unique : ∀ r' ∈ z, r'.rdata.type = .soa → r' = r

/-- The conditions that each record of an update section keeps. Records of the tree of NSEC3 records may be at any name. -/
structure Sound (origin : Name) (z : List RR) : Prop where
  soa : ∃ r, SoaOf origin z r
  ns : ∃ r ∈ z, r.owner.equal origin = true ∧ r.rdata.type = .ns
  cname : ∀ r ∈ z, ∀ r' ∈ z, r.rdata.type = .cname → r'.rdata.type = .cname → r.owner.equal r'.owner = true → r = r'
  dname : ∀ r ∈ z, ∀ r' ∈ z, r.rdata.type = .dname → r'.rdata.type = .dname → r.owner.equal r'.owner = true → r = r'
  alone : ∀ r ∈ z, ∀ r' ∈ z, r.rdata.type = .cname → r'.owner.equal r.owner = true →
    r'.rdata.type = .cname ∨ r'.rdata.type.atcname = true ∨ r'.nsec3 = true
  ds : ∀ r ∈ z, r.rdata.type = .ds → r.owner.equal origin = false

/-- The version is well formed. -/
structure WellFormed (origin : Name) (z : List RR) : Prop extends Sound origin z where
  delegated : ∀ r ∈ z, r.rdata.type = .ds → ∃ r' ∈ z, r'.rdata.type = .ns ∧ r'.owner.equal r.owner = true

theorem plain_ns : Plain RdataType.ns := ⟨by decide, by decide⟩

theorem plain_ds : Plain RdataType.ds := ⟨by decide, by decide⟩

theorem plain_soa : Plain RdataType.soa := ⟨by decide, by decide⟩

/-! ### Deletions -/

variable {rs : List RR} {r : RR}

theorem Pruned.kept {name : Name} (h : Pruned c name rs s s') (hr : r ∈ s.zone)
    (hplain : Plain r.rdata.type) (hnot : r.owner.equal name = true → r ∉ rs) : r ∈ s'.zone := by
  by_contra hgone
  obtain ⟨howner, r0, hr0, htype0, heq⟩ := h.gone r hr hgone
  exact hnot howner (heq (.inl (htype0 ▸ hplain.1)) ▸ hr0)

theorem Sound.subset (h : Sound c.origin z) {z' : List RR} (hsub : ∀ r ∈ z', r ∈ z)
    (hsoa : ∀ r ∈ z, r.rdata.type = .soa → r ∈ z')
    (hns : ∃ r ∈ z', r.owner.equal c.origin = true ∧ r.rdata.type = .ns) : Sound c.origin z' where
  soa := by
    obtain ⟨r, hr, htype, howner, hall⟩ := h.soa
    exact ⟨r, hsoa r hr htype, htype, howner, fun r' hr' => hall r' (hsub r' hr')⟩
  ns := hns
  cname r hr r' hr' := h.cname r (hsub r hr) r' (hsub r' hr')
  dname r hr r' hr' := h.dname r (hsub r hr) r' (hsub r' hr')
  alone r hr r' hr' := h.alone r (hsub r hr) r' (hsub r' hr')
  ds r hr := h.ds r (hsub r hr)

theorem Pruned.soa (hpruned : Pruned c u.name rs s s') (hdel : Deletable c s.zone u.name rs)
    (h : SoaOf c.origin s.zone r) : r ∈ s'.zone := by
  refine hpruned.kept h.mem (h.type ▸ plain_soa) fun howner hin => ?_
  exact hdel.soa (Name.equal_left howner h.owner) r hin h.type

theorem Pruned.sound (hpruned : Pruned c u.name rs s s') (hdel : Deletable c s.zone u.name rs)
    (h : Sound c.origin s.zone) : Sound c.origin s'.zone := by
  refine h.subset hpruned.sub (fun r hr htype => ?_) ?_
  · obtain ⟨r0, hr0, htype0, howner0, hall⟩ := h.soa
    rw [hall r hr htype]
    exact hpruned.soa hdel ⟨hr0, htype0, howner0, hall⟩
  · by_cases horigin : u.name.equal c.origin = true
    · obtain ⟨r, hr, howner, htype, hnot⟩ := hdel.ns horigin h.ns
      exact ⟨r, hpruned.kept hr (htype ▸ plain_ns) fun _ => hnot, howner, htype⟩
    · obtain ⟨r, hr, howner, htype⟩ := h.ns
      refine ⟨r, hpruned.kept hr (htype ▸ plain_ns) fun howner' => ?_, howner, htype⟩
      exact absurd (Name.equal_left howner' howner) horigin

/-! ### Additions -/

section
variable {ttl : UInt32} (hmerged : Merged c u.name ttl u.rdata s s') (hadd : Addable c s.zone u)
include hmerged

theorem Merged.unique {type : RdataType} (hsingle : type ∈ [RdataType.cname, .dname])
    (h : ∀ r ∈ s.zone, ∀ r' ∈ s.zone, r.rdata.type = type → r'.rdata.type = type → r.owner.equal r'.owner = true → r = r') :
    ∀ r ∈ s'.zone, ∀ r' ∈ s'.zone, r.rdata.type = type → r'.rdata.type = type → r.owner.equal r'.owner = true → r = r' := by
  intro r hr r' hr' htype htype' howner
  by_cases heq : u.rdata.type = type
  · have hin : u.rdata.type ∈ [RdataType.cname, .dname, .soa] := by
      rw [heq]
      exact mem_append_left [RdataType.soa] hsingle
    have hplain := plain_single hin
    by_cases hname : r'.owner.equal u.name = true
    · rw [hmerged.single hin r hr (htype.trans heq.symm) (Name.equal_trans howner hname),
        hmerged.single hin r' hr' (htype'.trans heq.symm) hname]
    · have hname' : ¬ r.owner.equal u.name = true := fun hr => hname (Name.equal_left howner hr)
      exact h r ((hmerged.elsewhere hplain r (by simpa using hname')).mp hr) r'
        ((hmerged.elsewhere hplain r' (by simpa using hname)).mp hr') htype htype' howner
  · exact h r ((hmerged.other r (htype ▸ Ne.symm heq)).mp hr) r' ((hmerged.other r' (htype' ▸ Ne.symm heq)).mp hr')
      htype htype' howner

theorem Merged.soa (hadd : u.rdata.type = .soa → ∃ r ∈ s.zone, r.owner.equal u.name = true ∧ r.rdata.type = .soa) {r : RR}
    (h : SoaOf c.origin s.zone r) :
    ∃ r', SoaOf c.origin s'.zone r' ∧ (u.rdata.type = .soa → r'.rdata = u.rdata) ∧ (u.rdata.type ≠ .soa → r' = r) := by
  obtain ⟨hr, htype, howner, hall⟩ := h
  by_cases heq : u.rdata.type = .soa
  · obtain ⟨r1, hr1, hname, htype1⟩ := hadd heq
    rw [hall r1 hr1 htype1] at hname
    refine ⟨_, ⟨hmerged.added (heq ▸ plain_soa), heq, Name.equal_left hname howner,
      fun r' hr' htype' => ?_⟩, fun _ => rfl, fun hne => absurd heq hne⟩
    refine hmerged.single (by simp [heq]) r' hr' (htype'.trans heq.symm) ?_
    rcases hmerged.owner r' hr' with ⟨-, hin⟩ | ⟨r'', hr'', hset⟩
    · exact hin
    · rw [hall r'' hr'' (hset.2.1.trans htype')] at hset
      exact Name.equal_left hset.1 hname
  · exact ⟨r, ⟨(hmerged.other r (htype ▸ Ne.symm heq)).mpr hr, htype, howner,
      fun r' hr' htype' => hall r' ((hmerged.other r' (htype' ▸ Ne.symm heq)).mp hr') htype'⟩,
      fun htype' => absurd htype' heq, fun _ => rfl⟩

theorem Merged.ns (h : Sound c.origin s.zone) : ∃ r ∈ s'.zone, r.owner.equal c.origin = true ∧ r.rdata.type = .ns := by
  obtain ⟨r, hr, howner, htype⟩ := h.ns
  by_cases heq : u.rdata.type = .ns
  · by_cases hname : r.owner.equal u.name = true
    · exact ⟨_, hmerged.added (heq ▸ plain_ns), Name.equal_left hname howner, heq⟩
    · exact ⟨r, (hmerged.elsewhere (heq ▸ plain_ns) r (by simpa using hname)).mpr hr, howner, htype⟩
  · exact ⟨r, (hmerged.other r (htype ▸ Ne.symm heq)).mpr hr, howner, htype⟩

theorem Merged.alone (hadd : Addable c s.zone u) (h : Sound c.origin s.zone) : ∀ r ∈ s'.zone, ∀ r' ∈ s'.zone,
    r.rdata.type = .cname → r'.owner.equal r.owner = true →
      r'.rdata.type = .cname ∨ r'.rdata.type.atcname = true ∨ r'.nsec3 = true := by
  intro r hr r' hr' htype howner
  by_cases heq : u.rdata.type = .cname
  · by_cases htype' : r'.rdata.type = .cname
    · exact .inl htype'
    have hr' := (hmerged.other r' (heq ▸ htype')).mp hr'
    by_cases hname : r.owner.equal u.name = true
    · exact hadd.cname heq r' hr' (Name.equal_trans howner hname)
    · exact h.alone r ((hmerged.elsewhere (heq ▸ ⟨by decide, by decide⟩) r (by simpa using hname)).mp hr) r' hr' htype howner
  · have hr := (hmerged.other r (htype ▸ Ne.symm heq)).mp hr
    rcases hmerged.owner r' hr' with ⟨htype', hname⟩ | ⟨r'', hr'', hset⟩
    · exact .inr (.inl (htype' ▸ hadd.other heq ⟨r, hr, Name.equal_left howner hname, htype⟩))
    · -- the set was there before
      have hold := h.alone r hr r'' hr'' htype (Name.equal_trans hset.1 howner)
      rwa [RR.nsec3, hset.2.1, hset.2.2] at hold

theorem Merged.sound (hadd : Addable c s.zone u) (h : Sound c.origin s.zone) : Sound c.origin s'.zone where
  soa := by
    obtain ⟨r, hr⟩ := h.soa
    obtain ⟨r', hr', -⟩ := hmerged.soa hadd.soa hr
    exact ⟨r', hr'⟩
  ns := hmerged.ns h
  cname := hmerged.unique (by simp) h.cname
  dname := hmerged.unique (by simp) h.dname
  alone := hmerged.alone hadd h
  ds r hr htype := by
    rcases hmerged.owner r hr with ⟨htype', hname⟩ | ⟨r', hr', hset⟩
    · rw [Name.equal_congr hname (Name.equal_self _)]
      exact hadd.ds (htype'.symm.trans htype)
    · rw [← Name.equal_congr hset.1 (Name.equal_self _)]
      exact h.ds r' hr' (hset.2.1.trans htype)

end

/-! ### The update section -/

/-- What the update section keeps: the shape of the version, the conditions, and that the changes are the difference from
    the version that it began with. -/
structure Kept (c : Conf) (old : List RR) (s : Pending) : Prop where
  coherent : Coherent c.forms s.zone
  exact : ∀ type, Plain type → ExactFor c.forms type old s

theorem Change.kept (h : Change c u s s') (hs : Kept c old s) : Kept c old s' := by
  cases h with
  | same heq => exact heq ▸ hs
  | pruned rs hpruned _ =>
    exact ⟨hpruned.coherent, fun type hplain => hpruned.exact type old (hplain.told hs.coherent) (hs.exact type hplain)⟩
  | merged ttl hmerged _ =>
    exact ⟨hmerged.coherent, fun type hplain =>
      hmerged.exactAll type old (hplain.told hs.coherent) (fun htype => absurd htype hplain.2) (hs.exact type hplain)⟩

theorem Change.sound (h : Change c u s s') (hs : Sound c.origin s.zone) : Sound c.origin s'.zone := by
  cases h with
  | same heq => exact heq ▸ hs
  | pruned rs hpruned hdel => exact hpruned.sound hdel hs
  | merged ttl hmerged hadd => exact hmerged.sound hadd hs

theorem prescan_any {permitted : UpdateRR → Bool} (h : prescan c permitted u = .ok ()) (hclass : u.rdclass = c.rdclass) :
    u.rdata.type ≠ .any := by
  intro htype
  have hform : u.formOk c = false := by
    rw [UpdateRR.formOk, if_pos hclass, htype]
    rfl
  unfold prescan at h
  split at h
  · cases h
  rw [hform] at h
  cases h

variable {us : List UpdateRR} {permitted : UpdateRR → Bool}

theorem updateSection_kept {t : Section} (hz : Coherent c.forms z) (hus : ∀ u ∈ us, prescan c permitted u = .ok ())
    (hrun : updateSection c z us = .ok t) : Kept c z t.toPending := by
  refine foldlM_kept (I := fun t : Section => Kept c z t.toPending) (fun u hu t t' ht hone => ?_) ⟨hz, fun _ _ => ?_⟩ hrun
  · exact (updateRecord_spec ht.coherent (prescan_any (hus u hu)) hone).1.kept ht
  · exact Exact.nil _ _

theorem updateSection_sound {t : Section} (hz : Coherent c.forms z) (h : Sound c.origin z)
    (hus : ∀ u ∈ us, prescan c permitted u = .ok ()) (hrun : updateSection c z us = .ok t) : Sound c.origin t.zone := by
  refine (foldlM_kept (I := fun t : Section => Kept c z t.toPending ∧ Sound c.origin t.zone)
    (fun u hu t t' ht hone => ?_) ⟨⟨hz, fun _ _ => ?_⟩, h⟩ hrun).2
  · have hchange := (updateRecord_spec ht.1.coherent (prescan_any (hus u hu)) hone).1
    exact ⟨hchange.kept ht.1, hchange.sound ht.2⟩
  · exact Exact.nil _ _

/-! ### The serial of the SOA record -/

/-- What `update_soa_serial` has done: the SOA record has got another serial. -/
structure Bumped (c : Conf) (r : RR) (rdata : Rdata) (s s' : Pending) : Prop where
  mem : r ∈ s.zone
  type : r.rdata.type = .soa
  owner : r.owner.equal c.origin = true
  length : 20 ≤ r.rdata.data.length
  coherent : Coherent c.forms s'.zone
  mem_iff : ∀ r', r' ∈ s'.zone ↔ r' ∈ s.zone ∧ r' ≠ r ∨ r' = ⟨r.owner, 0, r.ttl, rdata⟩
  exact : ∀ type old, Plain type → ExactFor c.forms type old s → ExactFor c.forms type old s'

theorem updateSoaSerial_spec {clock : Clock} {method : UpdateMethod} (h : Coherent c.forms s.zone) (hsoa : SoaOf c.origin s.zone r) (hrun : updateSoaSerial c clock method s = .ok s') :
    Bumped c r (soaSetserial r.rdata (updateSoaserial (soaSerial r.rdata.data) clock method)) s s' := by
  unfold updateSoaSerial at hrun
  split at hrun
  · cases hrun
  next r1 rest hset =>
  have hin : r1 ∈ rrset s.zone c.origin .soa 0 := hset ▸ mem_cons_self
  obtain ⟨hr1, hinSet⟩ := mem_filter.mp hin
  cases hsoa.unique r1 hr1 (RR.inSet_iff.mp hinSet).2.1
  obtain ⟨hr, htype, howner, hone⟩ := hsoa
  obtain ⟨serial, hserial, hrun⟩ := bind_ok hrun
  obtain ⟨s1, hdel, hadd⟩ := bind_ok hrun
  unfold soaGetserial at hserial
  split_ifs at hserial with hlength
  cases hserial
  have hall : deleteAll c r.owner [r] s = .ok s1 := by
    rw [deleteAll, foldlM_cons, hdel]
    rfl
  have hpruned := deleteAll_spec h (fun r' hr' => by
    rw [mem_singleton.mp hr']
    exact ⟨hr, Name.equal_self _⟩) hall
  -- the SOA record is gone, so that there is none
  have hnone : ∀ r' ∈ s1.zone, r'.rdata.type ≠ .soa := fun r' hr' htype' => by
    rw [hone r' (hpruned.sub r' hr') htype'] at hr'
    exact hpruned.removed r (.head _) (.inl (htype ▸ plain_soa.1)) hr'
  have hcovers : (soaSetserial r.rdata (updateSoaserial (soaSerial r.rdata.data) clock method)).covers = 0 :=
    if_neg (htype ▸ plain_soa.2)
  have hready : Ready c r.owner .soa 0 [soaSetserial r.rdata (updateSoaserial (soaSerial r.rdata.data) clock method)] s1 := by
    refine ⟨hpruned.coherent, fun r' hr' hin => absurd (RR.inSet_iff.mp hin).2.1 (hnone r' hr'),
      fun r' hr' hin => absurd (RR.inSet_iff.mp hin).2.1 (hnone r' hr'), pairwise_singleton .., fun rd hrd => ?_⟩
    rw [mem_singleton.mp hrd]
    exact ⟨htype, hcovers⟩
  obtain ⟨-, -, hext⟩ := hready.add hadd
  refine ⟨hr, htype, howner, hlength.2, doOneTuple_coherent hpruned.coherent hadd, fun r' => ?_, fun type old hplain hold =>
    hext.exact type old (hplain.told hpruned.coherent) (hpruned.exact type old (hplain.told h) hold)⟩
  rw [hext.mem_iff]
  refine or_congr ⟨fun hr' => ⟨hpruned.sub r' hr', ?_⟩, fun hkept => ?_⟩ (by simp [hcovers])
  · rintro rfl
    exact hnone r' hr' htype
  · obtain ⟨hr', hne⟩ := hkept
    by_contra hgone
    obtain ⟨-, r0, hr0, htype0, heq⟩ := hpruned.gone r' hr' hgone
    rw [mem_singleton.mp hr0] at heq htype0
    exact hne (heq (.inl (htype ▸ plain_soa.1)))

variable {rdata : Rdata}

theorem Bumped.other {r' : RR} (h : Bumped c r rdata s s') (hrdata : rdata.type = .soa)
    (htype : r'.rdata.type ≠ .soa) : r' ∈ s'.zone ↔ r' ∈ s.zone := by
  rw [h.mem_iff]
  constructor
  · rintro (⟨hr', -⟩ | rfl)
    · exact hr'
    · exact absurd hrdata htype
  · exact fun hr' => .inl ⟨hr', fun heq => htype (heq ▸ h.type)⟩

theorem Bumped.soa (h : Bumped c r rdata s s') (hrdata : rdata.type = .soa)
    (hsoa : SoaOf c.origin s.zone r) : SoaOf c.origin s'.zone ⟨r.owner, 0, r.ttl, rdata⟩ := by
  refine ⟨(h.mem_iff _).mpr (.inr rfl), hrdata, h.owner, fun r' hr' htype => ?_⟩
  rcases (h.mem_iff r').mp hr' with ⟨hr', hne⟩ | heq
  · exact absurd (hsoa.unique r' hr' htype) hne
  · exact heq

theorem Sound.replace_soa (h : Sound c.origin s.zone)
    (hsoa : ∃ r, SoaOf c.origin s'.zone r)
    (hother : ∀ r : RR, r.rdata.type ≠ .soa → (r ∈ s'.zone ↔ r ∈ s.zone))
    (howner : ∀ r ∈ s'.zone, r.rdata.type = .soa → ∃ r' ∈ s.zone, r'.SameSet r) : Sound c.origin s'.zone where
  soa := hsoa
  ns := by
    obtain ⟨r, hr, howner, htype⟩ := h.ns
    exact ⟨r, (hother r (htype ▸ by decide)).mpr hr, howner, htype⟩
  cname r hr r' hr' htype htype' :=
    h.cname r ((hother r (htype ▸ by decide)).mp hr) r' ((hother r' (htype' ▸ by decide)).mp hr') htype htype'
  dname r hr r' hr' htype htype' :=
    h.dname r ((hother r (htype ▸ by decide)).mp hr) r' ((hother r' (htype' ▸ by decide)).mp hr') htype htype'
  alone r hr r' hr' htype heq := by
    have hr := (hother r (htype ▸ by decide)).mp hr
    by_cases htype' : r'.rdata.type = .soa
    · obtain ⟨r'', hr'', hset⟩ := howner r' hr' htype'
      have hold := h.alone r hr r'' hr'' htype (Name.equal_trans hset.1 heq)
      rwa [RR.nsec3, hset.2.1, hset.2.2] at hold
    · exact h.alone r hr r' ((hother r' htype').mp hr') htype heq
  ds r hr htype := h.ds r ((hother r (htype ▸ by decide)).mp hr) htype

theorem Bumped.sound (hbumped : Bumped c r rdata s s') (hrdata : rdata.type = .soa)
    (hz : Coherent c.forms s.zone) (hsoa : SoaOf c.origin s.zone r) (h : Sound c.origin s.zone) :
    Sound c.origin s'.zone := by
  have hnew := hbumped.soa hrdata hsoa
  refine h.replace_soa ⟨_, hnew⟩ (fun r' htype' => hbumped.other hrdata htype') fun r' hr' htype' => ⟨r, hsoa.mem, ?_⟩
  rw [hnew.unique r' hr' htype']
  exact ⟨Name.equal_self _, hsoa.type.trans hrdata.symm, hz.covers_zero hsoa.mem (hsoa.type ▸ plain_soa)⟩

/-! ### DS records without a delegation -/

/-- A tuple that may have left a DS record without NS records. -/
def Orphaning (t : Tuple) : Prop := t.op = .del ∧ t.rdata.type = .ns ∨ t.op = .add ∧ t.rdata.type = .ds

/-- What `remove_orphaned_ds` has done for some of the changes: where they were, DS records are at delegations only. -/
structure Cleared (c : Conf) (z : List RR) (ts : List Tuple) (s : Pending) : Prop where
  coherent : Coherent c.forms s.zone
  sub : ∀ r ∈ s.zone, r ∈ z
  kept : ∀ r ∈ z, r.rdata.type ≠ .ds → r ∈ s.zone
  cleared : ∀ t ∈ ts, Orphaning t → ∀ r ∈ s.zone, r.rdata.type = .ds → r.owner.equal t.name = true →
    ∃ r' ∈ z, r'.rdata.type = .ns ∧ r'.owner.equal t.name = true
  exact : ∀ type, Plain type → ExactFor c.forms type z s

theorem Cleared.step {ts : List Tuple} {t : Tuple} (h : Cleared c z ts s) (hrun : removeDs c s t = .ok s') :
    Cleared c z (ts ++ [t]) s' := by
  unfold removeDs at hrun
  split at hrun
  · next horphaning =>
    cases hrun
    refine { h with cleared := fun t' ht' hor => ?_ }
    rcases mem_append.mp ht' with ht' | ht'
    · exact h.cleared t' ht' hor
    · exact absurd (mem_singleton.mp ht' ▸ hor) horphaning
  split at hrun
  · next hexists =>
    cases hrun
    refine { h with cleared := fun t' ht' hor r hr htype howner => ?_ }
    rcases mem_append.mp ht' with ht' | ht'
    · exact h.cleared t' ht' hor r hr htype howner
    · obtain ⟨r', hr', howner', htype'⟩ := (rrsetExists_iff h.coherent plain_ns (by decide)).mp hexists.1
      exact ⟨r', h.sub r' hr', htype', mem_singleton.mp ht' ▸ howner'⟩
  · have hpruned := deleteIf_spec h.coherent hrun
    refine ⟨hpruned.coherent, fun r hr => h.sub r (hpruned.sub r hr), fun r hr htype => ?_, fun t' ht' hor r hr htype howner => ?_,
      fun type hplain => hpruned.exact type z (hplain.told h.coherent) (h.exact type hplain)⟩
    · by_contra hgone
      obtain ⟨-, r0, hr0, htype0, -⟩ := hpruned.gone r (h.kept r hr htype) hgone
      have hds := (mem_foreachRr (mem_filter.mp hr0).1).2.2.resolve_left (by decide)
      exact htype (htype0.symm.trans hds)
    · rcases mem_append.mp ht' with ht' | ht'
      · exact h.cleared t' ht' hor r (hpruned.sub r hr) htype howner
      · -- all DS records of the name were deleted
        rw [mem_singleton.mp ht'] at howner
        refine absurd hr (hpruned.removed r (mem_filter.mpr ⟨?_, rfl⟩) (.inl (htype ▸ plain_ds.1)))
        exact (mem_foreachRr_plain h.coherent plain_ds (by decide)).mpr ⟨hpruned.sub r hr, howner, htype⟩

theorem removeDs_foldlM : ∀ {ts ts0 : List Tuple} {s s' : Pending}, Cleared c z ts0 s →
    ts.foldlM (removeDs c) s = .ok s' → Cleared c z (ts0 ++ ts) s'
  | [], ts0, s, s', h, hrun => by
    cases hrun
    rwa [append_nil]
  | t :: ts, ts0, s, s', h, hrun => by
    obtain ⟨s1, hone, hrun⟩ := bind_ok hrun
    have hrest := removeDs_foldlM (h.step hone) hrun
    rwa [append_assoc] at hrest

theorem removeOrphanedDs_spec (h : Coherent c.forms s.zone) (hrun : removeOrphanedDs c s = .ok s') :
    ∃ temp, Cleared c s.zone s.diff temp ∧ s'.zone = temp.zone ∧ s'.diff = temp.diff.foldl (appendminimal c.forms) s.diff := by
  obtain ⟨temp, hloop, hrun⟩ := bind_ok hrun
  cases hrun
  have hstart : Cleared c s.zone [] ⟨s.zone, []⟩ :=
    ⟨h, fun _ hr => hr, fun _ hr _ => hr, fun t ht => absurd ht not_mem_nil, fun _ _ => Exact.nil _ _⟩
  exact ⟨temp, removeDs_foldlM hstart hloop, rfl, rfl⟩

theorem Cleared.sound {ts : List Tuple} (hcleared : Cleared c z ts s) (h : Sound c.origin z) : Sound c.origin s.zone := by
  refine h.subset hcleared.sub (fun r hr htype => hcleared.kept r hr (htype ▸ by decide)) ?_
  obtain ⟨r, hr, howner, htype⟩ := h.ns
  exact ⟨r, hcleared.kept r hr (htype ▸ by decide), howner, htype⟩

/-- A DS record that is at no delegation has a change that tells so: its own, or that of the NS record of before. -/
theorem Kept.orphaning (h : Kept c old s) (hold : WellFormed c.origin old) (hr : r ∈ s.zone)
    (htype : r.rdata.type = .ds) (hnone : ∀ r' ∈ s.zone, r'.rdata.type = .ns → r'.owner.equal r.owner = false) :
    ∃ t ∈ s.diff, Orphaning t ∧ r.owner.equal t.name = true := by
  have hns := h.exact .ns plain_ns
  have hds := h.exact .ds plain_ds
  by_cases hthere : There c.forms old (r.key c.forms)
  · obtain ⟨r0, hr0, hkey⟩ := hthere
    have hname : r0.owner.ndata = r.owner.ndata := congrArg Prod.fst hkey
    obtain ⟨n, hn, hntype, hnowner⟩ := hold.delegated r0 hr0 ((congrArg (·.2.2.1) hkey).trans htype)
    have hnowner := Name.equal_trans hnowner (Name.equal_of_ndata hname)
    have hgone : ¬ There c.forms s.zone (n.key c.forms) := by
      rintro ⟨n', hn', hkey'⟩
      have hfalse := hnone n' hn' ((congrArg (·.2.2.1) hkey').trans hntype)
      rw [Name.equal_trans (Name.equal_of_ndata (congrArg Prod.fst hkey')) hnowner] at hfalse
      cases hfalse
    obtain ⟨t, ht, hkey', hop⟩ :=
      (state_eq_some hns.once).mp ((hns.deleted (n.key c.forms) hntype).mpr ⟨⟨n, hn, rfl⟩, hgone⟩)
    obtain ⟨hname', -, hsame⟩ := key_eq_iff.mp hkey'.symm
    refine ⟨t, ht, .inl ⟨?_, (Rdata.same_iff.mp hsame).1.symm.trans hntype⟩, ?_⟩
    · cases hop' : t.op with
      | add => simp [hop'] at hop
      | del => rfl
    · exact Name.equal_left hnowner (Name.equal_of_ndata hname')
  · obtain ⟨t, ht, hkey, hop⟩ :=
      (state_eq_some hds.once).mp ((hds.added (r.key c.forms) htype).mpr ⟨⟨r, hr, rfl⟩, hthere⟩)
    obtain ⟨hname, -, hsame⟩ := key_eq_iff.mp hkey.symm
    exact ⟨t, ht, .inr ⟨by simpa using hop, (Rdata.same_iff.mp hsame).1.symm.trans htype⟩, Name.equal_of_ndata hname⟩

theorem Kept.delegated (h : Kept c old s) (hold : WellFormed c.origin old) {temp : Pending}
    (hcleared : Cleared c s.zone s.diff temp) :
    ∀ r ∈ temp.zone, r.rdata.type = .ds → ∃ r' ∈ temp.zone, r'.rdata.type = .ns ∧ r'.owner.equal r.owner = true := by
  intro r hr htype
  by_contra hnone
  push Not at hnone
  have hnone' : ∀ r' ∈ s.zone, r'.rdata.type = .ns → r'.owner.equal r.owner = false := fun r' hr' htype' => by
    simpa using hnone r' (hcleared.kept r' hr' (htype' ▸ by decide)) htype'
  obtain ⟨t, ht, hor, hname⟩ := h.orphaning hold (hcleared.sub r hr) htype hnone'
  obtain ⟨n, hn, hntype, hnowner⟩ := hcleared.cleared t ht hor r hr htype hname
  have hfalse := hnone' n hn hntype
  rw [Name.equal_trans hnowner (Name.equal_symm hname)] at hfalse
  cases hfalse

/-! ### The version that is left -/

/-- What the update section and what follows it leave is well formed. Without changes nothing follows. -/
theorem update_wellFormed (c : Conf) (m : Maintenance) (clock : Clock) (method : UpdateMethod) (permitted : UpdateRR → Bool)
    (z : List RR) (us : List UpdateRR) (hz : Coherent c.forms z) (h : WellFormed c.origin z)
    (hus : ∀ u ∈ us, prescan c permitted u = .ok ()) (t : Section) (hrun : updateSection c z us = .ok t) :
    (t.diff = [] → WellFormed c.origin t.zone) ∧
      ∀ p, finishSection c m clock method t = .ok p → WellFormed c.origin p.zone := by
  have hkept := updateSection_kept hz hus hrun
  have hsound := updateSection_sound hz h.toSound hus hrun
  constructor
  · intro hdiff
    have hcleared : Cleared c t.zone t.diff t.toPending := by
      refine ⟨hkept.coherent, fun _ hr => hr, fun _ hr _ => hr, fun t' ht' => ?_, fun type _ => ?_⟩
      · rw [hdiff] at ht'
        exact absurd ht' not_mem_nil
      · rw [ExactFor, hdiff]
        exact Exact.nil _ _
    exact ⟨hsound, hkept.delegated h hcleared⟩
  · intro p hfinish
    obtain ⟨-, -, hfinish⟩ := bind_ok hfinish
    obtain ⟨p₁, hserial, hfinish⟩ := bind_ok hfinish
    obtain ⟨-, -, hfinish⟩ := bind_ok hfinish
    -- the serial is set or not
    have hp₁ : Kept c z p₁ ∧ Sound c.origin p₁.zone := by
      unfold bumpSerial at hserial
      split at hserial
      · cases hserial
        exact ⟨hkept, hsound⟩
      · obtain ⟨r, hsoa⟩ := hsound.soa
        have hbumped := updateSoaSerial_spec hkept.coherent hsoa hserial
        exact ⟨⟨hbumped.coherent, fun type hplain => hbumped.exact type z hplain (hkept.exact type hplain)⟩,
          hbumped.sound hsoa.type hkept.coherent hsoa hsound⟩
    obtain ⟨temp, hcleared, hzone, -⟩ := removeOrphanedDs_spec hp₁.1.coherent hfinish
    rw [hzone]
    exact ⟨hcleared.sound hp₁.2, hp₁.1.delegated h hcleared⟩

end

/-! A small zone with a delegation and an NSEC3 record. -/

namespace SmallZone

def origin : Name := ⟨[⟨[101], by decide, by decide⟩], true, by decide⟩
def sub : Name := ⟨[⟨[100], by decide, by decide⟩, ⟨[101], by decide, by decide⟩], true, by decide⟩
def hashed : Name := ⟨[⟨[104], by decide, by decide⟩, ⟨[101], by decide, by decide⟩], true, by decide⟩

def soa (serial : UInt8) : Rdata := ⟨.soa, [0, 0, 0, 0, 0, serial] ++ replicate 16 0⟩
def ns : Rdata := ⟨.ns, [0]⟩
def ds : Rdata := ⟨.ds, [0, 1, 8, 1, 0]⟩
def nsec3 : Rdata := ⟨.nsec3, [1, 0, 0, 0, 0, 1, 0]⟩
def cname : Rdata := ⟨.cname, [0]⟩

def zone : List RR :=
  [⟨origin, 0, 60, soa 1⟩, ⟨origin, 0, 60, ns⟩, ⟨sub, 0, 60, ns⟩, ⟨sub, 0, 60, ds⟩, ⟨hashed, 0, 60, nsec3⟩]

def forms : Forms :=
  ⟨fun _ data => data, fun _ data => data, fun _ _ _ h => h, fun _ _ h => h, fun _ _ h => congrArg soaSerial h⟩

def conf : Conf :=
  ⟨origin, .in_, 65534, none, forms, fun _ => .ok false, fun z name => z.any fun r => !r.nsec3 && r.owner.equal name,
    fun _ _ r hr hmain howner => any_eq_true.mpr ⟨r, hr, by simp [hmain, howner]⟩⟩

def maintenance : Maintenance :=
  ⟨fun _ => .ok (), fun _ => .ok (), fun _ => .ok [], fun _ => .ok (), fun _ _ h => by
    cases h
    exact fun t ht => absurd ht not_mem_nil⟩

/-- All NS records of the delegation are to be deleted. -/
def undelegate : UpdateRR := ⟨sub, .any, 0, ⟨.ns, []⟩, 0⟩

/-- A CNAME record is to be added at the name of the NSEC3 record. -/
def addCname : UpdateRR := ⟨hashed, .in_, 60, cname, 0⟩

theorem zone_coherent : Coherent forms zone := by
  refine ⟨?_, ?_, ?_⟩ <;> decide

theorem zone_wellFormed : WellFormed origin zone := by
  refine ⟨⟨⟨_, .head _, ?_, ?_, ?_⟩, ?_, ?_, ?_, ?_, ?_⟩, ?_⟩ <;> decide

end SmallZone

open SmallZone in
/-- The delegation is deleted, and the DS record with it. -/
theorem update_wellFormed_delegation : ∃ t p, updateSection conf zone [undelegate] = .ok t ∧
    finishSection conf maintenance ⟨0, 0⟩ .increment t = .ok p ∧ (∀ r ∈ p.zone, r.rdata.type ≠ .ds) ∧
    WellFormed origin p.zone := by
  refine ⟨_, _, rfl, rfl, ?_, ?_⟩
  · decide
  have hus : ∀ u ∈ [undelegate], prescan conf (fun _ => true) u = .ok () := fun u hu => by
    rw [mem_singleton.mp hu]
    rfl
  exact (update_wellFormed conf maintenance ⟨0, 0⟩ .increment (fun _ => true) zone [undelegate] zone_coherent
    zone_wellFormed hus _ rfl).2 _ rfl

open SmallZone in
/-- A CNAME record may be added where an NSEC3 record is. -/
theorem update_cname_nsec3 : Coherent conf.forms zone ∧ WellFormed origin zone ∧ (∀ r ∈ zone, r.rdata.type ≠ .cname) ∧
    prescan conf (fun _ => true) addCname = .ok () ∧
    ∃ t p, updateSection conf zone [addCname] = .ok t ∧
      finishSection conf maintenance ⟨0, 0⟩ .increment t = .ok p ∧
      ∃ r ∈ p.zone, ∃ r' ∈ p.zone, r.rdata.type = .cname ∧ r'.owner.equal r.owner = true ∧
        ¬ (r'.rdata.type = .cname ∨ r'.rdata.type.atcname = true) := by
  refine ⟨zone_coherent, zone_wellFormed, by decide, rfl, _, _, rfl, rfl, ?_⟩
  decide

end OqsBind.Ns.Update
