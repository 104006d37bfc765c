import OqsBind.Theorems.UpdateZone

/-! The addition of one record by an update: when it succeeds, and what the set of the record is then. -/

namespace OqsBind.Ns.Update
open Isc Dns.ZoneDiff List
open Dns (Name RdataType RdataClass)

section
variable {c : Conf} {s s' : Pending} {name oldname : Name} {type covers : RdataType} {r : RR} {rs : List RR} {t : Tuple}
  {ttl : UInt32} {rdata : Rdata}

/-! ### Tuples that succeed -/

theorem doOneTuple_del_ok (h : Coherent c.forms s.zone) (hr : r ∈ s.zone) (hname : r.owner.equal name = true)
    (hstored : r.covers = r.rdata.covers) : ∃ s', doOneTuple c.forms c.origin s ⟨.del, name, r.ttl, r.rdata⟩ = .ok s' := by
  have hin : r ∈ rrset s.zone name r.rdata.type r.rdata.covers :=
    mem_filter.mpr ⟨hr, RR.inSet_iff.mpr ⟨hname, rfl, hstored⟩⟩
  simp only [doOneTuple, subtractRecord]
  split
  · next hset =>
    rw [hset] at hin
    cases hin
  · next old rest hset =>
    obtain ⟨hold, hinold⟩ := mem_filter.mp (hset ▸ mem_cons_self : old ∈ rrset s.zone name r.rdata.type r.rdata.covers)
    have httl := (h.spelling r hr old hold (sameSet_of_inSet (mem_filter.mp hin).2 hinold)).2
    rw [if_neg (not_not.mpr httl), if_pos (any_eq_true.mpr ⟨r, hset ▸ hin, Rdata.same_self _⟩)]
    exact ⟨_, rfl⟩

theorem deleteAll_ok (h : Coherent c.forms s.zone) (hnodup : rs.Nodup)
    (hrs : ∀ r ∈ rs, r ∈ s.zone ∧ r.owner.equal name = true ∧ r.covers = r.rdata.covers) :
    ∃ s', deleteAll c name rs s = .ok s' := by
  induction rs generalizing s with
  | nil => exact ⟨s, rfl⟩
  | cons r rs ih =>
    obtain ⟨hmem, hname, hstored⟩ := hrs r (.head _)
    obtain ⟨hnot, hnodup⟩ := nodup_cons.mp hnodup
    obtain ⟨s1, hone⟩ := doOneTuple_del_ok h hmem hname hstored
    have hpruned : Pruned c name [r] s s1 := deleteAll_spec h (by simp [hmem, hname]) (by simpa [deleteAll] using hone)
    obtain ⟨s', hrun⟩ := ih hpruned.coherent hnodup fun r' hr' => by
      obtain ⟨hmem', hname', hstored'⟩ := hrs r' (.tail _ hr')
      refine ⟨?_, hname', hstored'⟩
      by_contra hgone
      obtain ⟨-, r0, hr0, -, heq⟩ := hpruned.gone r' hmem' hgone
      cases mem_singleton.mp hr0
      exact hnot (heq (.inr hstored) ▸ hr')
    refine ⟨s', ?_⟩
    rw [deleteAll, foldlM_cons, hone]
    exact hrun

/-- How many records a set of the type can have. -/
def capacity (type : RdataType) : Nat := if type.issingleton then 1 else 0xffff

theorem doOneTuple_add_ok (hop : t.op = .add) (htop : t.rdata.type = .soa → t.name.equal c.origin = true)
    (httl : ∀ r ∈ s.zone, t.In r → r.ttl = t.ttl)
    (hroom : (rrset s.zone t.name t.rdata.type t.rdata.covers).length < capacity t.rdata.type) :
    ∃ s', doOneTuple c.forms c.origin s t = .ok s' := by
  simp only [doOneTuple, hop, addRecord]
  rw [if_neg fun hbad => hbad.2 (htop hbad.1)]
  split
  · exact ⟨_, rfl⟩
  · next old rest hset =>
    obtain ⟨hold, hin⟩ := mem_rrset.mp (hset ▸ mem_cons_self : old ∈ rrset s.zone t.name t.rdata.type t.rdata.covers)
    rw [hset, capacity] at hroom
    rw [if_neg (not_not.mpr (httl old hold hin).symm)]
    split_ifs with hany hsingle hfull
    · exact ⟨_, rfl⟩
    · rw [if_pos hsingle] at hroom
      simp at hroom
    · rw [if_neg hsingle] at hroom
      exact absurd hroom (Nat.not_lt.mpr hfull)
    · exact ⟨_, rfl⟩

theorem Ready.addAll_ok {rds : List Rdata} (h : Ready c name type covers rds s)
    (htop : type = .soa → name.equal c.origin = true) (httl : ∀ r ∈ s.zone, r.inSet name type covers = true → r.ttl = ttl)
    (hroom : (rrset s.zone name type covers).length + rds.length ≤ capacity type) :
    ∃ s', (rds.map fun rd => (⟨.add, name, ttl, rd⟩ : Tuple)).foldlM (doOneTuple c.forms c.origin) s = .ok s' := by
  induction rds generalizing s with
  | nil => exact ⟨s, rfl⟩
  | cons rd rds ih =>
    obtain ⟨rfl, rfl⟩ := h.types rd (.head _)
    rw [length_cons] at hroom
    obtain ⟨s1, hone⟩ := doOneTuple_add_ok (c := c) (t := ⟨.add, name, ttl, rd⟩) rfl htop httl
      (show (rrset s.zone name rd.type rd.covers).length < capacity rd.type by omega)
    obtain ⟨hzone, hready, -⟩ := h.add hone
    have hlength : (rrset s1.zone name rd.type rd.covers).length = (rrset s.zone name rd.type rd.covers).length + 1 := by
      simp [rrset, hzone, RR.inSet, Name.equal_self]
    obtain ⟨s', hrun⟩ := ih hready (fun r hr hin => by
      rw [hzone, mem_append, mem_singleton] at hr
      rcases hr with hr | rfl
      · exact httl r hr hin
      · rfl) (by omega)
    refine ⟨s', ?_⟩
    rw [map_cons, foldlM_cons, hone]
    exact hrun

/-! ### The set is made anew -/

theorem doomed_of_readded (h : readded c oldname name ttl rdata r = true) : doomed c oldname name ttl rdata r = true := by
  obtain ⟨-, hnot, hcase⟩ := readded_iff.mp h
  by_contra hdoomed
  have hignored : ignored c oldname name ttl rdata r = false := by simp [ignored, hcase]
  obtain ⟨-, httl, hname, -⟩ := of_not_doomed hignored (by simpa using hdoomed)
  exact hnot ⟨httl, hname⟩

theorem room_of_pruned (hstored : ∀ r ∈ rs, r.covers = r.rdata.covers) (hopt : rdata.type ≠ .opt)
    (hrs : rs = rrset s.zone name rdata.type rdata.covers) (hsize : rs.length < 0xffff)
    (hignored : ∀ r ∈ rs, ignored c oldname name ttl rdata r = false)
    (hpruned : Pruned c oldname (rs.filter (doomed c oldname name ttl rdata)) s s') :
    (rrset s'.zone name rdata.type rdata.covers).length +
      (((rs.filter (readded c oldname name ttl rdata)).map RR.rdata) ++ [rdata]).length ≤ capacity rdata.type := by
  rw [length_append, length_map, length_singleton, capacity]
  split_ifs with hsingle
  · -- a set of one record is replaced
    have hsingle : rdata.type ∈ [RdataType.cname, .dname, .soa] := by
      simpa [RdataType.issingleton, hopt] using hsingle
    have hreplaced : ∀ r ∈ rs, replaces rdata r.rdata = true := fun r hr =>
      replaces_single hsingle (RR.inSet_iff.mp (mem_set hrs hr).2).2.1
    have hnone : rrset s'.zone name rdata.type rdata.covers = [] := filter_eq_nil_iff.mpr fun r hr hin => by
      obtain ⟨hmem, hleft, -⟩ := left_of_pruned hstored hrs hignored hpruned hr hin
      cases hleft.symm.trans (hreplaced r hmem)
    have hnew : rs.filter (readded c oldname name ttl rdata) = [] := filter_eq_nil_iff.mpr fun r hr hre => by
      cases (readded_iff.mp hre).1.symm.trans (hreplaced r hr)
    rw [hnone, hnew]
    rfl
  · have hleft : (rrset s'.zone name rdata.type rdata.covers).length ≤
        (rs.filter fun r => !doomed c oldname name ttl rdata r).length := by
      refine ((hpruned.coherent.nodup.filter _).subperm fun r hr => ?_).length_le
      obtain ⟨hr, hin⟩ := mem_filter.mp hr
      obtain ⟨hmem, hreplaces, httl, hname, -⟩ := left_of_pruned hstored hrs hignored hpruned hr hin
      refine mem_filter.mpr ⟨hmem, ?_⟩
      simp [doomed, hreplaces, httl, Name.caseequal_iff.mpr hname]
    have hnew : (rs.filter (readded c oldname name ttl rdata)).length ≤ (rs.filter (doomed c oldname name ttl rdata)).length :=
      (monotone_filter_right rs fun r => doomed_of_readded).length_le
    have hsum := length_eq_length_filter_add (l := rs) (doomed c oldname name ttl rdata)
    omega

theorem addRr_ok (h : Coherent c.forms s.zone) (hopt : rdata.type ≠ .opt)
    (hstored : ∀ r ∈ s.zone, r.rdata.type = rdata.type → r.covers = r.rdata.covers)
    (hrs : foreachRr s.zone name rdata.type covers = rrset s.zone name rdata.type rdata.covers)
    (htop : rdata.type = .soa → name.equal c.origin = true)
    (hsize : (rrset s.zone name rdata.type rdata.covers).length < 0xffff) :
    ∃ s', addRr c s name ttl rdata covers = .ok s' := by
  rw [addRr_eq hrs rfl]
  generalize hset : rrset s.zone name rdata.type rdata.covers = rs at hsize ⊢
  have hspelled := spelled_of_head h hset.symm rfl
  have hcovers : ∀ r ∈ rs, r.covers = r.rdata.covers := fun r hr =>
    hstored r (mem_set hset.symm hr).1 (RR.inSet_iff.mp (mem_set hset.symm hr).2).2.1
  generalize (rs.head?.map RR.owner).getD name = oldname at hspelled ⊢
  split_ifs with hany
  · exact ⟨s, rfl⟩
  · have hignored : ∀ r ∈ rs, ignored c oldname name ttl rdata r = false := by simpa using hany
    have hdoomed : ∀ r ∈ rs.filter (doomed c oldname name ttl rdata),
        r ∈ s.zone ∧ r.owner.equal oldname = true ∧ r.covers = r.rdata.covers := fun r hr => by
      have hr := (mem_filter.mp hr).1
      exact ⟨(mem_set hset.symm hr).1, hspelled r hr ▸ Name.equal_self _, hcovers r hr⟩
    obtain ⟨s1, hdels⟩ := deleteAll_ok h ((hset ▸ h.nodup.filter _ : rs.Nodup).filter _) hdoomed
    have hpruned := deleteAll_spec h (fun r hr => ⟨(hdoomed r hr).1, (hdoomed r hr).2.1⟩) hdels
    obtain ⟨s', hadds⟩ := (Ready.of_pruned h hcovers hset.symm hspelled hignored hpruned).addAll_ok htop
      (fun r hr hin => (left_of_pruned hcovers hset.symm hignored hpruned hr hin).2.2.1)
      (room_of_pruned hcovers hopt hset.symm hsize hignored hpruned)
    exact ⟨s', by rw [hdels]; exact hadds⟩

end

/-! ### The effect -/

section
variable {c : Conf} {u : UpdateRR} {s s' : Pending}

/-- The set of the record: that of its owner and type, and of the type that it covers. -/
def UpdateRR.set (u : UpdateRR) (z : List RR) : List RR := rrset z u.name u.rdata.type u.rdata.covers

/-- The set has an equal record, with the TTL and the spelling of the owner. -/
def Present (c : Conf) (u : UpdateRR) (z : List RR) : Prop :=
  ∃ r ∈ u.set z, r.rdata.casesame c.forms u.rdata = true ∧ r.ttl = c.clamp u.ttl ∧ r.owner = u.name

/-- What the addition of a record does to the version and the changes. -/
structure AddsTo (c : Conf) (u : UpdateRR) (s s' : Pending) : Prop where
  ignored : Present c u s.zone → s' = s
  set : ¬Present c u s.zone → ∀ r, r ∈ u.set s'.zone ↔ Renewed c u.name (c.clamp u.ttl) u.rdata (u.set s.zone) r
  others : ∀ r : RR, r.inSet u.name u.rdata.type u.rdata.covers = false → (r ∈ s'.zone ↔ r ∈ s.zone)
  diff : ∀ old : List RR, (∀ type, ExactFor c.forms type old s) → (∀ type, ExactFor c.forms type old s') ∧
    s'.diff.foldl (Tuple.apply (Tuple.key c.forms)) (There c.forms old) = There c.forms s'.zone

theorem foldl_eq_of_exactFor {old : List RR} (h : ∀ type, ExactFor c.forms type old s) :
    s.diff.foldl (Tuple.apply (Tuple.key c.forms)) (There c.forms old) = There c.forms s.zone :=
  Exact.foldl_eq ⟨(h 0).once, fun k _ => (h k.2.2.1).added k rfl, fun k _ => (h k.2.2.1).deleted k rfl⟩ (.refl _)

theorem present_of_ignored {oldname : Name} (hspelled : ∀ r ∈ u.set s.zone, r.owner = oldname) :
    Present c u s.zone ↔ (u.set s.zone).any (ignored c oldname u.name (c.clamp u.ttl) u.rdata) = true := by
  rw [any_eq_true, Present]
  refine exists_congr fun r => and_congr_right fun hr => ?_
  simp only [ignored, Bool.and_eq_true, Name.caseequal_iff, decide_eq_true_eq, hspelled r hr, eq_comm (a := oldname)]
  tauto

theorem addsTo_of_addRr (h : Coherent c.forms s.zone) (htold : Told c.forms u.rdata.type s.zone) {covers : RdataType}
    (hrs : foreachRr s.zone u.name u.rdata.type covers = u.set s.zone)
    (hrun : addRr c s u.name (c.clamp u.ttl) u.rdata covers = .ok s') : AddsTo c u s s' := by
  rw [addRr_eq hrs rfl] at hrun
  have hpresent := present_of_ignored (c := c) (spelled_of_head h (rfl : u.set s.zone = _) rfl)
  split_ifs at hrun with hany
  · cases hrun
    exact ⟨fun _ => rfl, fun hnot => absurd (hpresent.mpr hany) hnot, fun _ _ => Iff.rfl,
      fun old hexact => ⟨hexact, foldl_eq_of_exactFor hexact⟩⟩
  · obtain ⟨s1, hdels, hadds⟩ := bind_ok hrun
    have hadding : Adding c s u.name (c.clamp u.ttl) u.rdata (u.set s.zone) _ s1 s' := ⟨rfl, by simpa using hany, hdels, hadds⟩
    have hstored : ∀ r ∈ u.set s.zone, r.covers = r.rdata.covers := fun r hr =>
      htold.stored r (mem_filter.mp hr).1 (RR.inSet_iff.mp (mem_filter.mp hr).2).2.1
    refine ⟨fun hin => absurd (hpresent.mp hin) hany, fun _ => hadding.set h rfl hstored,
      fun _ hout => hadding.others h rfl hstored hout, fun old hexact => ?_⟩
    have hexact' : ∀ type, ExactFor c.forms type old s' := fun type => by
      by_cases htype : type = u.rdata.type
      · exact htype ▸ hadding.exact h rfl htold (hexact _)
      · refine (hadding.framed h fun r hr => ?_).exact type old htype (hexact type)
        obtain ⟨howner, htype, -⟩ := RR.inSet_iff.mp (mem_filter.mp hr).2
        exact ⟨howner, htype⟩
    exact ⟨hexact', foldl_eq_of_exactFor hexact'⟩

/-- A record that is not skipped. A signature in the old format stops the server, if the database has a node for its owner.
    Any other record is added if the set has room, and this is what is then in the version and the changes. -/
theorem updateAdd_addsTo (t : Section) (hz : Coherent c.forms t.zone)
    (htop : ∀ r ∈ t.zone, r.rdata.type = .soa → r.owner.equal c.origin = true)
    (hrrsig : ∀ a b, c.forms.canon .rrsig a = c.forms.canon .rrsig b → get16 a = get16 b)
    (hzone : c.rdclass ≠ .any) (hclass : u.rdclass = c.rdclass) (hform : u.formOk c = true)
    (hwanted : addWanted c t.zone u = .ok true) (hpermitted : addPermitted c u = true) (hmax : belowMax t.zone u = true)
    (hsig : u.rdata.type = .sig → u.covers ≠ 0 ∧ ∀ r ∈ t.zone, r.rdata.type = .sig → r.covers = 0) :
    (u.rdata.type = .sig → c.node t.zone u.name = true → updateAdd c t u = .error .require) ∧
      ((u.rdata.type = .sig → c.node t.zone u.name = false) →
        ((u.set t.zone).length < 0xffff → ∃ t', updateAdd c t u = .ok t') ∧
          ∀ t', updateAdd c t u = .ok t' → AddsTo c u t.toPending t'.toPending) := by
  have hmeta : u.rdata.type.ismeta = false := by simpa [UpdateRR.formOk, hclass] using hform
  have hany : u.rdata.type ≠ .any := fun heq => by simp [heq, RdataType.ismeta, RdataType.any] at hmeta
  have hopt : u.rdata.type ≠ .opt := fun heq => by simp [heq, RdataType.ismeta] at hmeta
  have hrun : updateAdd c t u = (findrdataset c t.zone u.name u.rdata.type u.covers).bind fun _ =>
      (addRr c t.toPending u.name (c.clamp u.ttl) u.rdata u.covers).map fun p =>
        ⟨p, t.soaSerialChanged || u.rdata.type = .soa⟩ := by
    simp only [updateAdd, hwanted, hpermitted, hmax]
    rfl
  rw [hrun]
  refine ⟨fun htype hnode => ?_, fun hnode => ?_⟩
  · rw [findrdataset, if_pos ⟨hnode, (hsig htype).1, htype ▸ by decide⟩]
    rfl
  have hfind : findrdataset c t.zone u.name u.rdata.type u.covers = .ok () := by
    refine if_neg fun hbad => ?_
    obtain ⟨hnode', hcovers, hnot⟩ := hbad
    have htype : u.rdata.type = .sig := by
      by_contra hne
      exact hcovers (if_neg fun h => h.2.elim hnot hne)
    rw [hnode htype] at hnode'
    cases hnode'
  have hstored : ∀ r ∈ t.zone, r.rdata.type = u.rdata.type → r.covers = r.rdata.covers := fun r hr htype => by
    by_cases hold : r.rdata.type = .sig
    · rw [(hsig (htype ▸ hold)).2 r hr hold, Rdata.covers, if_neg (hold ▸ by decide)]
    · exact hz.covers r hr hold
  have hrs : foreachRr t.zone u.name u.rdata.type u.covers = u.set t.zone :=
    (finds_of_findrdataset hclass hfind fun _ => hzone).foreachRr_eq hany hstored
  rw [hfind]
  refine ⟨fun hsize => ?_, fun t' ht' => ?_⟩
  · have hapex : u.rdata.type = .soa → u.name.equal c.origin = true := fun htype => by
      obtain ⟨r, hr, howner, hsoa⟩ := (addWanted_spec hz hwanted).2.2 htype
      exact Name.equal_left howner (htop r hr hsoa)
    obtain ⟨p, hp⟩ : ∃ p, addRr c t.toPending u.name (c.clamp u.ttl) u.rdata u.covers = .ok p :=
      addRr_ok hz hopt hstored hrs hapex hsize
    exact ⟨_, by rw [hp]; rfl⟩
  · obtain ⟨p, hp, rfl⟩ := map_ok ht'
    exact addsTo_of_addRr hz (told_of_rrsig hrrsig hstored) hrs hp

end

namespace SmallZone

/-- Another name server is added to the delegation, with another TTL. -/
def addNs : UpdateRR := ⟨sub, .in_, 90, ⟨.ns, [1, 97, 0]⟩, 0⟩

/-- A signature in the old format: it covers addresses, and the signer is the root. -/
def addSig : UpdateRR := ⟨sub, .in_, 60, ⟨.sig, [0, 1, 8, 2] ++ replicate 14 0 ++ [0, 1]⟩, 0⟩

end SmallZone

open SmallZone in
theorem addNs_addsTo : ∃ t', updateAdd conf ⟨⟨zone, []⟩, false⟩ addNs = .ok t' ∧ AddsTo conf addNs ⟨zone, []⟩ t'.toPending := by
  obtain ⟨-, hadd⟩ := updateAdd_addsTo (c := conf) (u := addNs) ⟨⟨zone, []⟩, false⟩ zone_coherent (by decide)
    (fun _ _ h => congrArg get16 h) (by decide) rfl (by decide) (by decide) (by decide) (by decide)
    (fun htype => absurd htype (by decide))
  obtain ⟨hok, hadds⟩ := hadd fun htype => absurd htype (by decide)
  obtain ⟨t', ht'⟩ := hok (by decide)
  exact ⟨t', ht', hadds t' ht'⟩

open SmallZone in
/-- A signature in the old format is permitted and wanted at the delegation, but it stops the server. -/
theorem addSig_stops : prescan conf (fun _ => true) addSig = .ok () ∧ addWanted conf zone addSig = .ok true ∧
    addPermitted conf addSig = true ∧ belowMax zone addSig = true ∧
    updateAdd conf ⟨⟨zone, []⟩, false⟩ addSig = .error .require := by
  refine ⟨?_, ?_, ?_, ?_, ?_⟩ <;> rfl

end OqsBind.Ns.Update
