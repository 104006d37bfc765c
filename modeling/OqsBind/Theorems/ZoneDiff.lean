import OqsBind.Dns.ZoneDiff
import OqsBind.Lib.Checked
import Mathlib.Data.List.Pairwise

/-! What one tuple changes of a version: the sets keep their shape, and the list of changes stays the difference from the
    version that it began with. -/

namespace OqsBind.Dns
open List Name MinimalDiff

variable {n m : Name}

theorem Name.equal_iff_lower : n.equal m = true ↔ n.ndata.map Isc.tolower = m.ndata.map Isc.tolower := by
  simp only [equal, length, Isc.lowerequal, Bool.and_eq_true, beq_iff_eq, and_iff_right_iff_imp]
  intro heq
  simpa using congrArg List.length heq

theorem Name.equal_self (n : Name) : n.equal n = true := Name.equal_iff_lower.mpr rfl

theorem Name.equal_symm (h : n.equal m = true) : m.equal n = true :=
  equal_iff_lower.mpr (equal_iff_lower.mp h).symm

theorem Name.equal_trans {k : Name} (h : n.equal m = true) (h' : m.equal k = true) : n.equal k = true :=
  equal_iff_lower.mpr ((equal_iff_lower.mp h).trans (equal_iff_lower.mp h'))

theorem Name.equal_left {k : Name} (h : n.equal m = true) (h' : n.equal k = true) : m.equal k = true :=
  equal_trans (equal_symm h) h'

theorem Name.equal_congr {n' m' : Name} (h : n.equal n' = true) (h' : m.equal m' = true) : n.equal m = n'.equal m' := by
  rw [equal_iff_lower] at h h'
  rw [Bool.eq_iff_iff, equal_iff_lower, equal_iff_lower, h, h']

theorem Name.equal_of_ndata (h : n.ndata = m.ndata) : n.equal m = true := by
  rw [equal_iff_lower, h]

theorem Label.wire_ne_root (l : Label) (rest : Isc.Bytes) (absolute : Bool) : l.wire ++ rest ≠ rootWire absolute := by
  intro heq
  have hpos := l.length_pos
  cases absolute with
  | false => cases heq
  | true =>
    have hzero : UInt8.ofNat l.bytes.length = 0 := (cons.inj heq).1
    rw [← l.length_octet, hzero] at hpos
    cases hpos

theorem labelsWire_inj {a b : Bool} : ∀ {ls ms : List Label},
    labelsWire ls ++ rootWire a = labelsWire ms ++ rootWire b → ls = ms ∧ a = b
  | [], [], h => by
    refine ⟨rfl, ?_⟩
    cases a <;> cases b <;> first | rfl | cases h
  | [], m :: ms, h => by
    rw [labelsWire_cons, append_assoc] at h
    exact absurd h.symm (m.wire_ne_root _ a)
  | l :: ls, [], h => by
    rw [labelsWire_cons, append_assoc] at h
    exact absurd h (l.wire_ne_root _ b)
  | l :: ls, m :: ms, h => by
    rw [labelsWire_cons, labelsWire_cons, append_assoc, append_assoc] at h
    obtain ⟨hlen, hrest⟩ := cons.inj h
    have hlen' : l.bytes.length = m.bytes.length := by
      rw [← l.length_octet, ← m.length_octet, hlen]
    obtain ⟨hbytes, htail⟩ := append_inj hrest hlen'
    obtain ⟨rfl, rfl⟩ := labelsWire_inj htail
    refine ⟨?_, rfl⟩
    cases l
    cases hbytes
    rfl

theorem Name.ndata_inj (h : n.ndata = m.ndata) : n = m := by
  obtain ⟨hlabels, habsolute⟩ := labelsWire_inj h
  cases n
  cases hlabels
  cases habsolute
  rfl

theorem Name.caseequal_iff : n.caseequal m = true ↔ n = m := by
  constructor
  · intro h
    refine ndata_inj ?_
    simp only [caseequal, Bool.and_eq_true, beq_iff_eq] at h
    exact h.2
  · rintro rfl
    simp [caseequal]

namespace ZoneDiff
open Isc

section
variable {forms : Forms} {origin : Name} {z z' : List RR} {s s' : Pending} {t : Tuple} {r r' : RR} {a b : Rdata}

/-! ### Sets -/

theorem Rdata.same_iff : a.same forms b = true ↔ a.type = b.type ∧ forms.canon a.type a.data = forms.canon b.type b.data := by
  simp [same]

theorem Rdata.same_self (a : Rdata) : a.same forms a = true := Rdata.same_iff.mpr ⟨rfl, rfl⟩

theorem Rdata.same_symm (h : a.same forms b = true) : b.same forms a = true :=
  same_iff.mpr ⟨(same_iff.mp h).1.symm, (same_iff.mp h).2.symm⟩

theorem Rdata.same_trans {d : Rdata} (h : a.same forms b = true) (h' : b.same forms d = true) : a.same forms d = true :=
  same_iff.mpr ⟨(same_iff.mp h).1.trans (same_iff.mp h').1,
    (same_iff.mp h).2.trans (same_iff.mp h').2⟩

theorem RR.inSet_iff {name : Name} {type covers : RdataType} :
    r.inSet name type covers = true ↔ r.owner.equal name = true ∧ r.rdata.type = type ∧ r.covers = covers := by
  simp [RR.inSet, and_assoc]

/-- The set of the tuple. -/
def Tuple.In (t : Tuple) (r : RR) : Prop := r.inSet t.name t.rdata.type t.rdata.covers = true

/-- Two records of one set. -/
def RR.SameSet (r r' : RR) : Prop := r.owner.equal r'.owner = true ∧ r.rdata.type = r'.rdata.type ∧ r.covers = r'.covers

instance : Decidable (r.SameSet r') := inferInstanceAs (Decidable (_ ∧ _ ∧ _))

theorem RR.SameSet.self (r : RR) : r.SameSet r := ⟨equal_self _, rfl, rfl⟩

theorem RR.SameSet.trans {r'' : RR} (h : r.SameSet r') (h' : r'.SameSet r'') : r.SameSet r'' :=
  ⟨equal_trans h.1 h'.1, h.2.1.trans h'.2.1, h.2.2.trans h'.2.2⟩

theorem RR.SameSet.symm (h : r.SameSet r') : r'.SameSet r := ⟨equal_symm h.1, h.2.1.symm, h.2.2.symm⟩

theorem sameSet_of_inSet {name : Name} {type covers : RdataType} (h : r.inSet name type covers = true)
    (h' : r'.inSet name type covers = true) : r.SameSet r' := by
  obtain ⟨ho, ht, hc⟩ := RR.inSet_iff.mp h
  obtain ⟨ho', ht', hc'⟩ := RR.inSet_iff.mp h'
  exact ⟨equal_trans ho (equal_symm ho'), ht.trans ht'.symm, hc.trans hc'.symm⟩

theorem Tuple.In.sameSet (h : t.In r) (h' : t.In r') : r.SameSet r' := sameSet_of_inSet h h'

theorem Tuple.In.of_sameSet (h : t.In r) (hset : r'.SameSet r) : t.In r' := by
  obtain ⟨ho, ht, hc⟩ := RR.inSet_iff.mp h
  exact RR.inSet_iff.mpr ⟨equal_trans hset.1 ho, hset.2.1.trans ht, hset.2.2.trans hc⟩

/-- The shape of a version: a set has one spelling of its owner, one TTL and no record twice. Signatures in the old format
    are in sets by the type that they cover, or not. -/
structure Coherent (forms : Forms) (z : List RR) : Prop where
  spelling : ∀ r ∈ z, ∀ r' ∈ z, r.SameSet r' → r.owner = r'.owner ∧ r.ttl = r'.ttl
  once : z.Pairwise fun r r' => ¬ (r.SameSet r' ∧ r.rdata.same forms r'.rdata = true)
  covers : ∀ r ∈ z, r.rdata.type ≠ .sig → r.covers = r.rdata.covers

theorem Coherent.eq (h : Coherent forms z) (hr : r ∈ z) (hr' : r' ∈ z) (hset : r.SameSet r')
    (hsame : r.rdata.same forms r'.rdata = true) : r = r' := by
  by_contra hne
  have hsymm : Std.Symm fun x y : RR => ¬ (x.SameSet y ∧ x.rdata.same forms y.rdata = true) :=
    ⟨fun x y hxy hyx => hxy ⟨hyx.1.symm, Rdata.same_symm hyx.2⟩⟩
  exact h.once.forall hr hr' hne ⟨hset, hsame⟩

theorem Coherent.nodup (h : Coherent forms z) : z.Nodup := by
  refine h.once.imp ?_
  rintro a b hne rfl
  exact hne ⟨.self _, Rdata.same_self _⟩

theorem Coherent.sublist (h : Coherent forms z) (hsub : z'.Sublist z) : Coherent forms z' :=
  ⟨fun r hr r' hr' => h.spelling r (hsub.subset hr) r' (hsub.subset hr'), h.once.sublist hsub,
    fun r hr => h.covers r (hsub.subset hr)⟩

theorem mem_rrset : r ∈ rrset z t.name t.rdata.type t.rdata.covers ↔ r ∈ z ∧ t.In r := mem_filter

/-! ### A record is deleted -/

/-- What a tuple that deletes has done: one record is gone, and the tuple has got the spelling of its owner. -/
structure Deleted (forms : Forms) (s : Pending) (t : Tuple) (r : RR) (s' : Pending) : Prop where
  mem : r ∈ s.zone
  inSet : t.In r
  same : r.rdata.same forms t.rdata = true
  ttl : r.ttl = t.ttl
  zone : s'.zone = s.zone.filter (· ≠ r)
  diff : s'.diff = appendminimal forms s.diff { t with name := r.owner }

theorem doOneTuple_del (h : Coherent forms s.zone) (hop : t.op = .del) (hrun : doOneTuple forms origin s t = .ok s') :
    ∃ r, Deleted forms s t r s' := by
  unfold doOneTuple at hrun
  rw [hop] at hrun
  obtain ⟨⟨zone, name⟩, hsub, hrun⟩ := bind_ok hrun
  cases hrun
  unfold subtractRecord at hsub
  split at hsub
  · cases hsub
  · next old rest hset =>
    split_ifs at hsub with httl hany
    cases hsub
    obtain ⟨r, hr, hsame⟩ := any_eq_true.mp hany
    rw [← hset] at hr
    obtain ⟨hmem, hin⟩ := mem_rrset.mp hr
    obtain ⟨hold, hinold⟩ := mem_rrset.mp (hset ▸ mem_cons_self : old ∈ _)
    obtain ⟨howner, httl'⟩ := h.spelling r hmem old hold (hin.sameSet hinold)
    refine ⟨r, hmem, hin, hsame, httl'.trans (not_not.mp httl).symm, ?_, by rw [howner, hop]⟩
    refine filter_congr fun r' hr' => ?_
    by_cases heq : r' = r
    · subst heq
      have hin' : r'.inSet t.name t.rdata.type t.rdata.covers = true := hin
      simp [hin', hsame]
    · have hnot : ¬ (r'.inSet t.name t.rdata.type t.rdata.covers = true ∧ r'.rdata.same forms t.rdata = true) :=
        fun hboth => heq (h.eq hr' hmem (Tuple.In.sameSet hboth.1 hin) (Rdata.same_trans hboth.2 (Rdata.same_symm hsame)))
      have hfalse : (r'.inSet t.name t.rdata.type t.rdata.covers && r'.rdata.same forms t.rdata) = false :=
        Bool.eq_false_iff.mpr fun hboth => hnot (by simpa using hboth)
      simp [hfalse, heq]

/-! ### A record is added -/

/-- The version with a record of the tuple, spelled so. -/
def Tuple.added (t : Tuple) (owner : Name) : RR := ⟨owner, t.rdata.covers, t.ttl, t.rdata⟩

/-- The set of the tuple gets another spelling. -/
def respell (t : Tuple) (owner : Name) (r : RR) : RR :=
  if r.inSet t.name t.rdata.type t.rdata.covers then { r with owner } else r

theorem respell_of_in (owner : Name) (h : t.In r) : respell t owner r = { r with owner } := if_pos h

theorem respell_of_notIn (owner : Name) (h : ¬ t.In r) : respell t owner r = r := if_neg h

/-- What a tuple that adds has done to the version, if the record was not there. -/
structure Added (forms : Forms) (z : List RR) (t : Tuple) (owner : Name) (z' : List RR) : Prop where
  equal : owner.equal t.name = true
  fresh : ∀ r ∈ z, t.In r → r.rdata.same forms t.rdata = false
  ttl : ∀ r ∈ z, t.In r → r.ttl = t.ttl
  spelling : (∀ r ∈ z, t.In r → r.owner = t.name) → owner = t.name
  zone : z' = z.map (respell t owner) ++ [t.added owner]

theorem doOneTuple_add (h : Coherent forms s.zone) (hop : t.op = .add) (hrun : doOneTuple forms origin s t = .ok s') :
    s'.diff = appendminimal forms s.diff t ∧
      ((s'.zone = s.zone ∧ ∃ r ∈ s.zone, t.In r ∧ r.rdata.same forms t.rdata = true) ∨
        ∃ owner, Added forms s.zone t owner s'.zone) := by
  unfold doOneTuple at hrun
  rw [hop] at hrun
  obtain ⟨zone, hadd, hrun⟩ := bind_ok hrun
  cases hrun
  refine ⟨rfl, ?_⟩
  unfold addRecord at hadd
  split at hadd
  · cases hadd
  split at hadd
  · next hset =>
    cases hadd
    have hnone : ∀ r ∈ s.zone, ¬ t.In r := fun r hr hin => by
      have hmem := mem_rrset.mpr ⟨hr, hin⟩
      rw [hset] at hmem
      cases hmem
    refine .inr ⟨t.name, equal_self _, fun r hr hin => absurd hin (hnone r hr), fun r hr hin => absurd hin (hnone r hr),
      fun _ => rfl, ?_⟩
    have hid : s.zone.map (respell t t.name) = s.zone := by
      refine (map_congr_left fun r hr => ?_).trans (map_id _)
      exact respell_of_notIn _ (hnone r hr)
    rw [hid]
    rfl
  · next old rest hset =>
    obtain ⟨hold, hinold⟩ := mem_rrset.mp (hset ▸ mem_cons_self : old ∈ _)
    split_ifs at hadd with httl hany
    · cases hadd
      obtain ⟨r, hr, hsame⟩ := any_eq_true.mp hany
      rw [← hset] at hr
      obtain ⟨hmem, hin⟩ := mem_rrset.mp hr
      exact .inl ⟨rfl, r, hmem, hin, hsame⟩
    · cases hadd
      refine .inr ⟨mergedCase old.owner t.name, ?_, fun r hr hin => ?_, fun r hr hin => ?_, fun hall => ?_, rfl⟩
      · unfold mergedCase
        split_ifs
        · exact (RR.inSet_iff.mp hinold).1
        · exact equal_self _
      · by_contra hsame
        refine hany (any_eq_true.mpr ⟨r, ?_, by simpa using hsame⟩)
        rw [← hset]
        exact mem_rrset.mpr ⟨hr, hin⟩
      · rw [(h.spelling r hr old hold (hin.sameSet hinold)).2]
        exact (not_not.mp httl).symm
      · simp [mergedCase, hall old hold hinold]

variable {owner : Name}

theorem Added.zone_eq (hadd : Added forms z t owner z') (hspelled : ∀ r ∈ z, t.In r → r.owner = t.name) :
    z' = z ++ [t.added t.name] := by
  rw [hadd.zone, hadd.spelling hspelled, append_cancel_right_eq]
  refine (map_congr_left fun r hr => ?_).trans (map_id _)
  unfold respell
  split_ifs with hin
  · rw [← hspelled r hr hin]
    rfl
  · rfl

theorem Added.mem_iff (h : Added forms z t owner z') : r' ∈ z' ↔ (∃ r ∈ z, respell t owner r = r') ∨ r' = t.added owner := by
  simp [h.zone]

@[simp] theorem respell_rdata (owner : Name) : (respell t owner r).rdata = r.rdata := by
  unfold respell
  split_ifs <;> rfl

@[simp] theorem respell_ttl (owner : Name) : (respell t owner r).ttl = r.ttl := by
  unfold respell
  split_ifs <;> rfl

@[simp] theorem respell_covers (owner : Name) : (respell t owner r).covers = r.covers := by
  unfold respell
  split_ifs <;> rfl

theorem respell_equal (h : owner.equal t.name = true) : (respell t owner r).owner.equal r.owner = true := by
  unfold respell
  split_ifs with hin
  · exact equal_trans h (equal_symm (RR.inSet_iff.mp hin).1)
  · exact equal_self _

theorem respell_sameSet (h : owner.equal t.name = true) :
    (respell t owner r).SameSet (respell t owner r') ↔ r.SameSet r' := by
  unfold RR.SameSet
  rw [respell_rdata, respell_rdata, respell_covers, respell_covers, equal_congr (respell_equal h) (respell_equal h)]

theorem sameSet_added (h : owner.equal t.name = true) : (respell t owner r).SameSet (t.added owner) ↔ t.In r := by
  unfold RR.SameSet Tuple.In
  rw [respell_rdata, respell_covers, RR.inSet_iff]
  exact and_congr_left fun _ => by rw [← equal_congr (respell_equal h) h]; rfl

/-! ### The shape stays -/

theorem Added.coherent (h : Coherent forms z) (hadd : Added forms z t owner z') : Coherent forms z' := by
  have hspell : ∀ r ∈ z, t.In r → (respell t owner r).owner = owner ∧ (respell t owner r).ttl = t.ttl := fun r hr hin =>
    ⟨by rw [respell_of_in owner hin], (respell_ttl owner).trans (hadd.ttl r hr hin)⟩
  refine ⟨fun x hx y hy hset => ?_, ?_, fun x hx hsig => ?_⟩
  · rcases hadd.mem_iff.mp hx with ⟨r, hr, rfl⟩ | rfl <;> rcases hadd.mem_iff.mp hy with ⟨r', hr', rfl⟩ | rfl
    · have hset' := (respell_sameSet hadd.equal).mp hset
      obtain ⟨howner, httl⟩ := h.spelling r hr r' hr' hset'
      refine ⟨?_, by rw [respell_ttl, respell_ttl, httl]⟩
      by_cases hin : t.In r
      · rw [(hspell r hr hin).1, (hspell r' hr' (hin.of_sameSet hset'.symm)).1]
      · rw [respell_of_notIn owner hin, respell_of_notIn owner fun hin' => hin (hin'.of_sameSet hset'), howner]
    · exact hspell r hr ((sameSet_added hadd.equal).mp hset)
    · have hr' := hspell r' hr' ((sameSet_added hadd.equal).mp hset.symm)
      exact ⟨hr'.1.symm, hr'.2.symm⟩
    · exact ⟨rfl, rfl⟩
  · rw [hadd.zone, pairwise_append, pairwise_map]
    refine ⟨h.once.imp fun hne => ?_, pairwise_singleton .., fun x hx y hy => ?_⟩
    · rwa [respell_sameSet hadd.equal, respell_rdata, respell_rdata]
    · obtain ⟨r, hr, rfl⟩ := mem_map.mp hx
      rw [mem_singleton.mp hy, sameSet_added hadd.equal, respell_rdata]
      rintro ⟨hin, hsame⟩
      cases (hadd.fresh r hr hin).symm.trans hsame
  · rcases hadd.mem_iff.mp hx with ⟨r, hr, rfl⟩ | rfl
    · rw [respell_rdata] at hsig
      rw [respell_covers, respell_rdata]
      exact h.covers r hr hsig
    · rfl

theorem Deleted.coherent (h : Coherent forms s.zone) (hdel : Deleted forms s t r s') : Coherent forms s'.zone := by
  rw [hdel.zone]
  exact h.sublist filter_sublist

theorem doOneTuple_coherent (h : Coherent forms s.zone) (hrun : doOneTuple forms origin s t = .ok s') :
    Coherent forms s'.zone := by
  cases hop : t.op with
  | add =>
    rcases (doOneTuple_add h hop hrun).2 with ⟨hzone, -⟩ | ⟨owner, hadd⟩
    · rwa [hzone]
    · exact hadd.coherent h
  | del =>
    obtain ⟨r, hdel⟩ := doOneTuple_del h hop hrun
    exact hdel.coherent h

theorem Deleted.mem_iff (hdel : Deleted forms s t r s') : r' ∈ s'.zone ↔ r' ∈ s.zone ∧ r' ≠ r := by
  simp [hdel.zone]

theorem Deleted.type (hdel : Deleted forms s t r s') : r.rdata.type = t.rdata.type := (RR.inSet_iff.mp hdel.inSet).2.1

/-! ### Records of other types -/

theorem doOneTuple_other (h : Coherent forms s.zone) (hrun : doOneTuple forms origin s t = .ok s')
    (htype : r.rdata.type ≠ t.rdata.type) : r ∈ s'.zone ↔ r ∈ s.zone := by
  cases hop : t.op with
  | add =>
    rcases (doOneTuple_add h hop hrun).2 with ⟨hzone, -⟩ | ⟨owner, hadd⟩
    · rw [hzone]
    · rw [hadd.mem_iff]
      constructor
      · rintro (⟨r', hr', rfl⟩ | rfl)
        · rw [respell_rdata] at htype
          rwa [respell_of_notIn owner fun hin => htype (RR.inSet_iff.mp hin).2.1]
        · exact absurd rfl htype
      · exact fun hr => .inl ⟨r, hr, respell_of_notIn owner fun hin => htype (RR.inSet_iff.mp hin).2.1⟩
  | del =>
    obtain ⟨r', hdel⟩ := doOneTuple_del h hop hrun
    rw [hdel.mem_iff]
    exact and_iff_left fun heq => htype (heq ▸ hdel.type)

theorem doOneTuple_owner (h : Coherent forms s.zone) (hrun : doOneTuple forms origin s t = .ok s') (hr : r ∈ s'.zone) :
    (r.rdata.type = t.rdata.type ∧ r.owner.equal t.name = true) ∨ ∃ r' ∈ s.zone, r'.SameSet r := by
  cases hop : t.op with
  | add =>
    rcases (doOneTuple_add h hop hrun).2 with ⟨hzone, -⟩ | ⟨owner, hadd⟩
    · exact .inr ⟨r, hzone ▸ hr, .self r⟩
    · rcases hadd.mem_iff.mp hr with ⟨r', hr', rfl⟩ | rfl
      · refine .inr ⟨r', hr', equal_symm (respell_equal hadd.equal), ?_, ?_⟩
        · rw [respell_rdata]
        · rw [respell_covers]
      · exact .inl ⟨rfl, hadd.equal⟩
  | del =>
    obtain ⟨r', hdel⟩ := doOneTuple_del h hop hrun
    exact .inr ⟨r, (hdel.mem_iff.mp hr).1, .self r⟩

/-- A record is stored in the set that its data tell. -/
theorem doOneTuple_stored (h : Coherent forms s.zone) (hrun : doOneTuple forms origin s t = .ok s')
    (hstored : ∀ r ∈ s.zone, r.covers = r.rdata.covers) : ∀ r ∈ s'.zone, r.covers = r.rdata.covers := by
  intro r hr
  cases hop : t.op with
  | add =>
    rcases (doOneTuple_add h hop hrun).2 with ⟨hzone, -⟩ | ⟨owner, hadd⟩
    · exact hstored r (hzone ▸ hr)
    · rcases hadd.mem_iff.mp hr with ⟨r', hr', rfl⟩ | rfl
      · rw [respell_covers, respell_rdata, hstored r' hr']
      · rfl
  | del =>
    obtain ⟨r', hdel⟩ := doOneTuple_del h hop hrun
    exact hstored r (hdel.mem_iff.mp hr).1

/-! ### The changes are the difference -/

/-- What a tuple for the record would be compared by. -/
def RR.key (forms : Forms) (r : RR) : Bytes × UInt32 × RdataType × Bytes :=
  (r.owner.ndata, r.ttl, r.rdata.type, forms.canon r.rdata.type r.rdata.data)

def There (forms : Forms) (z : List RR) (k : Bytes × UInt32 × RdataType × Bytes) : Prop := ∃ r ∈ z, r.key forms = k

/-- The tuples of a type are the difference from the version `old`. -/
def ExactFor (forms : Forms) (type : RdataType) (old : List RR) (s : Pending) : Prop :=
  Exact (Tuple.key forms) (fun t => t.op = .add) (fun k => k.2.2.1 = type) (There forms old)
    (There forms s.zone) s.diff

/-- The types of which all records at a name are in one set. -/
def Plain (type : RdataType) : Prop := type ≠ .sig ∧ type ≠ .rrsig

theorem Coherent.covers_zero (h : Coherent forms z) (hr : r ∈ z) (hplain : Plain r.rdata.type) : r.covers = 0 := by
  rw [h.covers r hr hplain.1, Rdata.covers, if_neg hplain.2]

/-- The type is one of which the data of a record tell its set. -/
structure Told (forms : Forms) (type : RdataType) (z : List RR) : Prop where
  covers : ∀ a b : Rdata, a.type = type → a.same forms b = true → a.covers = b.covers
  stored : ∀ r ∈ z, r.rdata.type = type → r.covers = r.rdata.covers

theorem Plain.told {type : RdataType} (h : Plain type) (hz : Coherent forms z) : Told forms type z where
  covers a b ha hsame := by
    rw [Rdata.covers, Rdata.covers, ← (Rdata.same_iff.mp hsame).1, ha, if_neg h.2, if_neg h.2]
  stored r hr htype := hz.covers r hr (htype ▸ h.1)

theorem Told.subset {type : RdataType} (h : Told forms type z) (hsub : ∀ r ∈ z', r ∈ z) : Told forms type z' :=
  ⟨h.covers, fun r hr => h.stored r (hsub r hr)⟩

theorem told_of_rrsig {type : RdataType}
    (hrrsig : ∀ a b, forms.canon .rrsig a = forms.canon .rrsig b → get16 a = get16 b)
    (hstored : ∀ r ∈ z, r.rdata.type = type → r.covers = r.rdata.covers) : Told forms type z := by
  refine ⟨fun a b ha hsame => ?_, hstored⟩
  obtain ⟨hab, hcanon⟩ := Rdata.same_iff.mp hsame
  rw [Rdata.covers, Rdata.covers, ← hab]
  split_ifs with htype
  · rw [← hab, htype] at hcanon
    rw [hrrsig _ _ hcanon]
  · rfl

theorem key_eq_iff : r.key forms = t.key forms ↔
    r.owner.ndata = t.name.ndata ∧ r.ttl = t.ttl ∧ r.rdata.same forms t.rdata = true := by
  simp [RR.key, Tuple.key, Rdata.same_iff]

variable {type : RdataType} {old : List RR}

theorem There.other_type (hkeep : ∀ r, r.rdata.type = type → (r ∈ z' ↔ r ∈ z)) {k : Bytes × UInt32 × RdataType × Bytes}
    (hk : k.2.2.1 = type) : There forms z' k ↔ There forms z k := by
  refine exists_congr fun r => and_congr_left ?_
  rintro rfl
  exact hkeep r hk

section
variable (h : ExactFor forms type old s) (hz : Coherent forms s.zone)
include h hz

theorem ExactFor.other (htype : t.rdata.type ≠ type)
    (hrun : doOneTuple forms origin s t = .ok s') : ExactFor forms type old s' := by
  have hkeep : ∀ k : Bytes × UInt32 × RdataType × Bytes, k.2.2.1 = type →
      (There forms s'.zone k ↔ There forms s.zone k) := fun k hk =>
    There.other_type (fun r hr => doOneTuple_other hz hrun (hr ▸ htype.symm)) hk
  unfold ExactFor at h ⊢
  cases hop : t.op with
  | add =>
    rw [(doOneTuple_add hz hop hrun).1]
    exact Exact.other (t := t) h htype hkeep
  | del =>
    obtain ⟨r, hdel⟩ := doOneTuple_del hz hop hrun
    rw [hdel.diff]
    exact Exact.other (t := (⟨t.op, r.owner, t.ttl, t.rdata⟩ : Tuple)) h htype hkeep

theorem ExactFor.del (htold : Told forms type s.zone) (hop : t.op = .del)
    (hrun : doOneTuple forms origin s t = .ok s') : ExactFor forms type old s' := by
  by_cases htype : t.rdata.type = type
  · obtain ⟨r, hdel⟩ := doOneTuple_del hz hop hrun
    have hkey : r.key forms = Tuple.key forms { t with name := r.owner } := key_eq_iff.mpr ⟨rfl, hdel.ttl, hdel.same⟩
    unfold ExactFor at h ⊢
    rw [hdel.diff]
    refine Exact.del h (by simp [hop]) ⟨r, hdel.mem, hkey⟩ fun k hk => ?_
    rw [← hkey]
    constructor
    · rintro ⟨r', hr', rfl⟩
      obtain ⟨hr', hne⟩ := hdel.mem_iff.mp hr'
      refine ⟨⟨r', hr', rfl⟩, fun heq => hne ?_⟩
      -- the records have the same key, so they are in one set
      have hk : r'.rdata.type = type := hk
      have htype' : r'.rdata.type = r.rdata.type := congrArg (·.2.2.1) heq
      have hsame : r'.rdata.same forms r.rdata = true := Rdata.same_iff.mpr ⟨htype', congrArg (·.2.2.2) heq⟩
      have hset : r'.SameSet r := ⟨equal_of_ndata (congrArg Prod.fst heq), htype', by
        rw [htold.stored r' hr' hk, htold.stored r hdel.mem (htype' ▸ hk), htold.covers _ _ hk hsame]⟩
      exact hz.eq hr' hdel.mem hset hsame
    · rintro ⟨⟨r', hr', rfl⟩, hne⟩
      exact ⟨r', hdel.mem_iff.mpr ⟨hr', fun heq => hne (heq ▸ rfl)⟩, rfl⟩
  · exact h.other hz htype hrun

theorem ExactFor.add (htold : Told forms type s.zone) (hop : t.op = .add)
    (hfresh : ∀ r ∈ s.zone, t.In r → r.owner = t.name ∧ r.rdata.same forms t.rdata = false)
    (hrun : doOneTuple forms origin s t = .ok s') : ExactFor forms type old s' := by
  by_cases htype : t.rdata.type = type
  · obtain ⟨hdiff, ⟨-, r, hr, hin, hsame⟩ | ⟨owner, hadd⟩⟩ := doOneTuple_add hz hop hrun
    · rw [(hfresh r hr hin).2] at hsame
      cases hsame
    · have hzone := hadd.zone_eq fun r hr hin => (hfresh r hr hin).1
      have hkey : (t.added t.name).key forms = t.key forms := rfl
      unfold ExactFor at h ⊢
      rw [hdiff]
      refine Exact.add h (by simp [hop]) ?_ fun k hk => ?_
      · rintro ⟨r, hr, heq⟩
        obtain ⟨hname, -, hsame⟩ := key_eq_iff.mp heq
        have htype' : r.rdata.type = t.rdata.type := (Rdata.same_iff.mp hsame).1
        have hin : t.In r := RR.inSet_iff.mpr ⟨equal_of_ndata hname, htype', by
          rw [htold.stored r hr (htype'.trans htype), htold.covers _ _ (htype'.trans htype) hsame]⟩
        rw [(hfresh r hr hin).2] at hsame
        cases hsame
      · simp only [There, hzone, mem_append, mem_singleton, or_and_right, exists_or, exists_eq_left, hkey,
          eq_comm (a := k)]
  · exact h.other hz htype hrun

end

end

/-! ### Any history of additions and deletions -/

section
variable {κ : Type}

/-- A set of records after a tuple, where `key` tells records apart. -/
def Tuple.apply (key : Tuple → κ) (z : κ → Prop) (t : Tuple) : κ → Prop := fun k =>
  match t.op with
  | .add => z k ∨ k = key t
  | .del => z k ∧ k ≠ key t

/-- The tuples lead from one set to another, each adding what is not there or deleting what is. -/
inductive History (key : Tuple → κ) : (κ → Prop) → List Tuple → (κ → Prop) → Prop
  | nil (z : κ → Prop) : History key z [] z
  | cons {z z' : κ → Prop} {t : Tuple} {ts : List Tuple} : (z (key t) ↔ t.op = .del) → History key (t.apply key z) ts z' →
    History key z (t :: ts) z'

theorem foldl_apply {key : Tuple → κ} {l : List Tuple} (honce : (l.map key).Nodup) (z : κ → Prop) (k : κ) :
    l.foldl (Tuple.apply key) z k ↔
      (∃ t ∈ l, key t = k ∧ t.op = .add) ∨ z k ∧ ¬∃ t ∈ l, key t = k ∧ t.op = .del := by
  induction l generalizing z with
  | nil => simp
  | cons t l ih =>
    obtain ⟨hother, honce⟩ := nodup_cons.mp honce
    rw [foldl_cons, ih honce]
    simp only [mem_cons, exists_eq_or_imp]
    by_cases hk : key t = k
    · subst hk
      have hnone : ∀ op, ¬∃ t' ∈ l, key t' = key t ∧ t'.op = op := fun op ⟨t', ht', hk, _⟩ =>
        hother (mem_map.mpr ⟨t', ht', hk⟩)
      cases hop : t.op <;> simp only [Tuple.apply, hop, hnone] <;> simp
    · cases hop : t.op <;> simp [Tuple.apply, hop, hk, Ne.symm hk]

theorem History.exact {forms : Forms} {z0 z z' : Bytes × UInt32 × RdataType × Bytes → Prop} {ts diff : List Tuple}
    (h : History (Tuple.key forms) z ts z')
    (hexact : Exact (Tuple.key forms) (fun t => t.op = .add) (fun _ => True) z0 z diff) :
    Exact (Tuple.key forms) (fun t => t.op = .add) (fun _ => True) z0 z'
      (ts.foldl (appendminimal forms) diff) := by
  induction h generalizing diff with
  | nil => exact hexact
  | @cons z z' t ts hvalid _ ih =>
    refine ih ?_
    cases hop : t.op with
    | add => exact hexact.add (by simp [hop]) (by simp [hvalid, hop]) fun k _ => by simp [Tuple.apply, hop]
    | del => exact hexact.del (by simp [hop]) (by simp [hvalid, hop]) fun k _ => by simp [Tuple.apply, hop]

section
variable {forms : Forms} {z z' : Bytes × UInt32 × RdataType × Bytes → Prop} {diff : List Tuple}
  (h : Exact (Tuple.key forms) (fun t => t.op = .add) (fun _ => True) z z' diff)
include h

theorem Exact.added_iff (k) : (∃ t ∈ diff, t.key forms = k ∧ t.op = .add) ↔ z' k ∧ ¬z k := by
  simpa [state_eq_some h.once] using h.added k trivial

theorem Exact.deleted_iff (k) : (∃ t ∈ diff, t.key forms = k ∧ t.op = .del) ↔ z k ∧ ¬z' k := by
  have hop : ∀ op : Op, ¬op = .add ↔ op = .del := by rintro (_ | _) <;> simp
  simpa [state_eq_some h.once, hop] using h.deleted k trivial

/-- The difference leads from the one set to the other, in any order. -/
theorem Exact.foldl_eq {l : List Tuple} (hl : l.Perm diff) : l.foldl (Tuple.apply (Tuple.key forms)) z = z' := by
  funext k
  rw [eq_iff_iff, foldl_apply ((hl.map _).nodup_iff.mpr h.once)]
  simp only [hl.mem_iff, Exact.added_iff h, Exact.deleted_iff h]
  tauto

end

/-- The tuples that are left after any history are its net effect, where owners are told apart by their case too. -/
theorem History.minimal {forms : Forms} {z z' : Bytes × UInt32 × RdataType × Bytes → Prop} {ts : List Tuple}
    (h : History (Tuple.key forms) z ts z') :
    ((ts.foldl (appendminimal forms) []).map (Tuple.key forms)).Nodup ∧
      (∀ k, (∃ t ∈ ts.foldl (appendminimal forms) [], t.key forms = k ∧ t.op = .add) ↔ z' k ∧ ¬z k) ∧
      (∀ k, (∃ t ∈ ts.foldl (appendminimal forms) [], t.key forms = k ∧ t.op = .del) ↔ z k ∧ ¬z' k) ∧
      ∀ l : List Tuple, l.Perm (ts.foldl (appendminimal forms) []) → l.foldl (Tuple.apply (Tuple.key forms)) z = z' := by
  have hexact := h.exact (.nil _ z)
  exact ⟨hexact.once, Exact.added_iff hexact, Exact.deleted_iff hexact, fun l hl => Exact.foldl_eq hexact hl⟩

/-- Data that are compared octet by octet. -/
def bytewise : Forms := ⟨fun _ data => data, fun _ data => data, fun _ _ _ h => h, fun _ _ h => h, fun _ _ h => h ▸ rfl⟩

/-- An address record at a name of one letter. -/
def letterTuple (op : Op) (letter : UInt8) : Tuple := ⟨op, .tld letter, 300, .a, [192, 0, 2, 1]⟩

@[simp] theorem letterTuple_op (op : Op) (letter : UInt8) : (letterTuple op letter).op = op := rfl

/-- A record that comes and goes. -/
theorem History.minimal_twice : ∃ z', History (Tuple.key bytewise) (fun _ => False) [letterTuple .add 97, letterTuple .del 97] z' ∧
    (fun _ => False) = z' := by
  have hsame : (letterTuple .del 97).key bytewise = (letterTuple .add 97).key bytewise := rfl
  have hhistory : History (Tuple.key bytewise) (fun _ => False) [letterTuple .add 97, letterTuple .del 97] _ :=
    .cons (by simp) (.cons (by simp [Tuple.apply, hsame]) (.nil _))
  exact ⟨_, hhistory, hhistory.minimal.2.2.2 [] (by decide)⟩

/-- What tells records apart if the case of owners does not count. -/
def Tuple.caselessKey (forms : Forms) (t : Tuple) : Bytes × UInt32 × RdataType × Bytes :=
  (t.name.ndata.map tolower, (t.key forms).2)

/-- Where the case of owners does not count, a record that is deleted under another spelling and comes back has two tuples. -/
theorem History.respelled : ∃ z z', History (Tuple.caselessKey bytewise) z [letterTuple .del 65, letterTuple .add 97] z' ∧ z = z' ∧
    ([letterTuple .del 65, letterTuple .add 97].foldl (appendminimal bytewise) []).map (Tuple.caselessKey bytewise) =
      [(letterTuple .add 97).caselessKey bytewise, (letterTuple .add 97).caselessKey bytewise] := by
  have hsame : (letterTuple .del 65).caselessKey bytewise = (letterTuple .add 97).caselessKey bytewise := by decide
  refine ⟨(· = (letterTuple .add 97).caselessKey bytewise), _, .cons ?_ (.cons ?_ (.nil _)), ?_, by decide⟩
  · simp [hsame]
  · simp [Tuple.apply, hsame]
  · funext k
    simp [Tuple.apply, hsame]

end

end ZoneDiff

end OqsBind.Dns
