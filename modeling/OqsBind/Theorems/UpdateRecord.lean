import OqsBind.Ns.Update
import OqsBind.Theorems.ZoneDiff

/-! What one record of the update section does: records are deleted, or a set is made anew with one more record. -/

namespace OqsBind.Ns.Update
open Isc Dns.ZoneDiff List
open Dns (Name RdataType RdataClass)

section
variable {c : Conf} {s s' s'' : Pending} {z : List RR} {name : Name} {type covers : RdataType} {r : RR} {rs : List RR}

/-! ### Looking at the version -/

theorem mem_foreachRr (h : r ∈ foreachRr z name type covers) :
    r ∈ z ∧ r.owner.equal name = true ∧ (type = .any ∨ r.rdata.type = type) := by
  unfold foreachRr at h
  split_ifs at h with hany
  · obtain ⟨hr, hp⟩ := mem_filter.mp h
    simp only [Bool.and_eq_true] at hp
    exact ⟨hr, hp.1, .inl hany⟩
  · obtain ⟨hr, hp⟩ := mem_filter.mp h
    simp only [Bool.and_eq_true, RR.inSet_iff] at hp
    exact ⟨hr, hp.1.1, .inr hp.1.2.1⟩

theorem foreachRr_eq (hany : type ≠ .any) (hcovers : covers = .nsec3 → type = .rrsig) :
    foreachRr z name type covers = rrset z name type covers := by
  rw [foreachRr, if_neg hany]
  refine filter_congr fun r _ => Bool.eq_iff_iff.mpr ?_
  rw [Bool.and_eq_true]
  refine and_iff_left_of_imp fun hin => ?_
  obtain ⟨-, htype, hcov⟩ := RR.inSet_iff.mp hin
  rw [beq_iff_eq, RR.nsec3, htype, hcov, decide_eq_decide]
  exact or_congr_right ⟨fun hc => ⟨hcovers hc, hc⟩, And.right⟩

theorem mem_foreachRr_plain (h : Coherent c.forms z) (hplain : Plain type) (hany : type ≠ .any) :
    r ∈ foreachRr z name type 0 ↔ r ∈ z ∧ r.owner.equal name = true ∧ r.rdata.type = type := by
  rw [foreachRr_eq hany fun hc => absurd hc (by decide), rrset, mem_filter, RR.inSet_iff]
  refine and_congr_right fun hr => and_congr_right fun _ => and_iff_left_of_imp fun htype => ?_
  exact h.covers_zero hr (htype ▸ hplain)

theorem rrsetExists_iff (h : Coherent c.forms z) (hplain : Plain type) (hany : type ≠ .any) :
    rrsetExists z name type = true ↔ ∃ r ∈ z, r.owner.equal name = true ∧ r.rdata.type = type := by
  unfold rrsetExists
  rw [Bool.not_eq_true', isEmpty_eq_false_iff_exists_mem]
  exact exists_congr fun r => mem_foreachRr_plain h hplain hany

/-! ### Tuples about one name and type -/

/-- What tuples of one type and name leave as it is. -/
structure Framed (c : Conf) (type : RdataType) (name : Name) (s s' : Pending) : Prop where
  coherent : Coherent c.forms s'.zone
  other : ∀ r : RR, r.rdata.type ≠ type → (r ∈ s'.zone ↔ r ∈ s.zone)
  owner : ∀ r ∈ s'.zone, (r.rdata.type = type ∧ r.owner.equal name = true) ∨ ∃ r' ∈ s.zone, r'.SameSet r
  stored : (∀ r ∈ s.zone, r.covers = r.rdata.covers) → ∀ r ∈ s'.zone, r.covers = r.rdata.covers
  exact : ∀ type' old, type' ≠ type → ExactFor c.forms type' old s → ExactFor c.forms type' old s'

theorem Framed.refl (h : Coherent c.forms s.zone) : Framed c type name s s :=
  ⟨h, fun _ _ => Iff.rfl, fun r hr => .inr ⟨r, hr, .self r⟩, fun h => h, fun _ _ _ h => h⟩

theorem Framed.trans (h : Framed c type name s s') (h' : Framed c type name s' s'') : Framed c type name s s'' where
  coherent := h'.coherent
  other r hr := (h'.other r hr).trans (h.other r hr)
  owner r hr := by
    rcases h'.owner r hr with hin | ⟨r', hr', hset⟩
    · exact .inl hin
    · rcases h.owner r' hr' with ⟨htype, howner⟩ | ⟨r'', hr'', hset'⟩
      · exact .inl ⟨hset.2.1.symm.trans htype, Name.equal_left hset.1 howner⟩
      · exact .inr ⟨r'', hr'', hset'.trans hset⟩
  stored hs := h'.stored (h.stored hs)
  exact type' old hne hexact := h'.exact type' old hne (h.exact type' old hne hexact)

theorem Framed.tuple {t : Tuple} (h : Coherent c.forms s.zone) (htype : t.rdata.type = type)
    (hname : t.name.equal name = true) (hrun : doOneTuple c.forms c.origin s t = .ok s') : Framed c type name s s' where
  coherent := doOneTuple_coherent h hrun
  other _ hr := doOneTuple_other h hrun (htype ▸ hr)
  owner _ hr := (doOneTuple_owner h hrun hr).imp_left fun ⟨htype', howner⟩ =>
    ⟨htype'.trans htype, Name.equal_trans howner hname⟩
  stored := doOneTuple_stored h hrun
  exact _ _ hne hexact := hexact.other h (htype ▸ hne.symm) hrun

theorem Framed.tuples {ts : List Tuple} (h : Coherent c.forms s.zone)
    (hts : ∀ t ∈ ts, t.rdata.type = type ∧ t.name.equal name = true)
    (hrun : ts.foldlM (doOneTuple c.forms c.origin) s = .ok s') : Framed c type name s s' := by
  refine foldlM_kept (I := Framed c type name s) (fun t ht s₁ s2 hs1 hone => ?_) (.refl h) hrun
  obtain ⟨htype, hname⟩ := hts t ht
  exact hs1.trans (.tuple hs1.coherent htype hname hone)

/-! ### Deletions -/

/-- The records are deleted one by one, under this spelling of their owner. -/
def deleteAll (c : Conf) (name : Name) (rs : List RR) (s : Pending) : Except Result Pending :=
  rs.foldlM (fun s r => doOneTuple c.forms c.origin s ⟨.del, name, r.ttl, r.rdata⟩) s

/-- What is left after that. -/
structure Pruned (c : Conf) (name : Name) (rs : List RR) (s s' : Pending) : Prop where
  coherent : Coherent c.forms s'.zone
  sub : ∀ r ∈ s'.zone, r ∈ s.zone
  gone : ∀ r ∈ s.zone, r ∉ s'.zone → r.owner.equal name = true ∧
    ∃ r₀ ∈ rs, r₀.rdata.type = r.rdata.type ∧ (r₀.rdata.type ≠ .sig ∨ r₀.covers = r₀.rdata.covers → r = r₀)
  removed : ∀ r ∈ rs, r.rdata.type ≠ .sig ∨ r.covers = r.rdata.covers → r ∉ s'.zone
  exact : ∀ type old, Told c.forms type s.zone → ExactFor c.forms type old s → ExactFor c.forms type old s'

theorem deleteAll_spec (h : Coherent c.forms s.zone) (hrs : ∀ r ∈ rs, r ∈ s.zone ∧ r.owner.equal name = true)
    (hrun : deleteAll c name rs s = .ok s') : Pruned c name rs s s' := by
  let I : List RR → Pending → Prop := fun l s1 => ∃ done, rs = done ++ l ∧ Pruned c name done s s1
  have hround : ∀ r0 l s1 s2, I (r0 :: l) s1 →
      doOneTuple c.forms c.origin s1 ⟨.del, name, r0.ttl, r0.rdata⟩ = .ok s2 → I l s2 := by
    rintro r0 l s1 s2 ⟨done, rfl, hs1⟩ hone
    obtain ⟨r, hdel⟩ := doOneTuple_del hs1.coherent rfl hone
    obtain ⟨howner, htype, hcovers⟩ := RR.inSet_iff.mp hdel.inSet
    -- the record that was deleted is the one that was meant
    have hsame : r0.rdata.type ≠ .sig ∨ r0.covers = r0.rdata.covers → r = r0 := fun hstored => by
      obtain ⟨hmem0, howner0⟩ := hrs r0 (by simp)
      refine h.eq (hs1.sub r hdel.mem) hmem0 ⟨Name.equal_trans howner (Name.equal_symm howner0), htype, ?_⟩ hdel.same
      rw [hcovers, hstored.elim (h.covers r0 hmem0) id]
    refine ⟨done ++ [r0], by simp, hdel.coherent hs1.coherent, fun r' hr' => hs1.sub r' (hdel.mem_iff.mp hr').1,
      fun r' hr' hnot => ?_, fun r' hr' hstored hin => ?_,
      fun type old htold hold => (hs1.exact type old htold hold).del hs1.coherent (htold.subset hs1.sub) rfl hone⟩
    · by_cases hin : r' ∈ s1.zone
      · have heq : r' = r := by
          by_contra hne
          exact hnot (hdel.mem_iff.mpr ⟨hin, hne⟩)
        subst heq
        exact ⟨howner, r0, by simp, htype.symm, hsame⟩
      · obtain ⟨howner', r1, hr1, hsame1⟩ := hs1.gone r' hr' hin
        exact ⟨howner', r1, mem_append_left _ hr1, hsame1⟩
    · obtain ⟨hin, hne⟩ := hdel.mem_iff.mp hin
      rcases mem_append.mp hr' with hr' | hr'
      · exact hs1.removed r' hr' hstored hin
      · obtain rfl := mem_singleton.mp hr'
        exact hne (hsame hstored).symm
  obtain ⟨done, heq, hpruned⟩ := foldlM_rounds hround (l := rs) (a := s)
    ⟨[], rfl, h, fun _ hr => hr, fun r hr hnot => absurd hr hnot, nofun, fun _ _ _ h => h⟩ hrun
  rwa [heq, append_nil]

theorem deleteIf_spec {p : RR → Bool} (h : Coherent c.forms s.zone) (hrun : deleteIf c p name type covers s = .ok s') :
    Pruned c name ((foreachRr s.zone name type covers).filter p) s s' := by
  obtain ⟨-, -, hrun⟩ := bind_ok hrun
  refine deleteAll_spec h (fun r hr => ?_) hrun
  obtain ⟨hmem, howner, -⟩ := mem_foreachRr (mem_filter.mp hr).1
  exact ⟨hmem, howner⟩

/-! ### Additions -/

section
variable (c : Conf) (oldname name : Name) (ttl : UInt32) (rdata : Rdata) (r : RR)

/-- The record is there already, in every respect. -/
def ignored : Bool := r.rdata.casesame c.forms rdata && name.caseequal oldname && (r.ttl = ttl : Bool)

/-- The record is deleted before the addition. -/
def doomed : Bool :=
  !ignored c oldname name ttl rdata r && (replaces rdata r.rdata || !(r.ttl = ttl : Bool) || !name.caseequal oldname)

/-- The record is deleted and added again, with the new TTL and spelling. -/
def readded : Bool :=
  !replaces rdata r.rdata && (!(r.ttl = ttl : Bool) || !name.caseequal oldname) && !r.rdata.casesame c.forms rdata

/-- What is added. -/
def renewal (rs : List RR) : List Rdata := ((rs.filter (readded c oldname name ttl rdata)).map RR.rdata) ++ [rdata]

end

theorem prepare_eq {oldname : Name} {ttl : UInt32} {rdata : Rdata} (rs : List RR) (ctx : Prepared) :
    rs.foldl (addRrPrepare c oldname name ttl rdata) ctx =
      ⟨ctx.ignoreAdd || rs.any (ignored c oldname name ttl rdata),
        ctx.delDiff ++ (rs.filter (doomed c oldname name ttl rdata)).map fun r => ⟨.del, oldname, r.ttl, r.rdata⟩,
        ctx.addDiff ++ (rs.filter (readded c oldname name ttl rdata)).map fun r => ⟨.add, name, ttl, r.rdata⟩⟩ := by
  induction rs generalizing ctx with
  | nil => simp
  | cons r rs ih =>
    rw [foldl_cons, ih, addRrPrepare, any_cons, filter_cons, filter_cons, doomed, ignored, readded]
    cases r.rdata.casesame c.forms rdata <;> cases name.caseequal oldname <;> by_cases httl : r.ttl = ttl <;>
      cases replaces rdata r.rdata <;> simp [httl]

/-- The set can take the data: its records have the spelling, and none of the data is there. -/
structure Ready (c : Conf) (name : Name) (type covers : RdataType) (rds : List Rdata) (s : Pending) : Prop where
  coherent : Coherent c.forms s.zone
  spelled : ∀ r ∈ s.zone, r.inSet name type covers = true → r.owner = name
  fresh : ∀ r ∈ s.zone, r.inSet name type covers = true → ∀ rd ∈ rds, r.rdata.same c.forms rd = false
  apart : rds.Pairwise fun a b => a.same c.forms b = false
  types : ∀ rd ∈ rds, rd.type = type ∧ rd.covers = covers

/-- What additions to the set have done: the data are there. -/
structure Extended (c : Conf) (name : Name) (ttl : UInt32) (rds : List Rdata) (s s' : Pending) : Prop where
  mem_iff : ∀ r, r ∈ s'.zone ↔ r ∈ s.zone ∨ ∃ rd ∈ rds, r = ⟨name, rd.covers, ttl, rd⟩
  exact : ∀ type old, Told c.forms type s.zone → ExactFor c.forms type old s → ExactFor c.forms type old s'

theorem Ready.add {ttl : UInt32} {rd : Rdata} {rds : List Rdata} (h : Ready c name type covers (rd :: rds) s)
    (hrun : doOneTuple c.forms c.origin s ⟨.add, name, ttl, rd⟩ = .ok s') :
    s'.zone = s.zone ++ [⟨name, rd.covers, ttl, rd⟩] ∧ Ready c name type covers rds s' ∧ Extended c name ttl [rd] s s' := by
  obtain ⟨rfl, rfl⟩ := h.types rd (.head _)
  have hfresh : ∀ r ∈ s.zone, Tuple.In ⟨.add, name, ttl, rd⟩ r → r.owner = name ∧ r.rdata.same c.forms rd = false :=
    fun r hr hset => ⟨h.spelled r hr hset, h.fresh r hr hset rd (.head _)⟩
  have hexact : ∀ type old, Told c.forms type s.zone → ExactFor c.forms type old s → ExactFor c.forms type old s' :=
    fun type old htold hold => hold.add h.coherent htold rfl hfresh hrun
  obtain ⟨-, ⟨-, r, hr, hset, hsame⟩ | ⟨owner, hadd⟩⟩ := doOneTuple_add h.coherent rfl hrun
  · cases (hfresh r hr hset).2.symm.trans hsame
  · have hzone := hadd.zone_eq fun r hr hset => (hfresh r hr hset).1
    have hmem : ∀ r, r ∈ s'.zone ↔ r ∈ s.zone ∨ r = ⟨name, rd.covers, ttl, rd⟩ := fun r => by
      rw [hzone, mem_append, mem_singleton]
      rfl
    obtain ⟨hapart, hrest⟩ := pairwise_cons.mp h.apart
    refine ⟨hzone, ⟨hadd.coherent h.coherent, fun r hr hset => ?_, fun r hr hset rd' hrd' => ?_, hrest,
      fun rd' hrd' => h.types rd' (.tail _ hrd')⟩, fun r => ?_, hexact⟩
    · rcases (hmem r).mp hr with hr | rfl
      · exact h.spelled r hr hset
      · rfl
    · rcases (hmem r).mp hr with hr | rfl
      · exact h.fresh r hr hset rd' (.tail _ hrd')
      · exact hapart rd' hrd'
    · rw [hmem]
      simp

theorem Ready.addAll {ttl : UInt32} : ∀ {rds : List Rdata} {s s' : Pending}, Ready c name type covers rds s →
    (rds.map fun rd => (⟨.add, name, ttl, rd⟩ : Tuple)).foldlM (doOneTuple c.forms c.origin) s = .ok s' →
    Extended c name ttl rds s s'
  | [], s, s', _, hrun => by
    cases hrun
    exact ⟨fun r => by simp, fun _ _ _ h => h⟩
  | rd :: rds, s, s', h, hrun => by
    obtain ⟨s₁, hone, hrun⟩ := bind_ok hrun
    obtain ⟨-, hready, hext⟩ := h.add hone
    have hext' := hready.addAll hrun
    refine ⟨fun r => ?_, fun type old htold hold => hext'.exact type old ?_ (hext.exact type old htold hold)⟩
    · rw [hext'.mem_iff, hext.mem_iff]
      simp [or_assoc]
    · refine ⟨htold.covers, fun r hr htype => ?_⟩
      rcases (hext.mem_iff r).mp hr with hr | ⟨rd, -, rfl⟩
      · exact htold.stored r hr htype
      · rfl

/-- What the addition of a record has done: the set of its type at the name is as it was, or was made anew around it. -/
structure Merged (c : Conf) (name : Name) (ttl : UInt32) (rdata : Rdata) (s s' : Pending) : Prop
    extends Framed c rdata.type name s s' where
  exactAll : ∀ type old, Told c.forms type s.zone → (type = .rrsig → c.rdclass ≠ .any) → ExactFor c.forms type old s →
    ExactFor c.forms type old s'
  added : Plain rdata.type → ⟨name, 0, ttl, rdata⟩ ∈ s'.zone
  elsewhere : Plain rdata.type → ∀ r : RR, r.owner.equal name = false → (r ∈ s'.zone ↔ r ∈ s.zone)
  single : rdata.type ∈ [RdataType.cname, .dname, .soa] → ∀ r ∈ s'.zone, r.rdata.type = rdata.type →
    r.owner.equal name = true → r = ⟨name, 0, ttl, rdata⟩

theorem same_of_casesame {a b : Rdata} (h : a.casesame c.forms b = false) : a.same c.forms b = false := by
  by_contra hsame
  obtain ⟨htype, hcanon⟩ := Rdata.same_iff.mp (by simpa using hsame)
  rw [htype] at hcanon
  have hfold := c.forms.fold_of_canon b.type a.data b.data hcanon
  simp [Rdata.casesame, htype, hfold] at h

section
variable {oldname : Name} {ttl : UInt32} {rdata : Rdata}

theorem of_not_doomed (hignored : ignored c oldname name ttl rdata r = false)
    (hdoomed : doomed c oldname name ttl rdata r = false) :
    replaces rdata r.rdata = false ∧ r.ttl = ttl ∧ name = oldname ∧ r.rdata.casesame c.forms rdata = false := by
  simp only [doomed, hignored, Bool.not_false, Bool.true_and, Bool.or_eq_false_iff, Bool.not_eq_false', decide_eq_true_eq] at hdoomed
  obtain ⟨⟨hreplaces, httl⟩, hcase⟩ := hdoomed
  refine ⟨hreplaces, httl, Name.caseequal_iff.mp hcase, ?_⟩
  simpa [ignored, hcase, httl] using hignored

theorem readded_iff : readded c oldname name ttl rdata r = true ↔
    replaces rdata r.rdata = false ∧ ¬ (r.ttl = ttl ∧ name = oldname) ∧ r.rdata.casesame c.forms rdata = false := by
  rw [← Name.caseequal_iff (n := name)]
  simp only [readded, Bool.and_eq_true, Bool.or_eq_true, Bool.not_eq_true', decide_eq_false_iff_not, and_assoc]
  refine and_congr_right fun _ => and_congr_left fun _ => ?_
  rw [not_and_or, Bool.not_eq_true]

theorem mem_renewal {rd : Rdata} : rd ∈ renewal c oldname name ttl rdata rs ↔
    (∃ r ∈ rs, readded c oldname name ttl rdata r = true ∧ r.rdata = rd) ∨ rd = rdata := by
  simp [renewal, and_assoc]

theorem mem_set (hrs : rs = rrset z name rdata.type rdata.covers) (hr : r ∈ rs) :
    r ∈ z ∧ r.inSet name rdata.type rdata.covers = true := by
  rw [hrs] at hr
  exact mem_filter.mp hr

theorem left_of_pruned (hstored : ∀ r ∈ rs, r.covers = r.rdata.covers) (hrs : rs = rrset s.zone name rdata.type rdata.covers)
    (hignored : ∀ r ∈ rs, ignored c oldname name ttl rdata r = false)
    (hpruned : Pruned c oldname (rs.filter (doomed c oldname name ttl rdata)) s s') (hr : r ∈ s'.zone)
    (hin : r.inSet name rdata.type rdata.covers = true) : r ∈ rs ∧
      replaces rdata r.rdata = false ∧ r.ttl = ttl ∧ name = oldname ∧ r.rdata.casesame c.forms rdata = false := by
  have hmem : r ∈ rs := hrs ▸ mem_filter.mpr ⟨hpruned.sub r hr, hin⟩
  refine ⟨hmem, of_not_doomed (hignored r hmem) ?_⟩
  by_contra hdoomed
  exact hpruned.removed r (mem_filter.mpr ⟨hmem, by simpa using hdoomed⟩) (.inr (hstored r hmem)) hr

theorem Ready.of_pruned {rs : List RR} (h : Coherent c.forms s.zone) (hstored : ∀ r ∈ rs, r.covers = r.rdata.covers)
    (hrs : rs = rrset s.zone name rdata.type rdata.covers) (hspelled : ∀ r ∈ rs, r.owner = oldname)
    (hignored : ∀ r ∈ rs, ignored c oldname name ttl rdata r = false)
    (hpruned : Pruned c oldname (rs.filter (doomed c oldname name ttl rdata)) s s') :
    Ready c name rdata.type rdata.covers (renewal c oldname name ttl rdata rs) s' := by
  have hset : ∀ r ∈ rs, ∀ r' ∈ rs, r.SameSet r' := fun r hr r' hr' =>
    sameSet_of_inSet (mem_set hrs hr).2 (mem_set hrs hr').2
  refine ⟨hpruned.coherent, fun r hr hin => ?_, fun r hr hin rd hrd => ?_, ?_, fun rd hrd => ?_⟩
  · obtain ⟨hin, -, -, hname, -⟩ := left_of_pruned hstored hrs hignored hpruned hr hin
    rw [hspelled r hin, hname]
  · obtain ⟨hin, -, httl, hname, hcase⟩ := left_of_pruned hstored hrs hignored hpruned hr hin
    rcases mem_renewal.mp hrd with ⟨r', hin', hre, rfl⟩ | rfl
    · have httl' := (h.spelling r' (mem_set hrs hin').1 r (mem_set hrs hin).1 (hset r' hin' r hin)).2
      exact absurd ⟨httl'.trans httl, hname⟩ (readded_iff.mp hre).2.1
    · exact same_of_casesame hcase
  · refine pairwise_append.mpr ⟨?_, pairwise_singleton .., fun a ha b hb => ?_⟩
    · rw [pairwise_map]
      refine ((h.once.sublist (hrs ▸ filter_sublist)).filter _).imp_of_mem fun {a b} ha hb hne => ?_
      by_contra hsame
      exact hne ⟨hset a (mem_filter.mp ha).1 b (mem_filter.mp hb).1, by simpa using hsame⟩
    · obtain ⟨r', hr', rfl⟩ := mem_map.mp ha
      rw [mem_singleton.mp hb]
      exact same_of_casesame (readded_iff.mp (mem_filter.mp hr').2).2.2
  · rcases mem_renewal.mp hrd with ⟨r', hr', -, rfl⟩ | rfl
    · obtain ⟨hmem, hin⟩ := mem_set hrs hr'
      obtain ⟨-, htype, hcovers⟩ := RR.inSet_iff.mp hin
      exact ⟨htype, (hstored r' hr').symm.trans hcovers⟩
    · exact ⟨rfl, rfl⟩

theorem replaces_single {r : RR} (hsingle : rdata.type ∈ [RdataType.cname, .dname, .soa])
    (htype : r.rdata.type = rdata.type) : replaces rdata r.rdata = true := by
  have hin : r.rdata.type ∈ [RdataType.cname, .dname, .soa, .nsec] := by
    rw [htype]
    simp only [mem_cons, not_mem_nil, or_false] at hsingle ⊢
    tauto
  simp only [replaces, decide_eq_true_eq]
  exact ⟨htype, .inl hin⟩

/-- A record of the set that is made anew from the records `rs`. -/
def Renewed (c : Conf) (name : Name) (ttl : UInt32) (rdata : Rdata) (rs : List RR) (r : RR) : Prop :=
  r.owner = name ∧ r.covers = rdata.covers ∧ r.ttl = ttl ∧ (r.rdata = rdata ∨ ∃ r₀ ∈ rs, r₀.rdata = r.rdata ∧
    r₀.rdata.casesame c.forms rdata = false ∧ replaces rdata r₀.rdata = false)

/-- The addition of a record that is not there: what is deleted first, and what is added then. -/
structure Adding (c : Conf) (s : Pending) (name : Name) (ttl : UInt32) (rdata : Rdata) (rs : List RR) (oldname : Name)
    (s₁ s' : Pending) : Prop where
  head : (rs.head?.map RR.owner).getD name = oldname
  kept : ∀ r ∈ rs, ignored c oldname name ttl rdata r = false
  dels : deleteAll c oldname (rs.filter (doomed c oldname name ttl rdata)) s = .ok s₁
  adds : ((((rs.filter (readded c oldname name ttl rdata)).map RR.rdata) ++ [rdata]).map
    fun rd => (⟨.add, name, ttl, rd⟩ : Tuple)).foldlM (doOneTuple c.forms c.origin) s₁ = .ok s'

theorem addRr_eq (hrs : foreachRr s.zone name rdata.type covers = rs) (hhead : (rs.head?.map RR.owner).getD name = oldname) :
    addRr c s name ttl rdata covers = if rs.any (ignored c oldname name ttl rdata) then .ok s else
      deleteAll c oldname (rs.filter (doomed c oldname name ttl rdata)) s >>=
        ((renewal c oldname name ttl rdata rs).map fun rd => (⟨.add, name, ttl, rd⟩ : Tuple)).foldlM
          (doOneTuple c.forms c.origin) := by
  unfold addRr renewal
  dsimp only
  rw [prepare_eq, hrs, hhead]
  simp [deleteAll, foldlM_map, Function.comp_def]
  rfl

theorem addRr_cases (hrun : addRr c s name ttl rdata covers = .ok s') :
    (s' = s ∧ ∃ r ∈ foreachRr s.zone name rdata.type covers, r.rdata.casesame c.forms rdata = true) ∨
      ∃ oldname s₁, Adding c s name ttl rdata (foreachRr s.zone name rdata.type covers) oldname s₁ s' := by
  rw [addRr_eq rfl rfl] at hrun
  split_ifs at hrun with hany
  · cases hrun
    obtain ⟨r, hr, hignored⟩ := any_eq_true.mp hany
    simp only [ignored, Bool.and_eq_true] at hignored
    exact .inl ⟨rfl, r, hr, hignored.1.1⟩
  · obtain ⟨s₁, hdels, hadds⟩ := bind_ok hrun
    exact .inr ⟨_, s₁, rfl, by simpa using hany, hdels, hadds⟩

theorem spelled_of_head (h : Coherent c.forms z) (hrs : rs = rrset z name rdata.type rdata.covers)
    (hhead : (rs.head?.map RR.owner).getD name = oldname) : ∀ r ∈ rs, r.owner = oldname := by
  intro r hr
  rcases hhead' : rs.head? with _ | r0
  · rw [head?_eq_none_iff.mp hhead'] at hr
    cases hr
  · obtain ⟨hmem0, hin0⟩ := mem_set hrs (mem_of_head? hhead')
    obtain ⟨hmem, hin⟩ := mem_set hrs hr
    rw [← hhead, hhead']
    exact (h.spelling r hmem r0 hmem0 (sameSet_of_inSet hin hin0)).1

section
variable {s₁ : Pending}

theorem Adding.framed (h : Coherent c.forms s.zone) (hadding : Adding c s name ttl rdata rs oldname s₁ s')
    (hrs : ∀ r ∈ rs, r.owner.equal name = true ∧ r.rdata.type = rdata.type) : Framed c rdata.type name s s' := by
  have holdname : oldname.equal name = true := by
    rw [← hadding.head]
    rcases hhead : rs.head? with _ | r
    · exact Name.equal_self _
    · exact (hrs r (mem_of_head? hhead)).1
  have hdels : Framed c rdata.type name s s₁ := by
    have hrun := hadding.dels
    rw [deleteAll, ← foldlM_map (f := fun r : RR => (⟨.del, oldname, r.ttl, r.rdata⟩ : Tuple))] at hrun
    refine .tuples h (fun t ht => ?_) hrun
    obtain ⟨r, hr, rfl⟩ := mem_map.mp ht
    exact ⟨(hrs r (mem_filter.mp hr).1).2, holdname⟩
  refine hdels.trans (.tuples hdels.coherent (fun t ht => ?_) hadding.adds)
  obtain ⟨rd, hrd, rfl⟩ := mem_map.mp ht
  refine ⟨?_, Name.equal_self _⟩
  rcases mem_renewal.mp hrd with ⟨r, hr, -, rfl⟩ | rfl
  · exact (hrs r hr).2
  · rfl

variable (h : Coherent c.forms s.zone) (hadding : Adding c s name ttl rdata rs oldname s₁ s')
  (hrs : rs = rrset s.zone name rdata.type rdata.covers)
include h hadding hrs

theorem Adding.pruned : Pruned c oldname (rs.filter (doomed c oldname name ttl rdata)) s s₁ := by
  refine deleteAll_spec h (fun r hr => ?_) hadding.dels
  have hr := (mem_filter.mp hr).1
  exact ⟨(mem_set hrs hr).1, spelled_of_head h hrs hadding.head r hr ▸ Name.equal_self _⟩

variable (hstored : ∀ r ∈ rs, r.covers = r.rdata.covers)
include hstored

theorem Adding.ready : Ready c name rdata.type rdata.covers (renewal c oldname name ttl rdata rs) s₁ :=
  Ready.of_pruned h hstored hrs (spelled_of_head h hrs hadding.head) hadding.kept (hadding.pruned h hrs)

theorem Adding.extended : Extended c name ttl (renewal c oldname name ttl rdata rs) s₁ s' :=
  (hadding.ready h hrs hstored).addAll hadding.adds

/-- The records of the version, for most types. -/
theorem Adding.mem_iff (r : RR) : r ∈ s'.zone ↔
    (r ∈ s.zone ∧ (r ∈ rs → doomed c oldname name ttl rdata r = false)) ∨
      ∃ rd ∈ renewal c oldname name ttl rdata rs, r = ⟨name, rd.covers, ttl, rd⟩ := by
  have hpruned := hadding.pruned h hrs
  rw [(hadding.extended h hrs hstored).mem_iff]
  refine or_congr_left ⟨fun hr => ⟨hpruned.sub r hr, fun hin => ?_⟩, fun ⟨hr, hnot⟩ => ?_⟩
  · by_contra hd
    exact hpruned.removed r (mem_filter.mpr ⟨hin, by simpa using hd⟩) (.inr (hstored r hin)) hr
  · by_contra hgone
    obtain ⟨-, r0, hr0, -, heq⟩ := hpruned.gone r hr hgone
    obtain ⟨hin0, hd0⟩ := mem_filter.mp hr0
    cases heq (.inr (hstored r0 hin0))
    rw [hnot hin0] at hd0
    cases hd0

/-- The set after the addition: the new record, and the old ones that are neither equal to it nor replaced by it. -/
theorem Adding.set (r : RR) : r ∈ rrset s'.zone name rdata.type rdata.covers ↔ Renewed c name ttl rdata rs r := by
  have hspelled := spelled_of_head h hrs hadding.head
  rw [rrset, mem_filter, hadding.mem_iff h hrs hstored]
  constructor
  · rintro ⟨⟨hr, hnot⟩ | ⟨rd, hrd, rfl⟩, hin⟩
    · have hmem : r ∈ rs := hrs ▸ mem_filter.mpr ⟨hr, hin⟩
      obtain ⟨hreplaces, httl, hname, hcase⟩ := of_not_doomed (hadding.kept r hmem) (hnot hmem)
      exact ⟨(hspelled r hmem).trans hname.symm, (RR.inSet_iff.mp hin).2.2, httl, .inr ⟨r, hmem, rfl, hcase, hreplaces⟩⟩
    · refine ⟨rfl, (RR.inSet_iff.mp hin).2.2, rfl, ?_⟩
      rcases mem_renewal.mp hrd with ⟨r0, hmem, hre, rfl⟩ | hrd
      · obtain ⟨hreplaces, -, hcase⟩ := readded_iff.mp hre
        exact .inr ⟨r0, hmem, rfl, hcase, hreplaces⟩
      · exact .inl hrd
  · rintro ⟨howner, hcovers, httl, hrd⟩
    obtain ⟨owner, covers, ttl, rd⟩ := r
    dsimp only at howner hcovers httl hrd ⊢
    subst howner hcovers httl
    rcases hrd with rfl | ⟨r0, hr0, rfl, hcase, hreplaces⟩
    · exact ⟨.inr ⟨rd, mem_renewal.mpr (.inr rfl), rfl⟩, RR.inSet_iff.mpr ⟨Name.equal_self _, rfl, rfl⟩⟩
    · obtain ⟨hmem, hin⟩ := mem_set hrs hr0
      obtain ⟨-, htype, hcovers⟩ := RR.inSet_iff.mp hin
      refine ⟨?_, RR.inSet_iff.mpr ⟨Name.equal_self _, htype, rfl⟩⟩
      -- an old record has the TTL and the spelling already, or is added again with them
      by_cases hkept : r0.ttl = ttl ∧ owner = oldname
      · have hself : (⟨owner, rdata.covers, ttl, r0.rdata⟩ : RR) = r0 := by
          rw [hkept.2, ← hspelled r0 hr0, ← hcovers, ← hkept.1]
        rw [hself]
        exact .inl ⟨hmem, fun _ => by simp [doomed, hreplaces, hkept.1, Name.caseequal_iff.mpr hkept.2]⟩
      · refine .inr ⟨r0.rdata, mem_renewal.mpr (.inl ⟨r0, hr0, ?_, rfl⟩), ?_⟩
        · exact readded_iff.mpr ⟨hreplaces, hkept, hcase⟩
        · rw [← hstored r0 hr0, hcovers]

theorem Adding.others (hout : r.inSet name rdata.type rdata.covers = false) : r ∈ s'.zone ↔ r ∈ s.zone := by
  rw [hadding.mem_iff h hrs hstored]
  constructor
  · rintro (⟨hr, -⟩ | ⟨rd, hrd, rfl⟩)
    · exact hr
    · obtain ⟨htype, hcovers⟩ := (hadding.ready h hrs hstored).types rd hrd
      exact absurd (RR.inSet_iff.mpr ⟨Name.equal_self _, htype, hcovers⟩) (Bool.not_eq_true _ ▸ hout)
  · refine fun hr => .inl ⟨hr, fun hin => ?_⟩
    rw [(mem_set hrs hin).2] at hout
    cases hout

/-- Of a type of which a name has one record, the new one is the only one. -/
theorem Adding.single (hsingle : rdata.type ∈ [RdataType.cname, .dname, .soa])
    (hr : r ∈ s'.zone) (hin : r.inSet name rdata.type rdata.covers = true) : r = ⟨name, rdata.covers, ttl, rdata⟩ := by
  obtain ⟨howner, hcovers, httl, hrd⟩ := (hadding.set h hrs hstored r).mp (mem_filter.mpr ⟨hr, hin⟩)
  rcases hrd with hrd | ⟨r0, hr0, -, -, hleft⟩
  · cases r
    rw [RR.mk.injEq]
    exact ⟨howner, hcovers, httl, hrd⟩
  · rw [replaces_single hsingle (RR.inSet_iff.mp (mem_set hrs hr0).2).2.1] at hleft
    cases hleft

omit hstored in
theorem Adding.exact (htold : Told c.forms rdata.type s.zone) {old : List RR} (hold : ExactFor c.forms rdata.type old s) :
    ExactFor c.forms rdata.type old s' := by
  have hpruned := hadding.pruned h hrs
  have hstored : ∀ r ∈ rs, r.covers = r.rdata.covers := fun r hr =>
    htold.stored r (mem_set hrs hr).1 (RR.inSet_iff.mp (mem_set hrs hr).2).2.1
  exact (hadding.extended h hrs hstored).exact _ old (htold.subset hpruned.sub) (hpruned.exact _ old htold hold)

end

theorem plain_single (h : type ∈ [RdataType.cname, .dname, .soa]) : Plain type := by
  simp only [mem_cons, not_mem_nil, or_false] at h
  rcases h with rfl | rfl | rfl <;> exact ⟨by decide, by decide⟩

/-- The covered type by which the set is looked for: that of the record, or that of a signature in the old format, for which
    there is no node. -/
def Finds (c : Conf) (z : List RR) (name : Name) (rdata : Rdata) (covers : RdataType) : Prop :=
  covers = rdata.covers ∨ rdata.type = .sig ∧ covers ≠ 0 ∧ c.node z name = false

theorem Finds.foreachRr_eq (hfinds : Finds c z name rdata covers) (hany : rdata.type ≠ .any)
    (hstored : ∀ r ∈ z, r.rdata.type = rdata.type → r.covers = r.rdata.covers) :
    foreachRr z name rdata.type covers = rrset z name rdata.type rdata.covers := by
  rcases hfinds with rfl | ⟨htype, hcovers, hnode⟩
  · refine Update.foreachRr_eq hany fun hnsec3 => ?_
    by_contra hrrsig
    rw [Rdata.covers, if_neg hrrsig] at hnsec3
    cases hnsec3
  · -- neither set has a record
    have hzero : ∀ {rd : Rdata}, rd.type = .sig → rd.covers = 0 := fun hsig => if_neg (hsig ▸ by decide)
    rw [foreachRr, if_neg hany]
    refine (filter_eq_nil_iff.mpr fun r hr hin => ?_).trans (filter_eq_nil_iff.mpr fun r hr hin => ?_).symm
    · obtain ⟨-, hsig, hcov⟩ := RR.inSet_iff.mp (Bool.and_eq_true_iff.mp hin).1
      exact hcovers (by rw [← hcov, hstored r hr hsig, hzero (hsig.trans htype)])
    · obtain ⟨howner, hsig, hcov⟩ := RR.inSet_iff.mp hin
      have hmain : r.nsec3 = false := by
        rw [RR.nsec3, hsig, htype, hcov, hzero htype]
        rfl
      rw [c.node_of_mem z name r hr hmain howner] at hnode
      cases hnode

theorem addRr_spec (h : Coherent c.forms s.zone) (hany : rdata.type ≠ .any)
    (hfinds : (rdata.type = .rrsig → c.rdclass ≠ .any) → Finds c s.zone name rdata covers)
    (hrun : addRr c s name ttl rdata covers = .ok s') :
    (s' = s ∧ ∃ r ∈ foreachRr s.zone name rdata.type covers, r.rdata.casesame c.forms rdata = true) ∨
      Merged c name ttl rdata s s' := by
  refine (addRr_cases hrun).imp_right ?_
  rintro ⟨oldname, s₁, hadding⟩
  have hframe : Framed c rdata.type name s s' := hadding.framed h fun r hr => by
    obtain ⟨-, howner, htype⟩ := mem_foreachRr hr
    exact ⟨howner, htype.resolve_left hany⟩
  have hzero : Plain rdata.type → rdata.covers = 0 := fun hplain => if_neg hplain.2
  have hrs : Plain rdata.type → foreachRr s.zone name rdata.type covers = rrset s.zone name rdata.type rdata.covers :=
    fun hplain => (hfinds fun htype => absurd htype hplain.2).foreachRr_eq hany (hplain.told h).stored
  have hstored : Plain rdata.type → ∀ r ∈ foreachRr s.zone name rdata.type covers, r.covers = r.rdata.covers :=
    fun hplain r hr => by
      obtain ⟨hmem, -, htype⟩ := mem_foreachRr hr
      exact (hplain.told h).stored r hmem (htype.resolve_left hany)
  refine { hframe with
    exactAll := fun type old htold hclass hold => ?_
    added := fun hplain => ?_
    elsewhere := fun hplain r hne => ?_
    single := fun hsingle r hr htype howner => ?_ }
  · by_cases htype : type = rdata.type
    · subst htype
      exact hadding.exact h ((hfinds hclass).foreachRr_eq hany htold.stored) htold hold
    · exact hframe.exact type old htype hold
  · exact (hadding.mem_iff h (hrs hplain) (hstored hplain) _).mpr
      (.inr ⟨rdata, mem_renewal.mpr (.inr rfl), by rw [hzero hplain]⟩)
  · exact hadding.others h (hrs hplain) (hstored hplain) (by simp [RR.inSet, hne])
  · have hplain := plain_single hsingle
    rw [← hzero hplain]
    refine hadding.single h (hrs hplain) (hstored hplain) hsingle hr (RR.inSet_iff.mpr ⟨howner, htype, ?_⟩)
    rw [hzero hplain, hframe.coherent.covers_zero hr (htype ▸ hplain)]

end

/-! ### One record of the update section -/

/-- What is known of a record that is added. -/
structure Addable (c : Conf) (z : List RR) (u : UpdateRR) : Prop where
  rdclass : u.rdclass = c.rdclass
  cname : u.rdata.type = .cname → ∀ r ∈ z, r.owner.equal u.name = true →
    r.rdata.type = .cname ∨ r.rdata.type.atcname = true ∨ r.nsec3 = true
  other : u.rdata.type ≠ .cname → (∃ r ∈ z, r.owner.equal u.name = true ∧ r.rdata.type = .cname) →
    u.rdata.type.atcname = true
  soa : u.rdata.type = .soa → ∃ r ∈ z, r.owner.equal u.name = true ∧ r.rdata.type = .soa
  ds : u.rdata.type = .ds → u.name.equal c.origin = false

/-- What is known of records that are deleted: at the apex, the SOA record and some NS record stay. -/
structure Deletable (c : Conf) (z : List RR) (name : Name) (rs : List RR) : Prop where
  soa : name.equal c.origin = true → ∀ r ∈ rs, r.rdata.type ≠ .soa
  ns : name.equal c.origin = true → (∃ r ∈ z, r.owner.equal c.origin = true ∧ r.rdata.type = .ns) →
    ∃ r ∈ z, r.owner.equal c.origin = true ∧ r.rdata.type = .ns ∧ r ∉ rs

/-- What one record of the update section can do. -/
inductive Change (c : Conf) (u : UpdateRR) (s s' : Pending) : Prop where
  | same (h : s' = s)
  | pruned (rs : List RR) (h : Pruned c u.name rs s s') (hdel : Deletable c s.zone u.name rs)
  | merged (ttl : UInt32) (h : Merged c u.name ttl u.rdata s s') (hadd : Addable c s.zone u)

variable {u : UpdateRR}

theorem addWanted_spec (h : Coherent c.forms z) (hrun : addWanted c z u = .ok true) :
    (u.rdata.type = .cname → ∀ r ∈ z, r.owner.equal u.name = true →
      r.rdata.type = .cname ∨ r.rdata.type.atcname = true ∨ r.nsec3 = true) ∧
    (u.rdata.type ≠ .cname → (∃ r ∈ z, r.owner.equal u.name = true ∧ r.rdata.type = .cname) →
      u.rdata.type.atcname = true) ∧
    (u.rdata.type = .soa → ∃ r ∈ z, r.owner.equal u.name = true ∧ r.rdata.type = .soa) := by
  unfold addWanted at hrun
  split at hrun
  · cases hrun
  split at hrun
  · cases hrun
  split at hrun
  · cases hrun
  next hincompatible =>
  split at hrun
  · cases hrun
  next hcname =>
  refine ⟨fun htype r hr howner => ?_, fun htype hexists => ?_, fun htype => ?_⟩
  · by_contra hbad
    simp only [not_or, Bool.not_eq_true] at hbad
    refine hincompatible ⟨htype, any_eq_true.mpr ⟨r, ?_, by simp [hbad]⟩⟩
    rw [foreachRr, if_pos rfl, mem_filter, howner, hbad.2.2]
    exact ⟨hr, rfl⟩
  · by_contra hnot
    exact hcname ⟨htype, (rrsetExists_iff h ⟨by decide, by decide⟩ (by decide)).mpr hexists, by simpa using hnot⟩
  · rw [if_pos htype] at hrun
    split at hrun
    · cases hrun
    next hexists =>
    exact (rrsetExists_iff h ⟨by decide, by decide⟩ (by decide)).mp (by simpa using hexists)

theorem finds_of_findrdataset (hclass : u.rdclass = c.rdclass)
    (hfind : findrdataset c z u.name u.rdata.type u.covers = .ok ()) (hzone : u.rdata.type = .rrsig → c.rdclass ≠ .any) :
    Finds c z u.name u.rdata u.covers := by
  unfold findrdataset at hfind
  split_ifs at hfind with hrequire
  by_cases htype : u.rdata.type = .rrsig
  · left
    simp [UpdateRR.covers, Rdata.covers, htype, hclass, hzone htype]
  · have hzero : u.rdata.covers = 0 := if_neg htype
    by_cases hcovers : u.covers = 0
    · exact .inl (hcovers.trans hzero.symm)
    · have hsig : u.rdata.type = .sig := by
        by_contra hsig
        exact hcovers (if_neg fun h => h.2.elim htype hsig)
      exact .inr ⟨hsig, hcovers, by simpa [hcovers, htype] using hrequire⟩

/-- A record of the class of the zone. With a SOA record that is added, the serial counts as changed. -/
theorem updateAdd_spec {t t' : Section} (h : Coherent c.forms t.zone) (hclass : u.rdclass = c.rdclass)
    (hany : u.rdata.type ≠ .any) (hrun : updateAdd c t u = .ok t') : Change c u t.toPending t'.toPending ∧
      (u.rdata.type ≠ .soa → t'.soaSerialChanged = t.soaSerialChanged) := by
  have hmark : u.rdata.type ≠ .soa → (t.soaSerialChanged || decide (u.rdata.type = .soa)) = t.soaSerialChanged :=
    fun htype => by rw [decide_eq_false htype, Bool.or_false]
  obtain ⟨wanted, hwanted, hrun⟩ := bind_ok hrun
  cases wanted with
  | false =>
    cases hrun
    exact ⟨.same rfl, fun _ => rfl⟩
  | true =>
    simp only [Bool.not_true, Bool.false_eq_true, if_false] at hrun
    split at hrun
    · cases hrun
      exact ⟨.same rfl, hmark⟩
    next hpermitted =>
    obtain ⟨⟨⟩, hfind, hrun⟩ := bind_ok hrun
    split at hrun
    · cases hrun
      exact ⟨.same rfl, hmark⟩
    obtain ⟨p, hadd, hrun⟩ := bind_ok hrun
    cases hrun
    refine ⟨?_, hmark⟩
    rcases addRr_spec h hany (finds_of_findrdataset hclass hfind) hadd with ⟨heq, -⟩ | hmerged
    · exact .same heq
    · obtain ⟨hcname, hother, hsoa⟩ := addWanted_spec h hwanted
      refine .merged _ hmerged ⟨hclass, hcname, hother, hsoa, fun hds => ?_⟩
      by_contra horigin
      refine hpermitted ?_
      simp [addPermitted, hds, RdataType.atparent, show u.name.equal c.origin = true by simpa using horigin]

theorem updateDeleteRrset_spec (h : Coherent c.forms s.zone) (hrun : updateDeleteRrset c s u = .ok s') :
    Change c u s s' := by
  unfold updateDeleteRrset at hrun
  split at hrun
  · refine .pruned _ (deleteIf_spec h hrun) ⟨fun horigin r hr => ?_, fun horigin ⟨r, hr, howner, htype⟩ => ?_⟩
    · rw [if_pos horigin] at hr
      have hp := (mem_filter.mp hr).2
      simp only [typeNotSoaNorNs, decide_eq_true_eq] at hp
      exact fun hsoa => hp (by simp [hsoa])
    · refine ⟨r, hr, howner, htype, fun hin => ?_⟩
      rw [if_pos horigin] at hin
      have hp := (mem_filter.mp hin).2
      simp only [typeNotSoaNorNs, decide_eq_true_eq] at hp
      exact hp (by simp [htype])
  next hany =>
  split at hrun
  · cases hrun
    exact .same rfl
  next hapex =>
  refine .pruned _ (deleteIf_spec h hrun) ⟨fun horigin r hr hsoa => ?_, fun horigin ⟨r, hr, howner, htype⟩ => ?_⟩
  · have htype := ((mem_foreachRr (mem_filter.mp hr).1).2.2).resolve_left hany
    exact hapex ⟨horigin, .inl (htype.symm.trans hsoa)⟩
  · refine ⟨r, hr, howner, htype, fun hin => ?_⟩
    have htype' := ((mem_foreachRr (mem_filter.mp hin).1).2.2).resolve_left hany
    exact hapex ⟨horigin, .inr (htype'.symm.trans htype)⟩

theorem ns_left (h : Coherent c.forms z) (hcount : (foreachRr z name .ns 0).length ≠ 1) (update : Rdata) (hr : r ∈ z)
    (howner : r.owner.equal name = true) (htype : r.rdata.type = .ns) :
    ∃ r ∈ z, r.owner.equal name = true ∧ r.rdata.type = .ns ∧ update.casesame c.forms r.rdata = false := by
  by_contra hall
  push Not at hall
  have hns : Plain RdataType.ns := ⟨by decide, by decide⟩
  have hmem : ∀ r, r ∈ foreachRr z name .ns 0 ↔ r ∈ z ∧ r.owner.equal name = true ∧ r.rdata.type = .ns := fun r =>
    mem_foreachRr_plain h hns (by decide)
  have hfold : ∀ x ∈ z, x.owner.equal name = true → x.rdata.type = .ns →
      c.forms.fold update.type update.data = c.forms.fold .ns x.rdata.data := fun x hx hxo hxt => by
    have hcase := hall x hx hxo hxt
    simp only [Rdata.casesame, ne_eq, Bool.not_eq_false, decide_eq_true_eq] at hcase
    rw [← hxt]
    exact hcase.2
  -- all of them are equal to that of the update, so there is one only
  have hone : ∀ r' ∈ foreachRr z name .ns 0, r' = r := by
    intro r' hr'
    obtain ⟨hmem', howner', htype'⟩ := (hmem r').mp hr'
    refine h.eq hmem' hr ⟨Name.equal_trans howner' (Name.equal_symm howner), htype'.trans htype.symm, ?_⟩ ?_
    · rw [h.covers_zero hmem' (htype' ▸ hns), h.covers_zero hr (htype ▸ hns)]
    · refine Rdata.same_iff.mpr ⟨htype'.trans htype.symm, ?_⟩
      rw [htype, htype']
      exact c.forms.ns _ _ ((hfold r' hmem' howner' htype').symm.trans (hfold r hr howner htype))
  have hnodup : (foreachRr z name .ns 0).Nodup := h.nodup.filter _
  have hin := (hmem r).mpr ⟨hr, howner, htype⟩
  generalize foreachRr z name .ns 0 = rs at hcount hone hnodup hin
  rcases rs with _ | ⟨a, _ | ⟨b, rs⟩⟩
  · cases hin
  · exact hcount rfl
  · have hab : a = b := (hone a (by simp)).trans (hone b (by simp)).symm
    simp [hab] at hnodup

theorem updateDeleteRr_spec (h : Coherent c.forms s.zone) (hrun : updateDeleteRr c s u = .ok s') : Change c u s s' := by
  unfold updateDeleteRr at hrun
  split at hrun
  · cases hrun
    exact .same rfl
  next hsoa =>
  split at hrun
  · cases hrun
    exact .same rfl
  next hns =>
  obtain ⟨inuse, -, hrun⟩ := bind_ok hrun
  split at hrun
  · cases hrun
    exact .same rfl
  refine .pruned _ (deleteIf_spec h hrun) ⟨fun horigin r hr htype => ?_, fun horigin ⟨r, hr, howner, htype⟩ => ?_⟩
  · obtain ⟨hin, hp⟩ := mem_filter.mp hr
    simp only [Rdata.casesame, decide_eq_true_eq] at hp
    exact hsoa ⟨horigin, hp.1.trans htype⟩
  · by_cases hcount : (foreachRr s.zone u.name .ns 0).length = 1
    · -- the update is not about NS records
      refine ⟨r, hr, howner, htype, fun hin => ?_⟩
      have hp := (mem_filter.mp hin).2
      simp only [Rdata.casesame, decide_eq_true_eq] at hp
      exact hns ⟨horigin, hp.1.trans htype, hcount⟩
    · obtain ⟨r', hr', howner', htype', hcase⟩ := ns_left h hcount u.rdata hr
        (Name.equal_trans howner (Name.equal_symm horigin)) htype
      refine ⟨r', hr', Name.equal_trans howner' horigin, htype', fun hin => ?_⟩
      rw [(mem_filter.mp hin).2] at hcase
      cases hcase

/-- What one record of the update section does, if it is no record of the type ANY to be added. -/
theorem updateRecord_spec {t t' : Section} (h : Coherent c.forms t.zone)
    (hany : u.rdclass = c.rdclass → u.rdata.type ≠ .any) (hrun : updateRecord c t u = .ok t') :
    Change c u t.toPending t'.toPending ∧
      (¬ (u.rdclass = c.rdclass ∧ u.rdata.type = .soa) → t'.soaSerialChanged = t.soaSerialChanged) := by
  unfold updateRecord at hrun
  split at hrun
  · next hclass =>
    obtain ⟨hchange, hmark⟩ := updateAdd_spec h hclass (hany hclass) hrun
    exact ⟨hchange, fun hnot => hmark fun htype => hnot ⟨hclass, htype⟩⟩
  split at hrun
  · obtain ⟨p, hp, rfl⟩ := map_ok hrun
    exact ⟨updateDeleteRrset_spec h hp, fun _ => rfl⟩
  split at hrun
  · obtain ⟨p, hp, rfl⟩ := map_ok hrun
    exact ⟨updateDeleteRr_spec h hp, fun _ => rfl⟩
  · cases hrun
    exact ⟨.same rfl, fun _ => rfl⟩

end

end OqsBind.Ns.Update
