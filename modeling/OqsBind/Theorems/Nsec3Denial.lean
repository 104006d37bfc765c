import OqsBind.Theorems.Nsec3Chain

/-! What `dns_nsec3_noexistnodata` concludes from the records of an NSEC3 chain is true of the zone, and the names that it
    keeps from one record to the next do not depend on their order: `closest` is the longest name above the query that has
    a record, and `nearest` the shortest one that is covered. -/

namespace OqsBind.Dns.Nsec3
open Isc Lib Bitmap List

/-- The hash tells apart the names of the zone and those from the apex to the query. -/
def Injective (z : Zone) (h : Hashing) (q : Name) : Prop :=
  ∀ n m : Name, n.absolute → m.absolute → z.apex.path <+: n.path → z.apex.path <+: m.path →
    (z.Exists n.path ∨ n.path <+: q.path) → (z.Exists m.path ∨ m.path <+: q.path) → h.hash n = h.hash m → n.path = m.path

/-- The types do not rule out that a name is the closest encloser: no delegation, no `DNAME`, no `DS`. -/
def Encloses (types : List RdataType) : Prop :=
  .ds ∉ types ∧ .dname ∉ types ∧ (.soa ∈ types ∨ .ns ∉ types)

instance (types : List RdataType) : Decidable (Encloses types) := inferInstanceAs (Decidable (_ ∧ _ ∧ _))

section
variable {z : Zone} {h : Hashing}

/-- A path from the apex to the query that the record covers. -/
def Record.Covered (r : Record z h) (q : Name) (p : List (List Nat)) : Prop :=
  z.apex.path <+: p ∧ p <+: q.path ∧ ∃ n : Name, n.absolute ∧ n.path = p ∧ r.Covers n

/-- A path above the query that the record is for, and that can be the closest encloser. -/
def Record.Candidate (r : Record z h) (q : Name) (p : List (List Nat)) : Prop :=
  r.name.path = p ∧ p <+: q.path ∧ p ≠ q.path ∧ Encloses r.types

/-! ### The bitmap tests -/

@[simp] theorem parentSide_rdata (r : Record z h) :
    parentSide r.rdata = .ok (decide (.ns ∈ r.types) && !decide (.soa ∈ r.types)) := by
  by_cases hns : RdataType.ns ∈ r.types <;> simp [parentSide, hns, bind, Except.bind, pure, Except.pure]

@[simp] theorem encloses_rdata (r : Record z h) : encloses r.rdata = .ok (decide (Encloses r.types)) := by
  by_cases hds : RdataType.ds ∈ r.types
  · simp [encloses, Encloses, hds, bind, Except.bind, pure, Except.pure]
  by_cases hdname : RdataType.dname ∈ r.types
  · simp [encloses, Encloses, hdname, bind, Except.bind, pure, Except.pure]
  by_cases hsoa : RdataType.soa ∈ r.types <;>
    simp [encloses, Encloses, hds, hdname, hsoa, bind, Except.bind, pure, Except.pure]

theorem atOwner_rdata (r : Record z h) (type : RdataType) :
    atOwner type r.rdata = .ok none ∨ atOwner type r.rdata = .ok (some (decide (type ∈ r.types))) := by
  simp only [atOwner, typepresent_rdata, bind, Except.bind, pure, Except.pure]
  split
  · exact .inl rfl
  · split
    · exact .inl rfl
    · split
      · exact .inr rfl
      · split
        · exact .inl rfl
        · exact .inr rfl

/-! ### One call -/

/-- What holds in the loop when the names with more than `k` labels are done: none of them has the record, and `nearest`
    is the shortest of those covered and of the paths of `S`, which come from the calls before. -/
structure Progress (w : Wants) (q : Name) (r : Record z h) (S : List (List Nat) → Prop) (names : Names) (k : Nat)
    (answer : Result) (out : Out) : Prop where
  unmatched : ∀ p, p <+: q.path → k < p.length → r.name.path ≠ p
  closest : out.closest = names.closest
  zonename : out.zonename = names.zonename
  nearest : IsShortest (fun p => S p ∨ (w.nearest ∧ r.Covered q p ∧ k < p.length)) out.nearest.path
  reported : (answer = .ignore) ∨
    (answer = .success ∧ out.existsp = some false ∧ (∃ p, r.Covered q p) ∧ (w.optout → out.optoutp = some r.optout))

/-- What a call with a record does: `S` and `T` are the paths that `nearest` and `closest` were chosen from before. -/
structure Answered (w : Wants) (type : RdataType) (q : Name) (r : Record z h) (S T : List (List Nat) → Prop)
    (names : Names) (result : Result) (out : Out) : Prop where
  zonename : out.zonename = names.zonename
  nearest : IsShortest (fun p => S p ∨ (w.nearest ∧ r.Covered q p)) out.nearest.path
  closest : IsLongest (fun p => T p ∨ (w.closest ∧ r.Candidate q p)) out.closest.path
  reported : result = .success →
    (out.existsp = some false ∧ (∃ p, r.Covered q p) ∧ (w.optout → out.optoutp = some r.optout)) ∨
      (out.existsp = some true ∧ r.name.path = q.path ∧ out.datap = some (decide (type ∈ r.types)))

variable {c : Chain z h} {r : Record z h} {w : Wants} {type : RdataType} {q : Name} {S T : List (List Nat) → Prop}
  {names : Names} {answer : Result} {out : Out} {k : Nat}

theorem hash_eq_iff (hinj : Injective z h q) {n : Name} (hn : n.absolute) (hbelow : z.apex.path <+: n.path)
    (hpre : n.path <+: q.path) : h.hash n = h.hash r.name ↔ r.name.path = n.path := by
  constructor
  · intro heq
    exact (hinj n r.name hn r.absolute hbelow r.below (.inr hpre) (.inl r.present) heq).symm
  · intro hpath
    exact h.hash_eq_of_path hn r.absolute hpath.symm

theorem Record.Covered.length_pos {p : List (List Nat)} (hp : r.Covered q p) : 0 < p.length :=
  z.apex_length_pos.trans_le hp.1.length_le

/-- The test for a name that is not set yet, or that the other one is below. -/
theorem below_iff {n m : Name} : (decide (m.nlabels = 0) || n.issubdomain m) = true ↔ m.path <+: n.path := by
  simp only [Bool.or_eq_true, decide_eq_true_iff, Name.issubdomain_iff, ← Name.path_eq_nil_iff]
  refine ⟨?_, .inr⟩
  rintro (hnil | hsub)
  · exact hnil ▸ nil_prefix
  · exact hsub

theorem eq_take_of_length {p p' : List (List Nat)} (hp : p <+: p') (hlen : p.length = k) : p = p'.take k :=
  hlen ▸ prefix_iff_eq_take.mp hp

section
variable (hprog : Progress w q r S names (k + 1) answer out) (hne : r.name.path ≠ q.path.take (k + 1))
include hprog hne

theorem Progress.unmatched_succ : ∀ p, p <+: q.path → k < p.length → r.name.path ≠ p := by
  intro p hp hlen
  rcases Nat.lt_or_eq_of_le hlen with hlt | heq
  · exact hprog.unmatched p hp hlt
  · rwa [eq_take_of_length hp heq.symm]

theorem Progress.pass (hcov : ¬ r.Covered q (q.path.take (k + 1))) : Progress w q r S names k answer out := by
  refine { hprog with unmatched := hprog.unmatched_succ hne, nearest := hprog.nearest.congr fun p => ?_ }
  refine or_congr_right (and_congr_right fun _ => and_congr_right fun hp => ⟨Nat.lt_of_succ_lt, fun hlen => ?_⟩)
  refine Nat.lt_of_le_of_ne hlen fun heq => hcov ?_
  rwa [← eq_take_of_length hp.2.1 heq.symm]

theorem Progress.cover (hS : ∀ p, S p → p <+: q.path ∧ p ≠ []) {qname : Name} (hpath : qname.path = q.path.take (k + 1))
    (hk : k + 1 ≤ q.path.length) (hcov : r.Covered q qname.path) :
    Progress w q r S names k .success (notExists w r.rdata qname out) := by
  refine ⟨hprog.unmatched_succ hne, hprog.closest, hprog.zonename, ?_, .inr ⟨rfl, rfl, ⟨_, hcov⟩, ?_⟩⟩
  · have hlen : qname.path.length = k + 1 := by rw [hpath, length_take, min_eq_left hk]
    -- the paths so far
    have hfrom : ∀ p, (S p ∨ (w.nearest ∧ r.Covered q p ∧ k + 1 < p.length)) → p <+: q.path ∧ p ≠ [] := by
      rintro p (hp | ⟨-, hp, -⟩)
      · exact hS p hp
      · exact ⟨hp.2.1, ne_nil_of_length_pos hp.length_pos⟩
    by_cases hw : w.nearest
    · have hset : ∀ p, ((S p ∨ (w.nearest ∧ r.Covered q p ∧ k + 1 < p.length)) ∨ p = qname.path) ↔
          (S p ∨ (w.nearest ∧ r.Covered q p ∧ k < p.length)) := by
        intro p
        rw [or_assoc]
        refine or_congr_right ⟨?_, ?_⟩
        · rintro (⟨_, hp, hlt⟩ | rfl)
          · exact ⟨hw, hp, Nat.lt_of_succ_lt hlt⟩
          · exact ⟨hw, hcov, by rw [hlen]; exact Nat.lt_succ_self k⟩
        · rintro ⟨_, hp, hlt⟩
          rcases Nat.lt_or_eq_of_le hlt with hlt | heq
          · exact .inl ⟨hw, hp, hlt⟩
          · exact .inr ((eq_take_of_length hp.2.1 heq.symm).trans hpath.symm)
      have hnear : (w.nearest && (decide (out.nearest.nlabels = 0) || out.nearest.issubdomain qname)) = true ↔
          (out.nearest.path = [] ∨ qname.path <+: out.nearest.path) := by
        simp [hw, Name.path_eq_nil_iff, Name.issubdomain_iff]
      by_cases hrep : out.nearest.path = [] ∨ qname.path <+: out.nearest.path
      · simp only [notExists, hnear.mpr hrep, if_true]
        exact (hprog.nearest.replace hrep fun p hp => (hfrom p hp).2).congr hset
      · have hnot := mt hnear.mp hrep
        simp only [notExists, hnot]
        exact (hprog.nearest.keep (fun p hp => (hfrom p hp).1) hcov.2.1 hrep).congr hset
    · simp only [notExists, hw, Bool.false_and, Bool.false_eq_true, if_false, false_and, or_false]
      refine hprog.nearest.congr fun p => ?_
      simp [hw]
  · intro hw
    exact if_pos hw

end

section
variable (hprog : Progress w q r S names k answer out)
include hprog

theorem Progress.reported_success (hs : answer = .success) :
    out.existsp = some false ∧ (∃ p, r.Covered q p) ∧ (w.optout → out.optoutp = some r.optout) :=
  (hprog.reported.resolve_left (by simp [hs])).2

theorem Progress.nearest_all (hrest : ∀ p, r.Covered q p → k < p.length) :
    IsShortest (fun p => S p ∨ (w.nearest ∧ r.Covered q p)) out.nearest.path := by
  refine hprog.nearest.congr fun p => or_congr_right (and_congr_right fun _ => ?_)
  exact ⟨fun hp => hp.1, fun hp => ⟨hp, hrest p hp⟩⟩

theorem Progress.finish (hk : k < z.apex.path.length)
    (hT : IsLongest T names.closest.path) : Answered w type q r S T names answer out := by
  have hnone : ∀ p, ¬ r.Candidate q p := by
    rintro p ⟨hpath, hpre, -⟩
    exact hprog.unmatched p hpre (hk.trans_le (hpath ▸ r.below).length_le) hpath
  refine ⟨hprog.zonename, hprog.nearest_all fun p hp => hk.trans_le hp.1.length_le, ?_, ?_⟩
  · rw [hprog.closest]
    exact hT.congr fun p => by simp [hnone p]
  · exact fun hs => .inl (hprog.reported_success hs)

theorem Progress.nearest_match (hr : r ∈ c.records)
    (hmatch : r.name.path = q.path.take k) : IsShortest (fun p => S p ∨ (w.nearest ∧ r.Covered q p)) out.nearest.path := by
  refine hprog.nearest_all fun p hp => ?_
  by_contra hle
  obtain ⟨hbelow, hpre, n, hn, rfl, hcov⟩ := hp
  refine Chain.not_covers_above hr hn hbelow ?_ hcov
  rw [hmatch, prefix_take_iff]
  exact ⟨hpre, not_lt.mp hle⟩

theorem Progress.potentialClosest (hr : r ∈ c.records) {qname : Name}
    (hpath : qname.path = q.path.take k) (hne : qname.path ≠ q.path) (hmatch : r.name.path = qname.path)
    (hT : IsLongest T names.closest.path) (hTq : ∀ p, T p → p <+: q.path) :
    ∃ out', potentialClosest w r.rdata qname out = .ok out' ∧ Answered w type q r S T names answer out' := by
  have hpre : qname.path <+: q.path := hpath ▸ take_prefix _ _
  have hnearest := hprog.nearest_match hr (hmatch.trans hpath)
  have hreported := hprog.reported_success
  rw [← hprog.closest] at hT
  have hset : Encloses r.types → w.closest → ∀ p, (T p ∨ p = qname.path) ↔ (T p ∨ (w.closest ∧ r.Candidate q p)) := by
    intro henc hw p
    refine or_congr_right ⟨?_, fun hp => hp.2.1.symm.trans hmatch⟩
    rintro rfl
    exact ⟨hw, hmatch, hpre, hne, henc⟩
  have hkeep : (¬ Encloses r.types ∨ ¬ w.closest) →
      IsLongest (fun p => T p ∨ (w.closest ∧ r.Candidate q p)) out.closest.path := by
    intro hnot
    refine hT.congr fun p => ⟨.inl, fun hp => hp.resolve_right ?_⟩
    rintro ⟨hw, -, -, -, henc⟩
    exact hnot.elim (· henc) (· hw)
  unfold Nsec3.potentialClosest
  simp only [Bool.and_eq_true, below_iff]
  by_cases hyes : w.closest ∧ out.closest.path <+: qname.path
  · rw [if_pos hyes]
    simp only [encloses_rdata, bind, Except.bind, pure, Except.pure, decide_eq_true_iff]
    by_cases henc : Encloses r.types
    · rw [if_pos henc]
      exact ⟨_, rfl, hprog.zonename, hnearest, (hT.replace hyes.2).congr (hset henc hyes.1), fun hs => .inl (hreported hs)⟩
    · rw [if_neg henc]
      exact ⟨_, rfl, hprog.zonename, hnearest, hkeep (.inl henc), fun hs => .inl (hreported hs)⟩
  · rw [if_neg hyes]
    refine ⟨_, rfl, hprog.zonename, hnearest, ?_, fun hs => .inl (hreported hs)⟩
    by_cases hdoes : Encloses r.types ∧ w.closest
    · exact (hT.keep hTq hpre fun hp => hyes ⟨hdoes.2, hp⟩).congr (hset hdoes.1 hdoes.2)
    · exact hkeep (not_and_or.mp hdoes)

theorem Progress.atOwner (hr : r ∈ c.records) (hk : k = q.path.length)
    (hmatch : r.name.path = q.path) (hT : IsLongest T names.closest.path) (type : RdataType) :
    Answered w type q r S T names .ignore out ∧ Answered w type q r S T names .success
      { out with existsp := some true, datap := some (decide (type ∈ r.types)) } := by
  have hnearest := hprog.nearest_match hr (by rw [hmatch, hk, take_length])
  have hclosest : IsLongest (fun p => T p ∨ (w.closest ∧ r.Candidate q p)) out.closest.path := by
    rw [hprog.closest]
    refine hT.congr fun p => ⟨.inl, fun hp => hp.resolve_right ?_⟩
    rintro ⟨-, hpath, -, hne, -⟩
    exact hne (hpath.symm.trans hmatch)
  exact ⟨⟨hprog.zonename, hnearest, hclosest, fun hs => by cases hs⟩,
    ⟨hprog.zonename, hnearest, hclosest, fun _ => .inr ⟨rfl, hmatch, rfl⟩⟩⟩

theorem Progress.parentSide (hr : r ∈ c.records)
    (hmatch : r.name.path = q.path.take k) (hns : .ns ∈ r.types) (hsoa : .soa ∉ r.types)
    (hT : IsLongest T names.closest.path) : Answered w type q r S T names .ignore out := by
  refine ⟨hprog.zonename, hprog.nearest_match hr hmatch, ?_, fun hs => by cases hs⟩
  rw [hprog.closest]
  refine hT.congr fun p => ⟨.inl, fun hp => hp.resolve_right ?_⟩
  rintro ⟨-, -, -, -, -, -, henc⟩
  exact henc.elim hsoa (· hns)

end

theorem walk_spec (hr : r ∈ c.records) (hbelow : z.apex.path <+: q.path) (hinj : Injective z h q)
    (hiter : h.iterations.toNat ≤ MAXITERATIONS) (hS : ∀ p, S p → p <+: q.path ∧ p ≠ [])
    (hT : IsLongest T names.closest.path) (hTq : ∀ p, T p → p <+: q.path) (hk : k ≤ q.path.length) {qname : Name}
    (hq : 0 < k → qname.absolute ∧ qname.downcase = qname ∧ qname.path = q.path.take k) {first : Bool}
    (hfirst : first ↔ k = q.path.length) (hprog : Progress w q r S names k answer out) :
    ∃ result out', walk h.sha1 w type r.rdata (h.hash r.name) z.apex.path.length k qname first answer out =
      .ok (result, out') ∧ Answered w type q r S T names result out' := by
  induction k generalizing qname first answer out with
  | zero => exact ⟨_, _, rfl, hprog.finish z.apex_length_pos hT⟩
  | succ k ih =>
    obtain ⟨habs, hlow, hpath⟩ := hq k.succ_pos
    have hhash : iteratedHash h.sha1 r.rdata.hash r.rdata.iterations.toNat r.rdata.salt qname.ndata = h.hash qname := by
      rw [Hashing.hash, hlow]
      rfl
    have hlen : (h.hash qname).length = r.rdata.next.length := (h.length_hash _).trans (Chain.length_next hr).symm
    have hlen' : (h.hash r.name).length = r.rdata.next.length := (h.length_hash _).trans (Chain.length_next hr).symm
    have hiter' : ¬ r.rdata.iterations.toNat > MAXITERATIONS := not_lt.mpr hiter
    rw [walk]
    by_cases hend : k + 1 < z.apex.path.length
    · rw [if_pos hend]
      exact ⟨_, _, rfl, hprog.finish hend hT⟩
    have hpre : qname.path <+: q.path := hpath ▸ take_prefix _ _
    have hbelow' : z.apex.path <+: qname.path := by
      rw [hpath, prefix_take_iff]
      exact ⟨hbelow, not_lt.mp hend⟩
    have horder : memcmp (h.hash qname) (h.hash r.name) = 0 ↔ r.name.path = qname.path := by
      rw [memcmp_eq_zero_iff (by simp), hash_eq_iff hinj habs hbelow' hpre]
    simp only [if_neg hend, if_neg hiter', hhash, if_neg (not_not_intro hlen), horder]
    by_cases hmatch : r.name.path = qname.path
    · rw [if_pos hmatch]
      by_cases hf : first
      · rw [if_pos hf]
        have hfull : qname.path = q.path := by rw [hpath, hfirst.mp hf, take_length]
        have howner := hprog.atOwner hr (hfirst.mp hf) (hmatch.trans hfull) hT type
        rcases atOwner_rdata r type with hnone | hsome
        · simp only [hnone, bind, Except.bind]
          exact ⟨_, _, rfl, howner.1⟩
        · simp only [hsome, bind, Except.bind]
          exact ⟨_, _, rfl, howner.2⟩
      · rw [if_neg hf]
        have hne : qname.path ≠ q.path := by
          intro heq
          have := congrArg length heq
          rw [hpath, length_take, min_eq_left hk] at this
          exact hf (hfirst.mpr this)
        simp only [parentSide_rdata, bind, Except.bind]
        by_cases hparent : (decide (.ns ∈ r.types) && !decide (.soa ∈ r.types)) = true
        · rw [if_pos hparent]
          simp only [Bool.and_eq_true, Bool.not_eq_true', decide_eq_true_iff, decide_eq_false_iff_not] at hparent
          exact ⟨_, _, rfl, hprog.parentSide hr (hmatch.trans hpath) hparent.1 hparent.2 hT⟩
        · rw [if_neg hparent]
          obtain ⟨out', hout, hans⟩ := hprog.potentialClosest hr hpath hne hmatch hT hTq
          simp only [hout]
          exact ⟨_, _, rfl, hans⟩
    · rw [if_neg hmatch]
      have hnext : 0 < k → (if k > 0 then qname.suffix k else qname).absolute ∧
          (if k > 0 then qname.suffix k else qname).downcase = (if k > 0 then qname.suffix k else qname) ∧
          (if k > 0 then qname.suffix k else qname).path = q.path.take k := by
        intro hpos
        have hle : k ≤ qname.nlabels := by
          rw [← qname.length_path, hpath, length_take, min_eq_left hk]
          exact k.le_succ
        obtain ⟨hpath', habs'⟩ := Name.path_suffix habs hpos hle
        rw [if_pos hpos, hpath', hpath, take_take, min_eq_left k.le_succ]
        exact ⟨habs', Name.downcase_suffix hlow k, rfl⟩
      have hnotfirst : (false : Bool) ↔ k = q.path.length :=
        iff_of_false Bool.false_ne_true fun heq => absurd hk (heq ▸ Nat.not_succ_le_self _)
      have hcovers : covers (h.hash r.name) r.rdata.next (h.hash qname) ↔ r.Covered q qname.path := by
        rw [covers_iff hlen' (by simp)]
        refine ⟨fun hcov => ⟨hbelow', hpre, qname, habs, rfl, hcov⟩, ?_⟩
        rintro ⟨-, -, n, hn, hnpath, hcov⟩
        rwa [Record.Covers, h.hash_eq_of_path hn habs hnpath] at hcov
      rw [hpath] at hmatch
      by_cases hcov : r.Covered q qname.path
      · rw [if_pos (hcovers.mpr hcov)]
        exact ih (Nat.le_of_succ_le hk) hnext hnotfirst (hprog.cover hmatch hS hpath hk hcov)
      · rw [if_neg (mt hcovers.mp hcov)]
        exact ih (Nat.le_of_succ_le hk) hnext hnotfirst (hprog.pass hmatch (hpath ▸ hcov))

theorem walk_iterrange {qname : Name} {first : Bool} (hk : z.apex.path.length ≤ k)
    (hiter : ¬ h.iterations.toNat ≤ MAXITERATIONS) :
    walk h.sha1 w type r.rdata (h.hash r.name) z.apex.path.length k qname first answer out = .ok (.iterrange, out) := by
  have hiter' : r.rdata.iterations.toNat > MAXITERATIONS := not_le.mp hiter
  cases k with
  | zero => exact absurd hk (not_le.mpr z.apex_length_pos)
  | succ k => rw [walk, if_neg (not_lt.mpr hk), if_pos hiter']

/-! ### The call as a whole -/

/-- The names that the calls keep are used: `exists` and `data` are asked for, the hash is not too costly, and no deeper
    zone was seen before. -/
def Active (z : Zone) (h : Hashing) (w : Wants) (names : Names) : Prop :=
  w.existsData ∧ h.iterations.toNat ≤ MAXITERATIONS ∧ names.zonename.path <+: z.apex.path

/-- What is true of the zone when a call has succeeded. -/
def Sound (c : Chain z h) (w : Wants) (type : RdataType) (q : Name) (r : Record z h) (out : Out) : Prop :=
  (out.existsp = some false ∧ (¬ z.Exists q.path ∨
      (r.optout ∧ (w.optout → out.optoutp = some true) ∧ ∃ p, p <+: q.path ∧ c.Omitted p))) ∨
    (out.existsp = some true ∧ r.name.path = q.path ∧ out.datap = some (decide (type ∈ r.types)))

theorem Answered.sound {result : Result} (hans : Answered w type q r S T names result out) (hr : r ∈ c.records)
    (hocc : ¬ z.Occluded q.path) (hs : result = .success) : Sound c w type q r out := by
  rcases hans.reported hs with ⟨hex, ⟨p, hbelow, hpre, n, hn, rfl, hcov⟩, hopt⟩ | htrue
  · refine .inl ⟨hex, ?_⟩
    have hout : ¬ z.BelowDelegation _ := fun ⟨n, hn, hdel, hpre'⟩ => Zone.not_occluded_above hocc hpre ⟨n, hn, .inl hdel, hpre'⟩
    rcases Chain.covered hr hn hbelow hout hcov with hno | ⟨hflag, hom⟩
    · exact .inl fun hq => hno (hq.of_isPrefix hpre)
    · exact .inr ⟨hflag, fun hw => hflag ▸ hopt hw, n.path, hpre, hom⟩
  · exact .inr htrue

theorem Record.owner_suffix (r : Record z h) :
    r.owner.nlabels = z.apex.path.length + 1 ∧ (r.owner.suffix z.apex.path.length).path = z.apex.path ∧
      (r.owner.suffix z.apex.path.length).absolute := by
  obtain ⟨l, hpath⟩ := r.owner_zone
  have hlen : r.owner.nlabels = z.apex.path.length + 1 := by
    rw [← r.owner.length_path, hpath, length_append, length_singleton]
  obtain ⟨hsuf, habs⟩ := Name.path_suffix r.owner_absolute z.apex_length_pos (by rw [hlen]; exact Nat.le_succ _)
  refine ⟨hlen, ?_, habs⟩
  rw [hsuf, hpath, take_left]

/-- What a call does to the names that the next one gets. -/
structure Called (c : Chain z h) (w : Wants) (type : RdataType) (q : Name) (r : Record z h) (S T : List (List Nat) → Prop)
    (names : Names) (result : Result) (out : Out) : Prop where
  zonename : out.zonename.nlabels = 0 ∨ out.zonename.absolute
  deeper : out.zonename.path <+: z.apex.path ↔ names.zonename.path <+: z.apex.path
  nearest : IsShortest (fun p => S p ∨ (Active z h w names ∧ w.nearest ∧ r.Covered q p)) out.nearest.path
  closest : IsLongest (fun p => T p ∨ (Active z h w names ∧ w.closest ∧ r.Candidate q p)) out.closest.path
  sound : w.existsData → result = .success → Sound c w type q r out

section
variable (hq : q.absolute) (hbelow : z.apex.path <+: q.path) (hocc : ¬ z.Occluded q.path) (hinj : Injective z h q)
include hq hbelow hocc hinj

theorem noexistnodata_spec (hr : r ∈ c.records) (hz : names.zonename.nlabels = 0 ∨ names.zonename.absolute)
    (hS : IsShortest S names.nearest.path) (hSq : ∀ p, S p → p <+: q.path ∧ p ≠ [])
    (hT : IsLongest T names.closest.path) (hTq : ∀ p, T p → p <+: q.path) :
    ∃ result out, noexistnodata h.sha1 w type q r.owner [r.rdata] names = .ok (result, out) ∧
      Called c w type q r S T names result out := by
  obtain ⟨hlabels, hzpath, hzabs⟩ := r.owner_suffix
  -- a call that does not use the names
  have hidle : ∀ (result : Result) (out : Out), ¬ Active z h w names → (w.existsData → result ≠ .success) →
      out.nearest = names.nearest → out.closest = names.closest →
      (out.zonename.nlabels = 0 ∨ out.zonename.absolute) →
      (out.zonename.path <+: z.apex.path ↔ names.zonename.path <+: z.apex.path) →
      Called c w type q r S T names result out := by
    intro result out hact hres hn hc hz' hd
    refine ⟨hz', hd, ?_, ?_, fun hw hs => absurd hs (hres hw)⟩
    · rw [hn]
      exact hS.congr fun p => by simp [hact]
    · rw [hc]
      exact hT.congr fun p => by simp [hact]
  have hlt : ¬ z.apex.path.length + 1 < 2 := not_lt.mpr (Nat.succ_le_succ z.apex_length_pos)
  simp only [noexistnodata, if_neg hlt, hlabels, Nat.add_sub_cancel]
  generalize r.owner.suffix z.apex.path.length = zone at hzpath hzabs ⊢
  have hsub : q.issubdomain zone = true := by
    rw [Name.issubdomain_iff, hzpath]
    exact hbelow
  simp only [below_iff, hzpath, hsub, Bool.not_true, Bool.false_eq_true, if_false]
  by_cases hd : names.zonename.path <+: z.apex.path
  · simp only [hd, if_true]
    have hequal : zone.equal zone = true :=
      (Name.equal_iff_path rfl).mpr rfl
    have hdeeper : (zone.path <+: z.apex.path ↔ names.zonename.path <+: z.apex.path) := by
      rw [hzpath]
      exact iff_of_true (prefix_refl _) hd
    have hsupported : supportedhash r.rdata.hash = true := rfl
    have hlen : ¬ (h.hash r.name).length ≠ r.rdata.next.length :=
      not_not_intro ((h.length_hash _).trans (Chain.length_next hr).symm)
    simp only [Out.start, hequal, hsupported, r.owner_hash, if_neg hlen, Bool.not_true, Bool.false_eq_true, if_false,
      Name.nlabels_downcase, ← q.length_path]
    by_cases hw : w.existsData
    · simp only [hw, Bool.not_true, Bool.false_eq_true, if_false]
      by_cases hiter : h.iterations.toNat ≤ MAXITERATIONS
      · have hact : Active z h w names := ⟨hw, hiter, hd⟩
        have hstart : Progress w q r S { names with zonename := zone } q.path.length .ignore
            (Out.start { names with zonename := zone }) := by
          refine ⟨fun p hp hlt => absurd hp.length_le (not_le.mpr hlt), rfl, rfl, ?_, .inl rfl⟩
          refine hS.congr fun p => ⟨.inl, fun hp => hp.resolve_right ?_⟩
          rintro ⟨-, hcov, hlt⟩
          exact absurd hcov.2.1.length_le (not_le.mpr hlt)
        have hlower : 0 < q.path.length →
            q.downcase.absolute ∧ q.downcase.downcase = q.downcase ∧ q.downcase.path = q.path.take q.path.length := by
          intro _
          exact ⟨hq, q.downcase_downcase, by rw [q.path_downcase, take_length]⟩
        have hT' : IsLongest T { names with zonename := zone : Names }.closest.path := hT
        obtain ⟨result, out, hwalk, hans⟩ :=
          walk_spec hr hbelow hinj hiter hSq hT' hTq le_rfl hlower (iff_of_true rfl rfl) hstart
        refine ⟨result, out, hwalk, ?_, ?_, ?_, ?_, fun _ hs => hans.sound hr hocc hs⟩
        · rw [hans.zonename]
          exact .inr hzabs
        · rw [hans.zonename]
          exact hdeeper
        · exact hans.nearest.congr fun p => by simp [hact]
        · exact hans.closest.congr fun p => by simp [hact]
      · refine ⟨_, _, walk_iterrange (hbelow.length_le) hiter, hidle _ _ (fun hact => hiter hact.2.1) (by simp) rfl rfl
          (.inr hzabs) hdeeper⟩
    · simp only [hw, Bool.not_false, if_true]
      exact ⟨_, _, rfl, hidle _ _ (fun hact => hw hact.1) (fun hw' => absurd hw' hw) rfl rfl (.inr hzabs) hdeeper⟩
  · have habs : names.zonename.absolute := by
      refine hz.resolve_left fun hnil => hd ?_
      rw [Name.path_eq_nil_iff.mpr hnil]
      exact nil_prefix
    have hequal : zone.equal names.zonename = false := by
      rw [← Bool.not_eq_true, Name.equal_iff_path (hzabs.trans habs.symm), hzpath]
      intro heq
      exact hd (heq ▸ prefix_refl _)
    simp only [hd, if_false, Out.start, hequal, Bool.not_false, if_true]
    exact ⟨_, _, rfl, hidle _ _ (fun hact => hd hact.2.2) (by simp) rfl rfl hz Iff.rfl⟩

/-! ### All records -/

/-- The records one after the other, each call with the names that the one before has left: the calls, and the names at
    the end. -/
def run (w : Wants) (type : RdataType) (q : Name) :
    List (Record z h) → Names → Except Fault (List (Record z h × Result × Out) × Names)
  | [], names => .ok ([], names)
  | r :: rs, names => do
    let (result, out) ← noexistnodata h.sha1 w type q r.owner [r.rdata] names
    let (calls, last) ← run w type q rs out.toNames
    return ((r, result, out) :: calls, last)

/-- The names after the records `rs`. -/
structure Kept (z : Zone) (h : Hashing) (w : Wants) (q : Name) (active : Prop) (rs : List (Record z h)) (names : Names) :
    Prop where
  zonename : names.zonename.nlabels = 0 ∨ names.zonename.absolute
  active_iff : Active z h w names ↔ active
  nearest : IsShortest (fun p => active ∧ w.nearest ∧ ∃ r ∈ rs, r.Covered q p) names.nearest.path
  closest : IsLongest (fun p => active ∧ w.closest ∧ ∃ r ∈ rs, r.Candidate q p) names.closest.path

theorem Kept.step (type : RdataType) {active : Prop} {rs : List (Record z h)} (hkept : Kept z h w q active rs names)
    (hr : r ∈ c.records) :
    ∃ result out, noexistnodata h.sha1 w type q r.owner [r.rdata] names = .ok (result, out) ∧
      Kept z h w q active (rs ++ [r]) out.toNames ∧ (w.existsData → result = .success → Sound c w type q r out) := by
  obtain ⟨result, out, hcall, hcalled⟩ := noexistnodata_spec hq hbelow hocc hinj hr hkept.zonename hkept.nearest
    (by rintro p ⟨-, -, r', -, hcov⟩; exact ⟨hcov.2.1, ne_nil_of_length_pos hcov.length_pos⟩) hkept.closest
    (by rintro p ⟨-, -, r', -, -, hpre, -⟩; exact hpre)
  refine ⟨result, out, hcall, ⟨hcalled.zonename, ?_, ?_, ?_⟩, hcalled.sound⟩
  · rw [← hkept.active_iff, Active, Active, hcalled.deeper]
  · refine hcalled.nearest.congr fun p => ?_
    simp only [hkept.active_iff, mem_append, mem_singleton, or_and_right, exists_or, exists_eq_left, and_or_left]
  · refine hcalled.closest.congr fun p => ?_
    simp only [hkept.active_iff, mem_append, mem_singleton, or_and_right, exists_or, exists_eq_left, and_or_left]

theorem run_spec (type : RdataType) {active : Prop} (rs : List (Record z h)) (hrs : ∀ r ∈ rs, r ∈ c.records) {done : List (Record z h)}
    (hkept : Kept z h w q active done names) :
    ∃ calls last, run w type q rs names = .ok (calls, last) ∧ Kept z h w q active (done ++ rs) last ∧
      calls.map (·.1) = rs ∧
      (w.existsData → ∀ call ∈ calls, call.2.1 = .success → Sound c w type q call.1 call.2.2) := by
  induction rs generalizing names done with
  | nil => exact ⟨[], names, rfl, by rwa [append_nil], rfl, by simp⟩
  | cons r rs ih =>
    obtain ⟨result, out, hcall, hkept', hsound⟩ := hkept.step hq hbelow hocc hinj type (hrs r mem_cons_self)
    obtain ⟨calls, last, hrun, hlast, hcalls, hall⟩ := ih (fun r' hr' => hrs r' (mem_cons_of_mem r hr')) hkept'
    refine ⟨(r, result, out) :: calls, last, ?_, ?_, by rw [map_cons, hcalls], fun hw call hmem => ?_⟩
    · simp only [run, hcall, hrun, bind, Except.bind, pure, Except.pure]
    · rwa [append_assoc] at hlast
    · rcases mem_cons.mp hmem with rfl | hmem
      · exact hsound hw
      · exact hall hw call hmem

end

theorem Kept.start (hz : names.zonename.nlabels = 0 ∨ names.zonename.absolute) (hc : names.closest.nlabels = 0)
    (hn : names.nearest.nlabels = 0) : Kept z h w q (Active z h w names) [] names :=
  ⟨hz, Iff.rfl, .inl ⟨Name.path_eq_nil_iff.mpr hn, by simp⟩, .inl ⟨Name.path_eq_nil_iff.mpr hc, by simp⟩⟩

end

/-- For every list of records of a complete chain, and a name of the zone that is not below a delegation or a DNAME: each
    call that succeeds is right, the names that are kept are the longest one above the query with a usable record and the
    shortest one that is covered, and any other order of the records leaves the same names. -/
theorem run_sound (z : Zone) (h : Hashing) (c : Chain z h) (w : Wants) (type : RdataType) (q : Name) (hq : q.absolute)
    (hbelow : z.apex.path <+: q.path) (hocc : ¬ z.Occluded q.path) (hinj : Injective z h q) (names : Names)
    (hz : names.zonename.nlabels = 0 ∨ names.zonename.absolute) (hc : names.closest.nlabels = 0)
    (hn : names.nearest.nlabels = 0) (rs : List (Record z h)) (hrs : ∀ r ∈ rs, r ∈ c.records) :
    ∃ calls last, run w type q rs names = .ok (calls, last) ∧ calls.map (·.1) = rs ∧
      (w.existsData → ∀ call ∈ calls, call.2.1 = .success → Sound c w type q call.1 call.2.2) ∧
      (last.closest.nlabels ≠ 0 → (∃ r ∈ rs, r.Candidate q last.closest.path) ∧
        ∀ r ∈ rs, ∀ p, r.Candidate q p → p <+: last.closest.path) ∧
      (last.nearest.nlabels ≠ 0 → (∃ r ∈ rs, r.Covered q last.nearest.path) ∧
        ∀ r ∈ rs, ∀ p, r.Covered q p → last.nearest.path <+: p) ∧
      ∀ rs', rs'.Perm rs → ∃ calls' last', run w type q rs' names = .ok (calls', last') ∧
        last'.closest.path = last.closest.path ∧ last'.nearest.path = last.nearest.path := by
  have hstart : Kept z h w q (Active z h w names) [] names := .start hz hc hn
  obtain ⟨calls, last, hrun, hkept, hcalls, hsound⟩ := run_spec hq hbelow hocc hinj type rs hrs hstart
  rw [nil_append] at hkept
  refine ⟨calls, last, hrun, hcalls, hsound, fun hset => ?_, fun hset => ?_, fun rs' hperm => ?_⟩
  · rw [ne_eq, ← Name.path_eq_nil_iff] at hset
    obtain ⟨⟨hact, hw, hex⟩, hmax⟩ := hkept.closest.resolve_left fun hnil => hset hnil.1
    exact ⟨hex, fun r hr p hp => hmax p ⟨hact, hw, r, hr, hp⟩⟩
  · rw [ne_eq, ← Name.path_eq_nil_iff] at hset
    obtain ⟨⟨hact, hw, hex⟩, hmin⟩ := hkept.nearest.resolve_left fun hnil => hset hnil.1
    exact ⟨hex, fun r hr p hp => hmin p ⟨hact, hw, r, hr, hp⟩⟩
  · obtain ⟨calls', last', hrun', hkept', -, -⟩ := run_spec hq hbelow hocc hinj type rs'
      (fun r hr => hrs r (hperm.mem_iff.mp hr)) hstart
    rw [nil_append] at hkept'
    refine ⟨calls', last', hrun', hkept'.closest.unique (hkept.closest.congr fun p => ?_),
      hkept'.nearest.unique (hkept.nearest.congr fun p => ?_)⟩
    · simp only [hperm.mem_iff]
    · simp only [hperm.mem_iff]

/-! A zone of the root and `a.`, with the digests of SHA-1 for the names. -/

def root : Name := ⟨[], true, Name.root_length_le⟩

def twoNames : Zone where
  apex := root
  nodes := [⟨root, [.soa, .ns]⟩, ⟨.tld 0x61, [1]⟩]
  absolute := by decide
  below := by decide
  distinct := by decide
  apex_mem := by decide

/-- The digest of the wire form, for the root, `a.` and `b.`. -/
def digest (wire : Bytes) : Bytes :=
  if wire = [0] then [91, 169, 60, 157, 176, 207, 249, 63, 82, 181, 33, 215, 66, 14, 67, 246, 237, 162, 120, 79]
  else if wire = [1, 97, 0] then [212, 197, 66, 193, 124, 171, 12, 58, 192, 26, 199, 182, 105, 164, 172, 71, 4, 179, 121, 209]
  else if wire = [1, 98, 0] then [28, 82, 57, 64, 96, 251, 0, 138, 75, 236, 141, 219, 172, 108, 198, 79, 115, 94, 31, 172]
  else []

def twoHashing : Hashing := ⟨fun wire => Vector.ofFn fun i => (digest wire).getD i 0, 0, []⟩

def hashed (n : Name) : Bytes := Base32.hexnpTotext (-1) [] (twoHashing.hash n)

def rootRecord : Record twoNames twoHashing where
  name := root
  owner := ⟨[⟨hashed root, by decide, by decide⟩], true, by decide⟩
  next := twoHashing.hash (.tld 0x61)
  flags := 0
  types := [.soa, .ns]
  absolute := rfl
  below := by decide
  present := by decide
  outside := by decide
  owner_absolute := rfl
  owner_zone := ⟨_, rfl⟩
  owner_hash := by decide

theorem absolute_a : (Name.tld 0x61).absolute := rfl

def aRecord : Record twoNames twoHashing where
  name := .tld 0x61
  owner := ⟨[⟨hashed (.tld 0x61), by decide, by decide⟩], true, by decide⟩
  next := twoHashing.hash root
  flags := 0
  types := [1]
  absolute := absolute_a
  below := by decide
  present := by decide
  outside := by decide
  owner_absolute := rfl
  owner_zone := ⟨_, rfl⟩
  owner_hash := by decide

theorem path_of_isPrefix_tld {p : List (List Nat)} {octet : UInt8} (hbelow : root.path <+: p) (h : p <+: (Name.tld octet).path) :
    p = root.path ∨ p = (Name.tld octet).path := by
  have hlen := h.length_le
  rcases Nat.lt_or_ge p.length 2 with hlt | hge
  · exact .inl (hbelow.eq_of_length_le (Nat.le_of_lt_succ hlt)).symm
  · exact .inr (h.eq_of_length_le hge)

theorem twoNames_path {p : List (List Nat)} (hbelow : twoNames.apex.path <+: p) (h : twoNames.Exists p) :
    p = root.path ∨ p = (Name.tld 0x61).path := by
  obtain ⟨n, hn, hpre⟩ := h
  rcases mem_pair.mp hn with rfl | rfl
  · exact .inl (hbelow.eq_of_length_le hpre.length_le).symm
  · exact path_of_isPrefix_tld hbelow hpre

def twoChain : Chain twoNames twoHashing where
  records := [rootRecord, aRecord]
  complete n _ hbelow h _ := .inl (by
    rcases twoNames_path hbelow h with heq | heq
    · exact ⟨rootRecord, .head _, heq.symm⟩
    · exact ⟨aRecord, .tail _ (.head _), heq.symm⟩)
  next_mem := by
    intro r hr
    rcases mem_pair.mp hr with rfl | rfl
    · exact ⟨aRecord, .tail _ (.head _), rfl⟩
    · exact ⟨rootRecord, .head _, rfl⟩
  sorted := by
    intro r hr r' hr'
    rcases mem_pair.mp hr with rfl | rfl <;> rcases mem_pair.mp hr' with rfl | rfl <;>
      first | exact not_between_owner _ _ | (unfold Record.Covers Between; decide)

theorem twoHashing_injective : Injective twoNames twoHashing (.tld 0x62) := by
  have hpath : ∀ n : Name, twoNames.apex.path <+: n.path → (twoNames.Exists n.path ∨ n.path <+: (Name.tld 0x62).path) →
      ∃ k ∈ [root, .tld 0x61, .tld 0x62], n.path = k.path := by
    rintro n hbelow (h | h)
    · exact (twoNames_path hbelow h).elim (fun heq => ⟨_, by simp, heq⟩) fun heq => ⟨_, by simp, heq⟩
    · exact (path_of_isPrefix_tld hbelow h).elim (fun heq => ⟨_, by simp, heq⟩) fun heq => ⟨_, by simp, heq⟩
  have hnames : ∀ k ∈ [root, .tld 0x61, .tld 0x62], k.absolute ∧ ∀ l ∈ [root, .tld 0x61, .tld 0x62],
      twoHashing.hash k = twoHashing.hash l → k.path = l.path := by decide
  intro n m hn hm hbn hbm hxn hxm heq
  obtain ⟨k, hk, hnk⟩ := hpath n hbn hxn
  obtain ⟨l, hl, hml⟩ := hpath m hbm hxm
  rw [hnk, hml]
  refine (hnames k hk).2 l hl ?_
  rw [← twoHashing.hash_eq_of_path hn (hnames k hk).1 hnk, heq, twoHashing.hash_eq_of_path hm (hnames l hl).1 hml]

/-- No names have been kept yet. -/
def Names.none : Names :=
  ⟨⟨[], false, by decide⟩, ⟨[], false, by decide⟩, ⟨[], false, by decide⟩⟩

/-- The record of the root shows the closest encloser of `b.`, and that of `a.` shows that `b.` does not exist. -/
theorem run_sound_twoNames : ¬ twoNames.Occluded (Name.tld 0x62).path ∧
    ∃ first out last, run ⟨true, true, true, true, true⟩ 1 (.tld 0x62) [rootRecord, aRecord] .none =
        .ok ([(rootRecord, .ignore, first), (aRecord, .success, out)], last) ∧
      out.existsp = some false ∧ last.closest = root ∧ last.nearest = .tld 0x62 ∧
      Sound twoChain ⟨true, true, true, true, true⟩ 1 (.tld 0x62) aRecord out := by
  refine ⟨by decide, ?_⟩
  obtain ⟨calls, last, hrun, -, hsound, -⟩ := run_sound twoNames twoHashing twoChain ⟨true, true, true, true, true⟩ 1
    (.tld 0x62) rfl (by decide) (by decide) twoHashing_injective .none (.inl rfl) rfl rfl [rootRecord, aRecord]
    (fun r hr => hr)
  cases hrun
  exact ⟨_, _, _, rfl, rfl, rfl, rfl, hsound rfl _ (.tail _ (.head _)) rfl⟩

end OqsBind.Dns.Nsec3
