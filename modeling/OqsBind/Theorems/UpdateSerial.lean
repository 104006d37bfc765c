import OqsBind.Theorems.UpdateZone

/-! The serial after a dynamic update. The server sets it, unless it takes a SOA record of the update section to have done
    so; whether the serial has advanced then depends on what became of that record. -/

namespace OqsBind.Ns.Update
open Isc Dns.ZoneDiff List
open Dns (Name RdataType RdataClass)

theorem soaSerial_setserial {rdata : Rdata} (h : 20 ≤ rdata.data.length) (serial : UInt32) :
    soaSerial (soaSetserial rdata serial).data = serial := by
  obtain ⟨a, b, hdata, hb⟩ : ∃ a b, rdata.data = a ++ b ∧ b.length = 20 :=
    ⟨_, _, (take_append_drop (rdata.data.length - 20) rdata.data).symm, by rw [length_drop]; omega⟩
  have hsplit : rdata.data = a ++ b.take 4 ++ b.drop 4 := by rw [hdata, append_assoc, take_append_drop]
  have hpos : rdata.data.length - 20 = a.length := by
    rw [hdata, length_append]
    omega
  have hset : (soaSetserial rdata serial).data = a ++ be32 serial.toNat ++ b.drop 4 := by
    rw [soaSetserial, hpos]
    conv_lhs => rw [hsplit]
    exact setBytes_append _ (by simp [be32, hb])
  have hlen : (a ++ be32 serial.toNat ++ b.drop 4).length - 20 = a.length := by
    simp [be32, hb]
  rw [soaSerial, hset, hlen, append_assoc, drop_left, get32_be32 serial.toNat_lt]
  exact UInt32.ofNat_toNat

theorem serialGt_irrefl (s : UInt32) : serialGt s s = false := by
  simp [serialGt]

theorem serialGt_updateSoaserial (s : UInt32) (clock : Clock) {method : UpdateMethod} (h : method ≠ .none) :
    serialGt (updateSoaserial s clock method) s = true := by
  have hincrement : serialGt (soaserialBy s clock .increment) s = true := by
    simp only [soaserialBy, serialGt]
    split_ifs with hzero
    · have hs : s = 0xffffffff := by
        have hneg : s = 0 - 1 := by rw [← hzero, UInt32.add_sub_cancel]
        rw [hneg]
        rfl
      rw [hs]
      decide
    · simp
  unfold updateSoaserial
  cases method with
  | none => exact absurd rfl h
  | increment => exact hincrement
  | unixtime | date =>
    dsimp only
    split_ifs with hgt
    · exact hgt.2
    · exact hincrement

section
variable {c : Conf} {s s' : Pending} {z : List RR} {u : UpdateRR} {r r₀ r₁ : RR}

/-! ### The update section -/

/-- What a record of the update section makes of the serial, and of the mark that it has changed. A SOA record that is ahead
    of the serial sets the mark. It sets the serial too, unless the policy lets the apex have one such record only. -/
def raise (c : Conf) (st : UInt32 × Bool) (u : UpdateRR) : UInt32 × Bool :=
  if u.rdclass = c.rdclass ∧ u.rdata.type = .soa ∧ u.name.equal c.origin ∧ !dnsSerialGe st.1 (soaSerial u.rdata.data) then
    (if c.privatetype ≠ .soa ∧ u.max ≠ 1 then soaSerial u.rdata.data else st.1, true)
  else st

theorem foldl_raise_unmarked {us : List UpdateRR} {st : UInt32 × Bool} (h : (us.foldl (raise c) st).2 = false) :
    us.foldl (raise c) st = st := by
  induction us using reverseRecOn with
  | nil => rfl
  | append_singleton us u ih =>
    rw [foldl_append, foldl_cons, foldl_nil] at h ⊢
    unfold raise at h ⊢
    split_ifs at h ⊢
    exact ih h

theorem SoaOf.getsoaserial (h : SoaOf c.origin z r) {serial : UInt32} (hrun : getsoaserial c.origin z = .ok serial) :
    rrset z c.origin .soa 0 = [r] ∧ serial = soaSerial r.rdata.data := by
  unfold Update.getsoaserial at hrun
  split at hrun
  · cases hrun
  · next r' hset =>
    have hr' : r' ∈ rrset z c.origin .soa 0 := hset ▸ mem_singleton_self r'
    obtain rfl := h.unique r' (mem_filter.mp hr').1 (RR.inSet_iff.mp (mem_filter.mp hr').2).2.1
    split_ifs at hrun
    cases hrun
    exact ⟨hset, rfl⟩
  · cases hrun

theorem addWanted_soa (hz : Coherent c.forms z) (hsoa : SoaOf c.origin z r)
    (hcname : ∀ r ∈ z, r.rdata.type = .cname → r.owner.equal c.origin = false) (htype : u.rdata.type = .soa) :
    addWanted c z u = if u.name.equal c.origin then checkSoaIncrement c.origin z u.rdata else .ok false := by
  have hexists : rrsetExists z u.name .soa = u.name.equal c.origin := by
    rw [Bool.eq_iff_iff, rrsetExists_iff hz plain_soa (by decide)]
    refine ⟨fun ⟨r', hr', howner, hr'soa⟩ => ?_, fun hname => ⟨r, hsoa.mem, ?_, hsoa.type⟩⟩
    · rw [hsoa.unique r' hr' hr'soa] at howner
      exact Name.equal_left howner hsoa.owner
    · exact Name.equal_trans hsoa.owner (Name.equal_symm hname)
  have hnone : u.name.equal c.origin = true → rrsetExists z u.name .cname = false := fun hname => by
    rw [← Bool.not_eq_true, rrsetExists_iff hz ⟨by decide, by decide⟩ (by decide)]
    rintro ⟨r', hr', howner, htype'⟩
    cases (hcname r' hr' htype').symm.trans (Name.equal_trans howner hname)
  unfold addWanted
  rw [htype, hexists, if_neg (by decide), if_neg (fun h => absurd h.1 (by decide)),
    if_neg (fun h => absurd h.1 (by decide)), if_pos rfl]
  cases hname : u.name.equal c.origin with
  | false => simp
  | true => simp [hnone hname]

theorem addPermitted_soa (htype : u.rdata.type = .soa) : addPermitted c u = decide (c.privatetype ≠ .soa) := by
  simp only [addPermitted, htype, ne_comm (a := c.privatetype)]
  simp [RdataType.atparent, RdataType.soa, RdataType.ds, RdataType.nsec3param]

theorem belowMax_one (hrs : foreachRr z u.name u.rdata.type u.covers = [r]) : belowMax z u = decide (u.max ≠ 1) := by
  rw [belowMax, hrs, length_singleton, ← Bool.decide_or, decide_eq_decide]
  omega

/-- A SOA record of the class of the zone. -/
theorem updateAdd_soa {t t' : Section} (hz : Coherent c.forms t.zone) (hsoa : SoaOf c.origin t.zone r)
    (hcname : ∀ r ∈ t.zone, r.rdata.type = .cname → r.owner.equal c.origin = false)
    (hfold : ∀ a b, c.forms.fold .soa a = c.forms.fold .soa b → soaSerial a = soaSerial b)
    (hclass : u.rdclass = c.rdclass) (htype : u.rdata.type = .soa) (hrun : updateAdd c t u = .ok t') :
    ∃ r', SoaOf c.origin t'.zone r' ∧
      (soaSerial r'.rdata.data, t'.soaSerialChanged) = raise c (soaSerial r.rdata.data, t.soaSerialChanged) u := by
  obtain ⟨wanted, hwanted, hrun⟩ := bind_ok hrun
  rw [addWanted_soa hz hsoa hcname htype] at hwanted
  split_ifs at hwanted with hname
  · obtain ⟨new, hnew, hwanted⟩ := bind_ok hwanted
    obtain ⟨old, hold, hwanted⟩ := bind_ok hwanted
    cases hwanted
    obtain ⟨hset, rfl⟩ := hsoa.getsoaserial hold
    obtain rfl : soaSerial u.rdata.data = new := by
      unfold soaGetserial at hnew
      split_ifs at hnew
      exact Except.ok.inj hnew
    cases hahead : dnsSerialGe (soaSerial r.rdata.data) (soaSerial u.rdata.data) with
    | true =>
      rw [hahead] at hrun
      cases hrun
      exact ⟨r, hsoa, by simp [raise, hahead]⟩
    | false =>
      have hcovers : u.covers = 0 := if_neg (by simp [htype, RdataType.soa, RdataType.rrsig, RdataType.sig])
      have hrs : foreachRr t.zone u.name u.rdata.type u.covers = [r] := by
        rw [htype, hcovers, foreachRr_eq (by decide) (fun h => absurd h (by decide)), ← hset]
        exact filter_congr fun r' _ => by
          rw [RR.inSet, RR.inSet, Name.equal_congr (Name.equal_self _) hname]
      have hraise : raise c (soaSerial r.rdata.data, t.soaSerialChanged) u =
          (if c.privatetype ≠ .soa ∧ u.max ≠ 1 then soaSerial u.rdata.data else soaSerial r.rdata.data, true) :=
        if_pos ⟨hclass, htype, hname, by rw [hahead]; rfl⟩
      rw [hraise]
      simp only [hahead, addPermitted_soa htype, belowMax_one hrs, htype, decide_true, Bool.or_true, Bool.not_false, Bool.not_true, Bool.false_eq_true,
        if_false, Bool.not_eq_true', decide_eq_false_iff_not] at hrun
      split at hrun
      · next hprivate =>
        cases hrun
        exact ⟨r, hsoa, by rw [if_neg fun h => hprivate h.1]⟩
      next hprivate =>
      obtain ⟨⟨⟩, -, hrun⟩ := bind_ok hrun
      split_ifs at hrun with hone
      · obtain ⟨p, hadd, hrun⟩ := bind_ok hrun
        cases hrun
        rw [if_pos ⟨not_not.mp hprivate, hone⟩]
        have hfinds : Finds c t.zone u.name u.rdata u.covers := .inl (hcovers.trans (if_neg (htype ▸ plain_soa.2)).symm)
        rcases addRr_spec hz (htype ▸ by decide) (fun _ => hfinds) hadd with ⟨-, r', hr', hsame⟩ | hmerged
        · -- the record would be there already, with its serial
          rw [hrs, mem_singleton] at hr'
          simp only [Rdata.casesame, hr', htype, hsoa.type, true_and, decide_eq_true_eq] at hsame
          rw [hfold _ _ hsame, dnsSerialGe, UInt32.sub_self] at hahead
          cases hahead
        · obtain ⟨r', hr', hrdata, -⟩ := hmerged.soa (fun _ => ⟨r, hsoa.mem,
            Name.equal_trans hsoa.owner (Name.equal_symm hname), hsoa.type⟩) hsoa
          exact ⟨r', hr', by rw [hrdata htype]⟩
      · cases hrun
        exact ⟨r, hsoa, by rw [if_neg fun h => hone h.2]⟩
  · cases hwanted
    cases hrun
    exact ⟨r, hsoa, by simp [raise, hname]⟩

/-- What the update section keeps, from the version `old` on: no CNAME record comes to the apex, the changes are the
    difference, and the serial and its mark are those of the SOA records so far. -/
structure Raised (c : Conf) (old : List RR) (st : UInt32 × Bool) (t : Section) : Prop where
  coherent : Coherent c.forms t.zone
  stored : ∀ r ∈ t.zone, r.covers = r.rdata.covers
  cname : ∀ r ∈ t.zone, r.rdata.type = .cname → r.owner.equal c.origin = false
  exact : ∀ type, ExactFor c.forms type old t.toPending
  soa : ∃ r, SoaOf c.origin t.zone r ∧ (soaSerial r.rdata.data, t.soaSerialChanged) = st

theorem Merged.cname {ttl : UInt32} (hmerged : Merged c u.name ttl u.rdata s s') (hadd : Addable c s.zone u)
    (hz : Coherent c.forms s.zone) (hsoa : SoaOf c.origin s.zone r)
    (h : ∀ r ∈ s.zone, r.rdata.type = .cname → r.owner.equal c.origin = false) :
    ∀ r ∈ s'.zone, r.rdata.type = .cname → r.owner.equal c.origin = false := by
  intro r' hr' htype
  rcases hmerged.owner r' hr' with ⟨hcname, howner⟩ | ⟨r'', hr'', hset⟩
  · -- the SOA record keeps a CNAME record from being added
    rw [← Bool.not_eq_true]
    intro happex
    have hapex : r.owner.equal u.name = true :=
      Name.equal_trans hsoa.owner (Name.equal_trans (Name.equal_symm happex) howner)
    have hbad := hadd.cname (hcname.symm.trans htype) r hsoa.mem hapex
    rw [RR.nsec3, hz.covers_zero hsoa.mem (hsoa.type ▸ plain_soa), hsoa.type] at hbad
    revert hbad
    decide
  · rw [← Name.equal_congr hset.1 (Name.equal_self _)]
    exact h r'' hr'' (hset.2.1.trans htype)

section
variable {st : UInt32 × Bool} {t t' : Section} {old : List RR} {permitted : UpdateRR → Bool}
  (hrrsig : ∀ a b, c.forms.canon .rrsig a = c.forms.canon .rrsig b → get16 a = get16 b)
  (hfold : ∀ a b, c.forms.fold .soa a = c.forms.fold .soa b → soaSerial a = soaSerial b) (hclass : c.rdclass ≠ .any)
include hrrsig hfold hclass

theorem Raised.step (h : Raised c old st t) (hu : prescan c permitted u = .ok ()) (hone : updateRecord c t u = .ok t') :
    Raised c old (raise c st u) t' := by
  obtain ⟨r, hr, hst⟩ := h.soa
  have htold : ∀ type, Told c.forms type t.zone := fun type => told_of_rrsig hrrsig fun r hr _ => h.stored r hr
  obtain ⟨hchange, hmark⟩ := updateRecord_spec h.coherent (prescan_any hu) hone
  have hserial : ∃ r', SoaOf c.origin t'.zone r' ∧ (soaSerial r'.rdata.data, t'.soaSerialChanged) = raise c st u := by
    by_cases hadds : u.rdclass = c.rdclass ∧ u.rdata.type = .soa
    · rw [updateRecord, if_pos hadds.1] at hone
      rw [← hst]
      exact updateAdd_soa h.coherent hr h.cname hfold hadds.1 hadds.2 hone
    · rw [raise, if_neg fun hraise => hadds ⟨hraise.1, hraise.2.1⟩, ← hst, hmark hadds]
      cases hchange with
      | same heq => exact ⟨r, by rwa [heq], rfl⟩
      | pruned rs hpruned hdel =>
        exact ⟨r, ⟨hpruned.soa hdel hr, hr.type, hr.owner, fun r' hr' => hr.unique r' (hpruned.sub r' hr')⟩, rfl⟩
      | merged ttl hmerged hadd =>
        obtain ⟨r', hr', -, hother⟩ := hmerged.soa hadd.soa hr
        exact ⟨r', hr', by rw [hother fun htype => hadds ⟨hadd.rdclass, htype⟩]⟩
  cases hchange with
  | same heq => exact ⟨by rw [heq]; exact h.coherent, by rw [heq]; exact h.stored, by rw [heq]; exact h.cname,
      by rw [heq]; exact h.exact, hserial⟩
  | pruned rs hpruned _ =>
    exact ⟨hpruned.coherent, fun r hr => h.stored r (hpruned.sub r hr), fun r hr => h.cname r (hpruned.sub r hr),
      fun type => hpruned.exact type old (htold type) (h.exact type), hserial⟩
  | merged ttl hmerged hadd =>
    exact ⟨hmerged.coherent, hmerged.stored h.stored, hmerged.cname hadd h.coherent hr h.cname,
      fun type => hmerged.exactAll type old (htold type) (fun _ => hclass) (h.exact type), hserial⟩

theorem Raised.run {us : List UpdateRR} (h : Raised c old st t) (hus : ∀ u ∈ us, prescan c permitted u = .ok ())
    (hrun : us.foldlM (updateRecord c) t = .ok t') : Raised c old (us.foldl (raise c) st) t' := by
  induction us generalizing st t with
  | nil =>
    cases hrun
    exact h
  | cons u us ih =>
    rw [foldlM_cons] at hrun
    obtain ⟨t₁, hone, hrun⟩ := bind_ok hrun
    exact ih (h.step hrrsig hfold hclass (hus u (.head _)) hone) (fun u hu => hus u (.tail _ hu)) hrun

end

theorem Raised.kept {old : List RR} {st : UInt32 × Bool} {t : Section} (h : Raised c old st t) : Kept c old t.toPending :=
  ⟨h.coherent, fun type _ => h.exact type⟩

/-! ### The end of the update -/

theorem tuples_soa {ts : List Tuple} (hts : ∀ t ∈ ts, t.rdata.type ≠ .soa) (hz : Coherent c.forms s.zone)
    (hsoa : SoaOf c.origin s.zone r) (hexact : ExactFor c.forms .soa z s)
    (hrun : ts.foldlM (doOneTuple c.forms c.origin) s = .ok s') :
    SoaOf c.origin s'.zone r ∧ ExactFor c.forms .soa z s' := by
  refine (foldlM_kept (I := fun s => Coherent c.forms s.zone ∧ SoaOf c.origin s.zone r ∧ ExactFor c.forms .soa z s)
    (fun t ht s s' h hone => ?_) ⟨hz, hsoa, hexact⟩ hrun).2
  obtain ⟨hz, hsoa, hexact⟩ := h
  have hkeep : ∀ r : RR, r.rdata.type = .soa → (r ∈ s'.zone ↔ r ∈ s.zone) := fun r htype =>
    doOneTuple_other hz hone (htype ▸ (hts t ht).symm)
  exact ⟨doOneTuple_coherent hz hone, ⟨(hkeep r hsoa.type).mpr hsoa.mem, hsoa.type, hsoa.owner,
    fun r' hr' htype => hsoa.unique r' ((hkeep r' htype).mp hr') htype⟩, hexact.other hz (hts t ht) hone⟩

theorem removeOrphanedDs_soa (hz : Coherent c.forms s.zone) (hsoa : SoaOf c.origin s.zone r)
    (hexact : ExactFor c.forms .soa z s) (hrun : removeOrphanedDs c s = .ok s') :
    Coherent c.forms s'.zone ∧ SoaOf c.origin s'.zone r ∧ ExactFor c.forms .soa z s' := by
  obtain ⟨temp, hcleared, hzone, hdiff⟩ := removeOrphanedDs_spec hz hrun
  have hkeep : ∀ r : RR, r.rdata.type = .soa → (r ∈ temp.zone ↔ r ∈ s.zone) := fun r htype =>
    ⟨hcleared.sub r, fun hr => hcleared.kept r hr (htype ▸ by decide)⟩
  have hthere : ∀ k : Bytes × UInt32 × RdataType × Bytes, k.2.2.1 = .soa →
      (There c.forms temp.zone k ↔ There c.forms s.zone k) := fun k hk => There.other_type (fun r => hkeep r) hk
  -- the changes are about DS records
  have hother : ∀ t ∈ temp.diff, t.rdata.type ≠ .soa := fun t ht =>
    (hcleared.exact .soa plain_soa).notMem hthere ht
  refine ⟨hzone ▸ hcleared.coherent, ?_, ?_⟩
  · rw [hzone]
    exact ⟨(hkeep r hsoa.type).mpr hsoa.mem, hsoa.type, hsoa.owner,
      fun r' hr' htype => hsoa.unique r' ((hkeep r' htype).mp hr') htype⟩
  · rw [ExactFor, hzone, hdiff]
    exact (MinimalDiff.Exact.others hexact hother).congr hthere

theorem finish_soa {m : Maintenance} {clock : Clock} {method : UpdateMethod} {t : Section} {p p' : Pending}
    {ts : List Tuple} (hkept : Kept c z t.toPending) (hsoa : SoaOf c.origin t.zone r)
    (hfinish : finishSection c m clock method t = .ok p) (hsign : m.sign p = .ok ts)
    (htuples : ts.foldlM (doOneTuple c.forms c.origin) p = .ok p') :
    ∃ r₁, SoaOf c.origin p'.zone r₁ ∧ ExactFor c.forms .soa z p' ∧ soaSerial r₁.rdata.data =
      if t.soaSerialChanged then soaSerial r.rdata.data else updateSoaserial (soaSerial r.rdata.data) clock method := by
  obtain ⟨-, -, hfinish⟩ := bind_ok hfinish
  obtain ⟨p1, hserial, hfinish⟩ := bind_ok hfinish
  obtain ⟨-, -, hfinish⟩ := bind_ok hfinish
  obtain ⟨r₁, hcoherent1, hsoa1, hexact1, hserial1⟩ : ∃ r₁, Coherent c.forms p1.zone ∧ SoaOf c.origin p1.zone r₁ ∧
      ExactFor c.forms .soa z p1 ∧ soaSerial r₁.rdata.data = if t.soaSerialChanged then soaSerial r.rdata.data
        else updateSoaserial (soaSerial r.rdata.data) clock method := by
    unfold bumpSerial at hserial
    split_ifs at hserial ⊢ with hflag
    · cases hserial
      exact ⟨r, hkept.coherent, hsoa, hkept.exact .soa plain_soa, rfl⟩
    · have hbumped := updateSoaSerial_spec hkept.coherent hsoa hserial
      exact ⟨_, hbumped.coherent, hbumped.soa hsoa.type hsoa, hbumped.exact .soa z plain_soa (hkept.exact .soa plain_soa),
        soaSerial_setserial hbumped.length _⟩
  obtain ⟨hcoherent, hsoa, hexact⟩ := removeOrphanedDs_soa hcoherent1 hsoa1 hexact1 hfinish
  obtain ⟨hsoa, hexact⟩ := tuples_soa (m.sign_soa p ts hsign) hcoherent hsoa hexact htuples
  exact ⟨r₁, hsoa, hexact, hserial1⟩

/-- Two versions differ in some record. -/
def Differs (forms : Forms) (z z' : List RR) : Prop := ∃ k, ¬ (There forms z k ↔ There forms z' k)

/-- The serial has advanced, and of SOA records the changes are the deletion of the old one and the addition of the
    new one. -/
def Advanced (c : Conf) (r₀ : RR) (p : Pending) : Prop :=
  ∃ r₁, SoaOf c.origin p.zone r₁ ∧ serialGt (soaSerial r₁.rdata.data) (soaSerial r₀.rdata.data) = true ∧
    (p.diff.filter fun t => t.op = .del ∧ t.rdata.type = .soa).map (Tuple.key c.forms) = [r₀.key c.forms] ∧
    (p.diff.filter fun t => t.op = .add ∧ t.rdata.type = .soa).map (Tuple.key c.forms) = [r₁.key c.forms]

theorem SoaOf.there_iff {k : Bytes × UInt32 × RdataType × Bytes} (h : SoaOf c.origin z r) (hk : k.2.2.1 = .soa) :
    There c.forms z k ↔ k = r.key c.forms := by
  constructor
  · rintro ⟨r', hr', rfl⟩
    rw [h.unique r' hr' hk]
  · rintro rfl
    exact ⟨r, h.mem, rfl⟩

theorem key_ne_of_serial (h : soaSerial r₁.rdata.data ≠ soaSerial r₀.rdata.data) (htype : r₁.rdata.type = .soa)
    (htype0 : r₀.rdata.type = .soa) : r₁.key c.forms ≠ r₀.key c.forms := by
  intro heq
  have hcanon : c.forms.canon r₁.rdata.type r₁.rdata.data = c.forms.canon r₀.rdata.type r₀.rdata.data := congrArg (·.2.2.2) heq
  rw [htype, htype0] at hcanon
  exact h (c.forms.soa _ _ hcanon)

theorem advanced_iff {p : Pending} (h0 : SoaOf c.origin z r₀) (h1 : SoaOf c.origin p.zone r₁)
    (hexact : ExactFor c.forms .soa z p) :
    Advanced c r₀ p ↔ serialGt (soaSerial r₁.rdata.data) (soaSerial r₀.rdata.data) = true := by
  constructor
  · rintro ⟨r, hr, hgt, -⟩
    rwa [← hr.unique r₁ h1.mem h1.type] at hgt
  · intro hgt
    have hne : r₁.key c.forms ≠ r₀.key c.forms := by
      refine key_ne_of_serial (fun heq => ?_) h1.type h0.type
      rw [heq, serialGt_irrefl] at hgt
      cases hgt
    refine ⟨r₁, h1, hgt, ?_, ?_⟩
    · have hdel := MinimalDiff.Exact.filter_eq hexact (b := false) (k := r₀.key c.forms) (fun k hk => ?_) h0.type
      · rw [← hdel]
        refine congrArg _ (filter_congr fun t _ => ?_)
        cases t.op <;> simp [Tuple.key]
      · rw [hexact.deleted k hk, h0.there_iff hk, h1.there_iff hk]
        exact ⟨fun h => h.1, fun h => ⟨h, fun h' => hne (h'.symm.trans h)⟩⟩
    · have hadd := MinimalDiff.Exact.filter_eq hexact (b := true) (k := r₁.key c.forms) (fun k hk => ?_) h1.type
      · rw [← hadd]
        refine congrArg _ (filter_congr fun t _ => ?_)
        cases t.op <;> simp [Tuple.key]
      · rw [hexact.added k hk, h0.there_iff hk, h1.there_iff hk]
        exact ⟨fun h => h.1, fun h => ⟨h, fun h' => hne (h.symm.trans h')⟩⟩

end

/-- An update that changes the version advances the serial if and only if no SOA record of the update section is ahead of
    the serial, or the one that they leave is greater than the old one. -/
theorem update_advances_serial (c : Conf) (m : Maintenance) (clock : Clock) (method : UpdateMethod)
    (permitted : UpdateRR → Bool) (z : List RR) (us : List UpdateRR) (r₀ : RR) (hz : Coherent c.forms z)
    (hstored : ∀ r ∈ z, r.covers = r.rdata.covers) (hsoa : SoaOf c.origin z r₀)
    (hcname : ∀ r ∈ z, r.rdata.type = .cname → r.owner.equal c.origin = false)
    (hrrsig : ∀ a b, c.forms.canon .rrsig a = c.forms.canon .rrsig b → get16 a = get16 b)
    (hfold : ∀ a b, c.forms.fold .soa a = c.forms.fold .soa b → soaSerial a = soaSerial b) (hclass : c.rdclass ≠ .any)
    (hmethod : method ≠ .none) (hus : ∀ u ∈ us, prescan c permitted u = .ok ()) (p : Pending)
    (hrun : updateAction c m clock method z us = .ok p) (hdiffers : Differs c.forms z p.zone) :
    Advanced c r₀ p ↔ ((us.foldl (raise c) (soaSerial r₀.rdata.data, false)).2 = true →
      serialGt (us.foldl (raise c) (soaSerial r₀.rdata.data, false)).1 (soaSerial r₀.rdata.data) = true) := by
  obtain ⟨t, hsection, hrun⟩ := bind_ok hrun
  have hraised : Raised c z (soaSerial r₀.rdata.data, false) ⟨⟨z, []⟩, false⟩ :=
    ⟨hz, hstored, hcname, fun _ => MinimalDiff.Exact.nil _ _, r₀, hsoa, rfl⟩
  replace hraised := hraised.run hrrsig hfold hclass hus hsection
  obtain ⟨r, hr, hst⟩ := hraised.soa
  by_cases hdiff : t.diff = []
  · rw [hdiff] at hrun
    cases hrun
    obtain ⟨k, hk⟩ := hdiffers
    refine absurd (Iff.symm ((hraised.exact k.2.2.1).same (fun t' ht' => ?_) rfl)) hk
    rw [hdiff] at ht'
    cases ht'
  · rw [if_neg (by simpa using hdiff)] at hrun
    obtain ⟨p₁, hfinish, hrun⟩ := bind_ok hrun
    obtain ⟨ts, hsign, hrun⟩ := bind_ok hrun
    obtain ⟨p₂, htuples, hrun⟩ := bind_ok hrun
    obtain ⟨-, -, hrun⟩ := bind_ok hrun
    cases hrun
    obtain ⟨r₁, hr₁, hexact, hserial⟩ := finish_soa hraised.kept hr hfinish hsign htuples
    rw [advanced_iff hsoa hr₁ hexact, hserial, ← hst]
    cases hmark : t.soaSerialChanged with
    | true => simp
    | false =>
      have hsame : us.foldl (raise c) (soaSerial r₀.rdata.data, false) = _ :=
        foldl_raise_unmarked (by rw [← hst]; exact hmark)
      rw [← hst, Prod.mk.injEq] at hsame
      simp [hsame.1, serialGt_updateSoaserial _ clock hmethod]

/-! The serial of the small zone. -/

namespace SmallZone

/-- A SOA record with the next serial, by a rule that lets a name have so many of them. -/
def raiseSerial (max : Nat) : UpdateRR := ⟨origin, .in_, 60, soa 2, max⟩

theorem zone_soa : SoaOf origin zone ⟨origin, 0, 60, soa 1⟩ := by
  refine ⟨.head _, ?_, ?_, ?_⟩ <;> decide

end SmallZone

open SmallZone in
theorem update_advances_serial_delegation : ∃ p,
    updateAction conf maintenance ⟨0, 0⟩ .increment zone [raiseSerial 0, undelegate] = .ok p ∧
    Differs conf.forms zone p.zone ∧ Advanced conf ⟨origin, 0, 60, soa 1⟩ p := by
  have hus : ∀ u ∈ [raiseSerial 0, undelegate], prescan conf (fun _ => true) u = .ok () := by decide
  have hdiffers : ∀ p, ¬ There forms p (RR.key forms ⟨sub, 0, 60, ns⟩) → Differs forms zone p := fun p hp =>
    ⟨_, fun hiff => hp (hiff.mp ⟨⟨sub, 0, 60, ns⟩, by decide, rfl⟩)⟩
  refine ⟨_, rfl, hdiffers _ (by unfold There; decide), ?_⟩
  exact (update_advances_serial conf maintenance ⟨0, 0⟩ .increment (fun _ => true) zone [raiseSerial 0, undelegate] _
    zone_coherent (by decide) zone_soa (by decide) (fun _ _ h => congrArg get16 h) (fun _ _ h => congrArg soaSerial h)
    (by decide) (by decide) hus _ rfl (hdiffers _ (by unfold There; decide))).mpr (by decide)

open SmallZone in
/-- The rule does not let the SOA record through, but the serial is taken to be changed, and the rest of the update is
    done. -/
theorem update_keeps_serial : Coherent conf.forms zone ∧ SoaOf conf.origin zone ⟨origin, 0, 60, soa 1⟩ ∧
    (∀ u ∈ [raiseSerial 1, undelegate], prescan conf (fun _ => true) u = .ok ()) ∧
    ∃ p, updateAction conf maintenance ⟨0, 0⟩ .increment zone [raiseSerial 1, undelegate] = .ok p ∧
      Differs conf.forms zone p.zone ∧ ¬ Advanced conf ⟨origin, 0, 60, soa 1⟩ p := by
  refine ⟨zone_coherent, zone_soa, fun u hu => ?_, ⟨[⟨origin, 0, 60, soa 1⟩, ⟨origin, 0, 60, ns⟩, ⟨hashed, 0, 60, nsec3⟩],
    [⟨.del, sub, 60, ns⟩, ⟨.del, sub, 60, ds⟩]⟩, rfl, ?_, ?_⟩
  · simp only [mem_cons, not_mem_nil, or_false] at hu
    rcases hu with rfl | rfl <;> rfl
  · exact ⟨RR.key forms ⟨sub, 0, 60, ns⟩, by unfold There; decide⟩
  · rintro ⟨r₁, hr₁, hgt, -⟩
    rw [← hr₁.unique ⟨origin, 0, 60, soa 1⟩ (.head _) rfl, serialGt_irrefl] at hgt
    cases hgt

end OqsBind.Ns.Update
