import OqsBind.Lib.Agents
import OqsBind.Lib.Checked
import OqsBind.Theorems.DispatchInv

/-! Where TCP messages go. -/

namespace OqsBind.Dns.TcpDispatch
open Isc List Mgr

section
variable {hash : Sockaddr → UInt32} {m m' : Mgr} {d e now : Nat} {r : Dispentry} {resps : Scheduled} {result : Result}

/-! ### Making responses and connecting -/

theorem insist_pos {fault : Fault} {c : Prop} [Decidable c] (h : c) : insist fault c = .ok () := if_pos h

theorem insist_ok {fault : Fault} {c : Prop} [Decidable c] {u : Unit} (h : insist fault c = .ok u) : c := by
  unfold insist at h
  split_ifs at h with hc
  exact hc

theorem Inv.added (h : Inv hash m) {timeout : Nat} {dest : Sockaddr} {fixedid : Bool} {id : UInt16} {res : Result × Mgr}
    (hadd : add hash m d timeout dest fixedid id = .ok res) : Inv hash res.2 := by
  obtain ⟨dp, hdp, hadd⟩ := bind_ok hadd
  rw [dispatch_eq_ok] at hdp
  dsimp only at hadd
  split_ifs at hadd
  · cases hadd
    exact h
  · split at hadd
    · cases hadd
      exact h
    · next id' hid =>
      cases hadd
      refine Inv.flags ?_ fun dp => ⟨rfl, .refl _, rfl⟩
      exact h.link (r := ⟨d, .none, _, timeout, 0, dest, dp.localaddr.port, id', false⟩) hdp rfl rfl rfl
        (chooseId_spec hid)

theorem Inv.connect (h : Inv hash m) (hnone : m.hasState e .none = true) (hnow : now ≠ 0) (hrun : tcpDispatchConnect m e now = .ok m') :
    Inv hash m' := by
  obtain ⟨r, hr, hrun⟩ := bind_ok hrun
  obtain ⟨dp, hdp, hrun⟩ := bind_ok hrun
  rw [entry_eq_ok] at hr
  have hstate : r.state = .none := by simpa [hasState, hr] using hnone
  have hlive : ∀ s : DispatchState, s ≠ .canceled → (s = .canceled ↔ r.state = .canceled) := fun s hs =>
    iff_of_false hs (by simp [hstate])
  split at hrun
  · cases hrun
    exact h.pend hr ⟨rfl, rfl, rfl, rfl, rfl, hlive _ nofun⟩ hstate rfl rfl hnow fun dp => ⟨rfl, rfl, rfl⟩
  · cases hrun
    exact h.pend hr ⟨rfl, rfl, rfl, rfl, rfl, hlive _ nofun⟩ hstate rfl rfl hnow fun dp => ⟨rfl, rfl, rfl⟩
  · obtain ⟨-, -, hrun⟩ := bind_ok hrun
    cases hrun
    exact h.activate hr ⟨rfl, rfl, rfl, rfl, rfl, hlive _ nofun⟩ (h.not_reading hr (by simp [hstate])) rfl rfl hnow
      (fun dp hdp => h.not_pending hr hdp (by simp [hstate]) (by simp [hstate])) fun dp => ⟨rfl, rfl, rfl⟩
  · cases hrun

/-- What the loop of `tcp_connected` keeps: the responses that are left are pending. -/
def Connecting (hash : Sockaddr → UInt32) (d : Nat) (l : List Nat) (m : Mgr) : Prop :=
  Inv hash m ∧ l.Nodup ∧ ∃ dp, m.dispatches d = some dp ∧ ∀ e ∈ l, e ∈ dp.pending

variable {l : List Nat}

theorem connectPending_spec {eresult : Result} (h : Connecting hash d (e :: l) m) :
    Checked (fun _ => False) (connectPending d eresult m e) (Connecting hash d l) := by
  obtain ⟨hinv, honce, dp, hdp, hpend⟩ := h
  obtain ⟨r, hr, hd, hstate⟩ := hinv.pending _ _ _ hdp (hpend e (.head _))
  obtain ⟨hout, honce⟩ := nodup_cons.mp honce
  subst hd
  let m1 := m.updateDispatch r.disp fun dp => { dp with pending := dp.pending.erase e }
  have hinv1 : Inv hash m1 := hinv.flags fun dp => ⟨rfl, erase_sublist, rfl⟩
  have hdp1 : m1.dispatches r.disp = some { dp with pending := dp.pending.erase e } :=
    (updateDispatch_eq_some ..).mpr ⟨dp, hdp, by simp⟩
  have hleft : ∀ e' ∈ l, e' ∈ dp.pending.erase e := fun e' he' =>
    (mem_erase_of_ne fun heq : e' = e => hout (heq ▸ he')).mpr (hpend e' (.tail _ he'))
  have hgone : ∀ dp', m1.dispatches r.disp = some dp' → e ∉ dp'.pending := fun dp' hdp' hin => by
    rw [hdp1] at hdp'
    cases hdp'
    exact (hinv.pendingOnce _ _ hdp).not_mem_erase hin
  have hnot : r.reading = false := hinv.not_reading hr (by rcases hstate with hs | hs <;> simp [hs])
  unfold connectPending
  rw [(entry_eq_ok ..).mpr hr]
  refine .ite (fun _ => ?_) fun hlive => .ite (fun _ => ?_) fun _ => ?_
  · exact ⟨hinv1, honce, _, hdp1, hleft⟩
  · refine ⟨hinv1.activate hr ⟨rfl, rfl, rfl, rfl, rfl, iff_of_false (by simp) hlive⟩ hnot rfl rfl
      ((hinv.timed e r hr).started (.inl (hstate.resolve_right hlive))) hgone
      fun dp => ⟨rfl, rfl, rfl⟩, honce, _, (updateDispatch_eq_some ..).mpr ⟨_, hdp1, rfl⟩, ?_⟩
    simpa using hleft
  · exact ⟨hinv1.entry hr ⟨rfl, rfl, rfl, rfl, rfl, iff_of_false (by simp) hlive⟩ rfl
      ⟨fun hread => absurd hread (Bool.eq_false_iff.mp hnot), by simp⟩ fun dp' hdp' hin => absurd hin (hgone dp' hdp'), honce, _, hdp1, hleft⟩

theorem Inv.connectedAll (h : Inv hash m) {eresult : Result} (hrun : tcpConnected m d eresult = .ok m') : Inv hash m' := by
  obtain ⟨dp, hdp, hrun⟩ := bind_ok hrun
  rw [dispatch_eq_ok] at hdp
  obtain ⟨-, -, hrun⟩ := bind_ok hrun
  obtain ⟨m1, hm1, hrun⟩ := bind_ok hrun
  have hloop : Connecting hash d [] m1 := (Checked.foldlM (I := Connecting hash d)
    (fun _ _ _ hm => connectPending_spec hm)
    ⟨h, h.pendingOnce _ _ hdp, dp, hdp, fun e he => he⟩).of_ok hm1
  obtain ⟨dp1, -, hrun⟩ := bind_ok hrun
  split_ifs at hrun <;> cases hrun <;> exact hloop.1.flags fun dp => ⟨rfl, .refl _, rfl⟩

/-! ### Receiving -/

theorem tcpRecvAdd_spec (resps : Scheduled) (result : Result) (h : Inv hash m) (he : m.entries e = some r)
    (hr : r.reading = true) :
    ∃ m', tcpRecvAdd m resps e result = .ok (m', resps ++ [(e, result)]) ∧ Inv hash m' ∧
      m' = (m.updateDispatch r.disp fun dp => { dp with active := dp.active.erase e }).updateEntry e
        ({ · with reading := false }) := by
  obtain ⟨dp, hdp⟩ := h.owner e r he
  refine ⟨_, ?_, h.deactivate he, rfl⟩
  unfold tcpRecvAdd
  simp only [(entry_eq_ok ..).mpr he, (dispatch_eq_ok ..).mpr hdp, bind, Except.bind,
    insist_pos ((h.active_iff he hdp).mpr hr), insist_pos hr]
  rfl

/-- The entry is a response of the dispatch. -/
def Mgr.Owns (m : Mgr) (d e : Nat) : Prop := ∃ r, m.entries e = some r ∧ r.disp = d

/-- What a loop over the active responses of a dispatch keeps, with `l` to go: the responses that it has scheduled with a
    result are those of the dispatch. -/
structure Sweep (hash : Sockaddr → UInt32) (d : Nat) (m₀ : Mgr) (resps₀ : Scheduled) (result : Result) (l : List Nat)
    (s : Mgr × Scheduled) : Prop where
  inv : Inv hash s.1
  once : l.Nodup
  left : ∀ e ∈ l, ∃ r, s.1.entries e = some r ∧ r.disp = d ∧ r.reading = true
  same : ∀ e, s.1.Owns d e → m₀.Owns d e
  known : ∃ dp, s.1.dispatches d = some dp
  added : ∃ extra, s.2 = resps₀ ++ extra ∧ ∀ x ∈ extra, x.2 = result ∧ m₀.Owns d x.1

variable {m₀ : Mgr} {dp : Dispatch}

theorem Sweep.start (h : Inv hash m) (hdp : m.dispatches d = some dp)
    (hsame : ∀ e, m.Owns d e → m₀.Owns d e) : Sweep hash d m₀ resps result dp.active (m, resps) :=
  ⟨h, h.activeOnce _ _ hdp, fun _ he => (h.active _ _ _ hdp).mp he, hsame, ⟨dp, hdp⟩, [], (append_nil _).symm, nofun⟩

theorem Mgr.updateEntry_owns {f : Dispentry → Dispentry} (hf : ∀ r, (f r).disp = r.disp) {e' : Nat} :
    (m.updateEntry e f).Owns d e' ↔ m.Owns d e' := by
  unfold Owns
  simp only [updateEntry_eq_some]
  constructor
  · rintro ⟨-, ⟨r0, hr0, rfl⟩, hd⟩
    refine ⟨r0, hr0, ?_⟩
    split_ifs at hd
    · exact (hf r0).symm.trans hd
    · exact hd
  · rintro ⟨r0, hr0, hd⟩
    refine ⟨_, ⟨r0, hr0, rfl⟩, ?_⟩
    split_ifs
    · exact (hf r0).trans hd
    · exact hd

theorem Sweep.skip {resps0 : Scheduled} {s : Mgr × Scheduled}
    (h : Sweep hash d m₀ resps0 result (e :: l) s) : Sweep hash d m₀ resps0 result l s :=
  { h with
    once := (nodup_cons.mp h.once).2
    left := fun e' he' => h.left e' (.tail _ he') }

theorem Sweep.add {resps0 : Scheduled} {s : Mgr × Scheduled} (h : Sweep hash d m₀ resps0 result (e :: l) s) :
    ∃ s', tcpRecvAdd s.1 s.2 e result = .ok s' ∧ Sweep hash d m₀ resps0 result l s' ∧
      (∀ e', e' ≠ e → s'.1.entries e' = s.1.entries e') ∧ ∃ r, s'.1.entries e = some r ∧ r.reading = false := by
  obtain ⟨r, hr, hd, hread⟩ := h.left e (.head _)
  obtain ⟨dp, hdp⟩ := h.known
  obtain ⟨extra, hextra, hall⟩ := h.added
  obtain ⟨m', hrun, hinv, rfl⟩ := tcpRecvAdd_spec s.2 result h.inv hr hread
  have hother : ∀ e', e' ≠ e → ((s.1.updateDispatch r.disp fun dp => { dp with active := dp.active.erase e }).updateEntry e
      ({ · with reading := false })).entries e' = s.1.entries e' := fun e' hne => by
    simp [updateEntry, updateDispatch, hne]
  refine ⟨_, hrun, ⟨hinv, (nodup_cons.mp h.once).2, fun e' he' => ?_, fun e' hown => ?_, ?_, ?_⟩, hother,
    _, updateEntry_self hr, rfl⟩
  · obtain ⟨r', hr', hrest⟩ := h.left e' (.tail _ he')
    refine ⟨r', (hother e' fun heq => ?_).trans hr', hrest⟩
    exact (nodup_cons.mp h.once).1 (heq ▸ he')
  · exact h.same e' ((updateEntry_owns (m := s.1) (f := ({ · with reading := false })) fun _ => rfl).mp hown)
  · exact ⟨_, (updateDispatch_eq_some ..).mpr ⟨dp, hdp, rfl⟩⟩
  · refine ⟨extra ++ [(e, result)], by rw [hextra, append_assoc], fun x hx => ?_⟩
    rcases mem_append.mp hx with hx | hx
    · exact hall x hx
    · rw [mem_singleton.mp hx]
      exact ⟨rfl, h.same e ⟨r, hr, hd⟩⟩

/-- A loop that schedules the active responses for which `P` holds. -/
theorem sweep_loop {f : Mgr × Scheduled → Nat → Except Fault (Mgr × Scheduled)} {P : Dispentry → Prop} [DecidablePred P]
    (hf : ∀ s e r, s.1.entries e = some r → f s e = if P r then tcpRecvAdd s.1 s.2 e result else .ok s)
    (resps : Scheduled) (h : Inv hash m) (hdp : m.dispatches d = some dp) (hsame : ∀ e, m.Owns d e → m₀.Owns d e) :
    ∃ s, dp.active.foldlM f (m, resps) = .ok s ∧ Sweep hash d m₀ resps result [] s ∧
      ∀ e r, s.1.entries e = some r → r.disp = d → r.reading = true → ¬P r := by
  let I : List Nat → Mgr × Scheduled → Prop := fun l s => Sweep hash d m₀ resps result l s ∧
    ∀ e r, s.1.entries e = some r → r.disp = d → r.reading = true → e ∈ l ∨ ¬P r
  have hround : ∀ e l s, I (e :: l) s → Checked (fun _ => False) (f s e) (I l) := by
    rintro e l s ⟨hs, hleft⟩
    obtain ⟨r, hr, hd, hread⟩ := hs.left e (.head _)
    rw [hf s e r hr]
    refine .ite (fun _ => ?_) fun hnot => ?_
    · obtain ⟨s', hrun, hs', hother, r', hr', hnot⟩ := hs.add
      rw [hrun]
      refine ⟨hs', fun e' r'' hr'' hd'' hread'' => ?_⟩
      have hne : e' ≠ e := by
        rintro rfl
        cases hr'.symm.trans hr''
        exact nomatch hnot.symm.trans hread''
      rw [hother e' hne] at hr''
      exact (hleft e' r'' hr'' hd'' hread'').imp_left fun hin => (mem_cons.mp hin).resolve_left hne
    · refine ⟨hs.skip, fun e' r'' hr'' hd'' hread'' => ?_⟩
      rcases hleft e' r'' hr'' hd'' hread'' with hin | hnot'
      · rcases mem_cons.mp hin with rfl | hin
        · cases hr.symm.trans hr''
          exact .inr hnot
        · exact .inl hin
      · exact .inr hnot'
  obtain ⟨s, hrun, hs, hleft⟩ := (Checked.foldlM hround (a := (m, resps)) (l := dp.active)
    ⟨.start h hdp hsame, fun e r hr hd hread => .inl ((h.active _ _ _ hdp).mpr ⟨r, hr, hd, hread⟩)⟩).exists_ok fun _ h => h
  exact ⟨s, hrun, hs, fun e r hr hd hread => (hleft e r hr hd hread).resolve_left not_mem_nil⟩

theorem expire_loop (resps : Scheduled) (now : Nat) (h : Inv hash m)
    (hdp : m.dispatches d = some dp) (hsame : ∀ e, m.Owns d e → m₀.Owns d e) :
    ∃ s, dp.active.foldlM (expire now) (m, resps) = .ok s ∧ Sweep hash d m₀ resps .timedout [] s ∧
      ∀ e r, s.1.entries e = some r → r.disp = d → r.reading = true → 0 < r.remaining now := by
  obtain ⟨s, hrun, hs, hleft⟩ := sweep_loop (f := expire now) (P := fun r => r.remaining now ≤ 0) (fun s e r hr => by
    rw [expire, (entry_eq_ok ..).mpr hr]
    rfl) resps h hdp hsame
  exact ⟨s, hrun, hs, fun e r hr hd hread => not_le.mp (hleft e r hr hd hread)⟩

theorem shutdown_loop (resps : Scheduled) (result : Result) (h : Inv hash m)
    (hdp : m.dispatches d = some dp) (hsame : ∀ e, m.Owns d e → m₀.Owns d e) :
    ∃ s, tcpRecvShutdown d result (m, resps) = .ok s ∧ Sweep hash d m₀ resps result [] s ∧
      ∀ e r, s.1.entries e = some r → r.disp = d → ¬ r.reading = true := by
  obtain ⟨s, hrun, hs, hall⟩ := sweep_loop (f := fun s e => tcpRecvAdd s.1 s.2 e result) (P := fun _ => True)
    (fun _ _ _ _ => (if_pos trivial).symm) resps h hdp hsame
  obtain ⟨dp', hdp'⟩ := hs.known
  refine ⟨(s.1.updateDispatch d ({ · with state := .canceled }), s.2), ?_, ?_, fun e r hr hd hread => ?_⟩
  · unfold tcpRecvShutdown
    simp only [(dispatch_eq_ok ..).mpr hdp, bind, Except.bind, hrun]
    rfl
  · exact ⟨hs.inv.flags fun dp => ⟨rfl, .refl _, rfl⟩, hs.once, hs.left, hs.same,
      ⟨_, (updateDispatch_eq_some ..).mpr ⟨dp', hdp', rfl⟩⟩, hs.added⟩
  · exact hall e r hr hd hread trivial

theorem resumeReading_spec (now : Nat) (h : Inv hash m) (hdp : m.dispatches d = some dp)
    (htime : ∀ e r, m.entries e = some r → r.disp = d → r.reading = true → 0 < r.remaining now) :
    ∃ m', resumeReading d now m = .ok m' ∧ Inv hash m' := by
  unfold resumeReading
  simp only [(dispatch_eq_ok ..).mpr hdp, bind, Except.bind]
  rcases hactive : dp.active with _ | ⟨e, l⟩
  · exact ⟨m, rfl, h⟩
  · obtain ⟨r, hr, hd, hread⟩ := (h.active _ _ e hdp).mp (by rw [hactive]; exact .head _)
    have htimed := h.timed e r hr
    simp only [(entry_eq_ok ..).mpr hr, insist_pos (htime e r hr hd hread),
      insist_pos (htimed.started (.inr (htimed.connected hread)))]
    exact ⟨_, rfl, h.flags fun dp => ⟨rfl, .refl _, rfl⟩⟩

variable {region : Bytes}

/-- The ID of a message that is an answer. -/
def answerId (region : Bytes) : Option UInt16 :=
  match peekheader region with
  | some (id, true) => some id
  | _ => none

/-- A response that is called back with the message is for the peer of the connection, and from no port. -/
theorem recvPhase1_success (h : Inv hash m) (hdp : m.dispatches d = some dp) :
    recvPhase1 hash m dp .success region = (.success, some e) ↔ ∃ r, m.entries e = some r ∧ r.reading = true ∧
      answerId region = some r.id ∧ r.peer = dp.peer ∧ r.port = 0 := by
  rw [recvPhase1, tcpRecvSuccess, answerId, h.localport d dp hdp]
  rcases peekheader region with _ | ⟨id, _ | _⟩
  · simp
  · simp
  · have hsearch : ∀ e, entrySearch m dp.peer id 0 (dnsHash hash dp.peer id 0) = some e ↔
        ∃ r, m.entries e = some r ∧ r.state ≠ .canceled ∧ r.id = id ∧ r.peer = dp.peer ∧ r.port = 0 :=
      fun _ => h.toTabled.search
    simp only [Bool.true_eq_false, if_false]
    constructor
    · intro hphase
      split at hphase
      · cases hphase
      · next e' hfound =>
        split_ifs at hphase with hread
        · cases hphase
          obtain ⟨r, hr, -, hid, hpeer, hport⟩ := (hsearch e).mp hfound
          exact ⟨r, hr, by simpa [hr] using hread, by rw [hid], hpeer, hport⟩
        · cases hphase
    · rintro ⟨r, hr, hread, hid, hpeer, hport⟩
      have hlive : r.state ≠ .canceled := by
        rw [(h.timed e r hr).connected hread]
        decide
      have hfound := (hsearch e).mpr ⟨r, hr, hlive, (Option.some.inj hid).symm, hpeer, hport⟩
      simp [hfound, hr, hread]

theorem recvPhase1_some (hsome : (recvPhase1 hash m dp .success region).2 = some e) :
    recvPhase1 hash m dp .success region = (.success, some e) := by
  unfold recvPhase1 tcpRecvSuccess at hsome ⊢
  generalize peekheader region = header at hsome ⊢
  rcases header with _ | ⟨id, _ | _⟩
  · cases hsome
  · cases hsome
  · simp only [Bool.true_eq_false, if_false] at hsome ⊢
    generalize entrySearch m dp.peer id dp.localport (dnsHash hash dp.peer id dp.localport) = found at hsome ⊢
    rcases found with _ | e'
    · cases hsome
    · by_cases hread : (m.entries e').any (·.reading) = true
      · simpa [hread] using hsome
      · simp [hread] at hsome

theorem recvPhase1_reading {result' : Result} (h : Inv hash m)
    (hdp : m.dispatches d = some dp) (hphase : recvPhase1 hash m dp result region = (result', some e)) :
    ∃ r, m.entries e = some r ∧ r.reading = true := by
  cases result with
  | timedout =>
    rw [recvPhase1] at hphase
    split at hphase
    · cases hphase
    · next l hactive =>
      cases hphase
      obtain ⟨r, hr, -, hread⟩ := (h.active _ _ e hdp).mp (by rw [hactive]; exact .head _)
      exact ⟨r, hr, hread⟩
  | success =>
    obtain ⟨r, hr, hread, -⟩ := (recvPhase1_success h hdp).mp (recvPhase1_some (congrArg Prod.snd hphase))
    exact ⟨r, hr, hread⟩
  | _ => cases hphase

theorem scheduleResp_spec {resp : Option Nat} (result : Result) (h : Inv hash m)
    (hdp : m.dispatches d = some dp) (hread : ∀ e, resp = some e → ∃ r, m.entries e = some r ∧ r.reading = true) :
    ∃ m', scheduleResp m result resp = .ok (m', resp.toList.map fun e => (e, result)) ∧
      Inv hash m' ∧ (∀ e, m'.Owns d e → m.Owns d e) ∧ ∃ dp', m'.dispatches d = some dp' := by
  cases resp with
  | none => exact ⟨m, rfl, h, fun _ => id, dp, hdp⟩
  | some e =>
    obtain ⟨r, hr, hread⟩ := hread e rfl
    obtain ⟨m', hrun, hinv, rfl⟩ := tcpRecvAdd_spec [] result h hr hread
    refine ⟨_, hrun, hinv, fun e' hown => ?_, ?_⟩
    · exact (updateEntry_owns (m := m) (f := ({ · with reading := false })) fun _ => rfl).mp hown
    · exact ⟨_, (updateDispatch_eq_some ..).mpr ⟨dp, hdp, rfl⟩⟩

theorem recvFinish_spec (resps : Scheduled) (result : Result) (now : Nat) (h : Inv hash m)
    (hdp : m.dispatches d = some dp) (hsame : ∀ e, m.Owns d e → m₀.Owns d e) :
    ∃ m' extra, recvFinish d now dp.active result (m, resps) = .ok (m', resps ++ extra) ∧ Inv hash m' ∧
      ∀ x ∈ extra, x.2 ≠ .success ∧ m₀.Owns d x.1 := by
  obtain ⟨s, hexpire, hs, htime⟩ := expire_loop resps now h hdp hsame
  obtain ⟨extra, hextra, hall⟩ := hs.added
  obtain ⟨dp', hdp'⟩ := hs.known
  have hlate : ∀ x ∈ extra, x.2 ≠ .success ∧ m₀.Owns d x.1 := fun x hx =>
    ⟨by rw [(hall x hx).1]; exact nofun, (hall x hx).2⟩
  unfold recvFinish
  simp only [hexpire, bind, Except.bind]
  by_cases hgo : result.goesOn = true
  · obtain ⟨m', hresume, hinv⟩ := resumeReading_spec now hs.inv hdp' htime
    refine ⟨m', extra, ?_, hinv, hlate⟩
    simp only [hgo, if_true, pure, Except.pure, hresume, hextra]
  · obtain ⟨s', hshut, hs', hnone⟩ := shutdown_loop s.2 result hs.inv hdp' hs.same
    obtain ⟨extra', hextra', hall'⟩ := hs'.added
    obtain ⟨dp'', hdp''⟩ := hs'.known
    obtain ⟨m', hresume, hinv⟩ := resumeReading_spec now hs'.inv hdp''
      fun e r hr hd hread => absurd hread (hnone e r hr hd)
    refine ⟨m', extra ++ extra', ?_, hinv, fun x hx => ?_⟩
    · simp only [hgo, Bool.false_eq_true, if_false, pure, Except.pure, hshut, hresume, hextra', ← append_assoc,
        ← hextra]
    · rcases mem_append.mp hx with hx | hx
      · exact hlate x hx
      · refine ⟨?_, (hall' x hx).2⟩
        rw [(hall' x hx).1]
        rintro rfl
        exact hgo rfl

/-- A read calls back the response of its first phase, and responses of its own dispatch with other results. -/
theorem tcpRecv_spec (result : Result) (region : Bytes) (now : Nat) (h : Inv hash m)
    (hdp : m.dispatches d = some dp) (hreading : dp.reading = true) : ∃ m' rest, Inv hash m' ∧
      tcpRecv hash m d result region now = .ok (m', ((recvPhase1 hash m dp result region).2.toList.map fun e =>
        ⟨e, (recvPhase1 hash m dp result region).1, region⟩) ++ rest) ∧
      ∀ cb ∈ rest, cb.result ≠ .success ∧ m.Owns d cb.entry := by
  unfold tcpRecv
  simp only [(dispatch_eq_ok ..).mpr hdp, insist_pos hreading, bind, Except.bind]
  rcases hphase : recvPhase1 hash m dp result region with ⟨result', resp⟩
  obtain ⟨m1, hm1⟩ : ∃ m1, m1 = m.updateDispatch d fun disp => { disp with
    reading := false
    timedout := if result = .timedout ∧ resp.isSome then disp.timedout + 1 else disp.timedout } := ⟨_, rfl⟩
  rw [← hm1]
  have hinv1 : Inv hash m1 := hm1 ▸ h.flags fun dp => ⟨rfl, .refl _, rfl⟩
  have hsame1 : m1.entries = m.entries := hm1 ▸ rfl
  have hdp1 : ∃ dp1, m1.dispatches d = some dp1 := by
    rw [hm1]
    exact ⟨_, (updateDispatch_eq_some ..).mpr ⟨dp, hdp, rfl⟩⟩
  obtain ⟨dp1, hdp1⟩ := hdp1
  have hread : ∀ e, resp = some e → ∃ r, m1.entries e = some r ∧ r.reading = true := by
    rintro e rfl
    rw [hsame1]
    exact recvPhase1_reading h hdp hphase
  obtain ⟨m2, hrun2, hinv2, hsame2, dp2, hdp2⟩ := scheduleResp_spec result' hinv1 hdp1 hread
  simp only [hrun2, (dispatch_eq_ok ..).mpr hdp2]
  have hinv3 : Inv hash (m2.updateDispatch d ({ · with timedout := (recvPhase2 dp2 result').2 })) :=
    hinv2.flags fun dp => ⟨rfl, .refl _, rfl⟩
  have hdp3 : (m2.updateDispatch d ({ · with timedout := (recvPhase2 dp2 result').2 })).dispatches d =
      some { dp2 with timedout := (recvPhase2 dp2 result').2 } := (updateDispatch_eq_some ..).mpr ⟨dp2, hdp2, by simp⟩
  obtain ⟨m4, extra, hrun4, hinv4, hall⟩ := recvFinish_spec (resp.toList.map fun e => (e, result'))
    (recvPhase2 dp2 result').1 now hinv3 hdp3 hsame2
  refine ⟨m4, extra.map fun x => ⟨x.1, x.2, region⟩, hinv4, ?_, fun cb hcb => ?_⟩
  · rw [show recvFinish d now dp2.active _ _ = _ from hrun4]
    simp [pure, Except.pure, Function.comp_def]
  · obtain ⟨x, hx, rfl⟩ := mem_map.mp hcb
    obtain ⟨hne, r, hr, hd⟩ := hall x hx
    exact ⟨hne, r, hsame1 ▸ hr, hd⟩

/-! ### Every step -/

theorem Inv.received (h : Inv hash m) {cbs : List Callback}
    (hrun : tcpRecv hash m d result region now = .ok (m', cbs)) : Inv hash m' := by
  obtain ⟨dp, hdp, hrun'⟩ := bind_ok hrun
  rw [dispatch_eq_ok] at hdp
  obtain ⟨_, hreading, -⟩ := bind_ok hrun'
  obtain ⟨m1, rest, hinv, hspec, -⟩ := tcpRecv_spec result region now h hdp (insist_ok hreading)
  rw [hrun] at hspec
  cases hspec
  exact hinv

theorem Inv.gotNext (h : Inv hash m) (hstate : m.hasState e .connected = true) (hrun : tcpDispatchGetnext m e = .ok m') :
    Inv hash m' := by
  obtain ⟨r, hr, hrun⟩ := bind_ok hrun
  rw [entry_eq_ok] at hr
  have hconnected : r.state = .connected := by simpa [hasState, hr] using hstate
  cases hrun
  refine Inv.flags ?_ fun dp => ⟨rfl, .refl _, rfl⟩
  split_ifs with hread
  · exact h
  · exact h.activate hr ⟨rfl, rfl, rfl, rfl, rfl, Iff.rfl⟩ (by simpa using hread) rfl hconnected ((h.timed e r hr).started (.inr hconnected))
      (fun dp hdp => h.not_pending hr hdp (by simp [hconnected]) (by simp [hconnected])) fun dp => ⟨rfl, rfl, rfl⟩

theorem Inv.cancel (h : Inv hash m) {cbs : List Callback} (hrun : tcpDispentryCancel m e = .ok (m', cbs)) : Inv hash m' := by
  obtain ⟨r, hr, hrun⟩ := bind_ok hrun
  rw [entry_eq_ok] at hr
  split_ifs at hrun with hcanceled hread
  · cases hrun
    exact h
  · obtain ⟨m1, hadd, hinv, hm1⟩ := tcpRecvAdd_spec [] .canceled h hr hread.2
    simp only [hadd, bind, Except.bind] at hrun
    obtain ⟨-, -, hrun⟩ := bind_ok (x := insist .link (e ∈ m1.table r.bucket)) hrun
    cases hrun
    exact hinv.unlink (r := { r with reading := false }) (by rw [hm1]; exact updateEntry_self hr) rfl
  · obtain ⟨-, -, hrun⟩ := bind_ok (x := insist .link (e ∈ m.table r.bucket)) hrun
    cases hrun
    refine h.unlink hr ?_
    by_contra hreading
    have hreading : r.reading = true := by simpa using hreading
    exact hread ⟨(h.timed e r hr).connected hreading, hreading⟩

theorem toOption_some {α : Type} {x : Except Fault α} {a : α} (h : x.toOption = some a) : x = .ok a := by
  cases x with
  | error fault => cases h
  | ok b => exact congrArg Except.ok (Option.some.inj h)

theorem toOption_map {α β : Type} {x : Except Fault α} {f : α → β} {b : β} (h : (x.map f).toOption = some b) :
    ∃ a, x = .ok a ∧ f a = b := by
  cases x with
  | error fault => cases h
  | ok a => exact ⟨a, rfl, Option.some.inj h⟩

theorem Inv.stepped (m : Mgr) (op : Op) (m' : Mgr) (h : Inv hash m) (hstep : step hash m op = some m') : Inv hash m' := by
  cases op with
  | createtcp localaddr destaddr =>
    cases hstep
    exact h.create localaddr destaddr
  | add d timeout dest fixedid id =>
    obtain ⟨res, hrun, rfl⟩ := toOption_map hstep
    exact h.added hrun
  | connect e now =>
    rw [step] at hstep
    split_ifs at hstep with hnone
    exact h.connect hnone.1 hnone.2 (toOption_some hstep)
  | connected d eresult => exact h.connectedAll (toOption_some hstep)
  | recv d result region now =>
    obtain ⟨res, hrun, rfl⟩ := toOption_map hstep
    exact h.received hrun
  | getnext e now =>
    rw [step] at hstep
    split_ifs at hstep with hstate
    obtain ⟨res, hrun, rfl⟩ := toOption_map hstep
    obtain ⟨r, -, hrun⟩ := bind_ok hrun
    split_ifs at hrun
    · cases hrun
      exact h
    · obtain ⟨m1, hnext, hrun⟩ := bind_ok hrun
      cases hrun
      exact h.gotNext hstate hnext
  | resume e =>
    rw [step] at hstep
    split_ifs at hstep with hstate
    obtain ⟨r, -, hrun⟩ := bind_ok (toOption_some hstep)
    obtain ⟨dp, -, hrun⟩ := bind_ok hrun
    obtain ⟨-, -, hrun⟩ := bind_ok hrun
    have hinv : Inv hash (m.updateDispatch r.disp fun disp => { disp with timedout := disp.timedout - 1 }) :=
      h.flags fun dp => ⟨rfl, .refl _, rfl⟩
    exact hinv.gotNext hstate hrun
  | cancel e =>
    obtain ⟨res, hrun, rfl⟩ := toOption_map hstep
    exact h.cancel hrun

/-! ### Answers -/

/-- A message on the connection of the dispatch has gone to the responses of the dispatch that wait for it, and no other
    response was called back. -/
structure Routed (m : Mgr) (d : Nat) (region : Bytes) (cbs : List Callback) : Prop where
  delivered : ∀ e r, m.entries e = some r → r.disp = d → r.reading = true → answerId region = some r.id →
    ⟨e, .success, region⟩ ∈ cbs
  own : ∀ cb ∈ cbs, m.Owns d cb.entry

/-- The responses that wait for the message are those of the dispatch that are for its peer and from no port. -/
def Unambiguous (m : Mgr) (d : Nat) (peer : Sockaddr) (region : Bytes) : Prop :=
  ∀ e r, m.entries e = some r → r.reading = true → answerId region = some r.id →
    (r.disp = d ↔ r.peer = peer ∧ r.port = 0)

theorem tcp_answers_routed (hash : Sockaddr → UInt32) (ops : List Op) :
    Agents.Always (step hash) (fun m => ∀ d dp region now, m.dispatches d = some dp → dp.reading = true →
      ∃ m' cbs, tcpRecv hash m d .success region now = .ok (m', cbs) ∧
        (Routed m d region cbs ↔ Unambiguous m d dp.peer region)) init ops := by
  refine (Agents.Always.of_kept Inv.stepped Inv.init).mono fun m h d dp region now hdp hreading => ?_
  obtain ⟨m', rest, -, hrun, hrest⟩ := tcpRecv_spec .success region now h hdp hreading
  refine ⟨m', _, hrun, ?_⟩
  -- with the message, only the response of the first phase is called back
  have hfirst : ∀ e, (⟨e, .success, region⟩ : Callback) ∈ (((recvPhase1 hash m dp .success region).2.toList.map fun e =>
      ⟨e, (recvPhase1 hash m dp .success region).1, region⟩) ++ rest) ↔
      recvPhase1 hash m dp .success region = (.success, some e) := by
    intro e
    rw [mem_append, or_iff_left fun hin => (hrest _ hin).1 rfl, mem_map]
    constructor
    · rintro ⟨e', he', heq⟩
      obtain ⟨rfl, -, -⟩ := (Callback.mk.injEq ..).mp heq
      exact recvPhase1_some (Option.mem_toList.mp he')
    · intro heq
      rw [heq]
      exact ⟨e, by simp, rfl⟩
  constructor
  · rintro ⟨hdelivered, hown⟩ e r hr hread hid
    constructor
    · intro hd
      obtain ⟨r', hr', -, -, hkey⟩ := (recvPhase1_success h hdp).mp ((hfirst e).mp (hdelivered e r hr hd hread hid))
      rw [hr] at hr'
      cases hr'
      exact hkey
    · intro hkey
      obtain ⟨r', hr', hd⟩ := hown _ ((hfirst e).mpr ((recvPhase1_success h hdp).mpr ⟨r, hr, hread, hid, hkey⟩))
      rw [hr] at hr'
      cases hr'
      exact hd
  · intro hclear
    refine ⟨fun e r hr hd hread hid => ?_, fun cb hcb => ?_⟩
    · exact (hfirst e).mpr ((recvPhase1_success h hdp).mpr ⟨r, hr, hread, hid, (hclear e r hr hread hid).mp hd⟩)
    · rcases mem_append.mp hcb with hcb | hcb
      · obtain ⟨e, he, rfl⟩ := mem_map.mp hcb
        obtain ⟨r, hr, hread, hid, hkey⟩ := (recvPhase1_success h hdp).mp (recvPhase1_some (Option.mem_toList.mp he))
        exact ⟨r, hr, (hclear e r hr hread hid).mpr hkey⟩
      · exact (hrest cb hcb).2

/-- Two connections to one server, from a manager without dispatches: on each there is a query, with the IDs 1 and 2. -/
def twoConnections (server : Sockaddr) (localaddr : Option Sockaddr) : List Op :=
  [.createtcp localaddr server, .createtcp localaddr server,
    .add 0 1000 server true 1, .add 1 1000 server true 2,
    .connect 0 1000, .connect 1 2000, .connected 0 .success, .connected 1 .success]

/-- An answer with the ID 2. -/
def answerTwo : Bytes := [0, 2, 0x80, 0, 0, 0, 0, 0, 0, 0, 0, 0]

/-- The answer on the first connection goes to the query of the second one; from a port of their own, the answer on the
    second connection goes to none. -/
theorem tcp_answers_routed_shared :
    let server : Sockaddr := ⟨[192, 0, 2, 1], 53⟩
    let run := fun localaddr => (twoConnections server localaddr).foldlM (step fun _ => 0) init
    let received := fun localaddr d => (run localaddr).bind fun m =>
      ((tcpRecv (fun _ => 0) m d .success answerTwo 500000).map Prod.snd).toOption
    ((run none).bind fun m => (m.entries 1).map (·.disp)) = some 1 ∧
    received none 0 = some [⟨1, .success, answerTwo⟩] ∧
    received (some ⟨[192, 0, 2, 2], 4000⟩) 1 = some [⟨1, .unexpected, answerTwo⟩] := by
  decide

end

end OqsBind.Dns.TcpDispatch
