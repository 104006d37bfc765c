import OqsBind.Dns.Dispatch

/-! What holds of a dispatch manager: the table has the responses that are not canceled, each under what it is found by and
    no two under the same; the active responses of a dispatch are those that are read for. Here is how each kind of change
    keeps that. -/

namespace OqsBind.Dns.TcpDispatch
open Isc List Function Mgr Option

/-! ### Updates -/

theorem update_eq_some {α : Type} {a : Nat → Option α} {i j : Nat} {x y : α} :
    Function.update a i (some x) j = some y ↔ j = i ∧ y = x ∨ j ≠ i ∧ a j = some y := by
  by_cases h : j = i
  · simp [h, eq_comm]
  · simp [h]

theorem nodup_snoc {l : List Nat} {a : Nat} (h : l.Nodup) (ha : a ∉ l) : (l ++ [a]).Nodup := by
  refine nodup_append.mpr ⟨h, nodup_singleton a, fun x hx y hy heq => ha ?_⟩
  rwa [← mem_singleton.mp hy, ← heq]

namespace Mgr
variable (m : Mgr) (e d : Nat) (f : Dispentry → Dispentry) (g : Dispatch → Dispatch)

theorem updateEntry_eq_some {e' : Nat} {r : Dispentry} :
    (m.updateEntry e f).entries e' = some r ↔ ∃ r0, m.entries e' = some r0 ∧ r = if e' = e then f r0 else r0 := by
  unfold updateEntry
  by_cases h : e' = e
  · subst h
    simp [eq_comm]
  · simp [h]

theorem updateDispatch_eq_some {d' : Nat} {dp : Dispatch} :
    (m.updateDispatch d g).dispatches d' = some dp ↔ ∃ dp0, m.dispatches d' = some dp0 ∧ dp = if d' = d then g dp0 else dp0 := by
  unfold updateDispatch
  by_cases h : d' = d
  · subst h
    simp [eq_comm]
  · simp [h]

theorem entry_eq_ok {r : Dispentry} : m.entry e = .ok r ↔ m.entries e = some r := by
  unfold entry
  cases m.entries e <;> simp

theorem dispatch_eq_ok {r : Dispatch} : m.dispatch d = .ok r ↔ m.dispatches d = some r := by
  unfold dispatch
  cases m.dispatches d <;> simp

theorem updateEntry_entries {r : Dispentry} (he : m.entries e = some r) :
    (m.updateEntry e f).entries = update m.entries e (some (f r)) := by
  rw [updateEntry, he, map_some]

theorem updateDispatch_dispatches {dp : Dispatch} (hd : m.dispatches d = some dp) :
    (m.updateDispatch d g).dispatches = update m.dispatches d (some (g dp)) := by
  rw [updateDispatch, hd, map_some]

theorem updateDispatch_none (hd : m.dispatches d = none) : m.updateDispatch d g = m := by
  rw [updateDispatch, hd, map_none, ← hd, update_eq_self]

end Mgr

/-- What a response is found by, and whether it can be found. -/
structure Dispentry.Keeps (r r' : Dispentry) : Prop where
  disp : r'.disp = r.disp
  bucket : r'.bucket = r.bucket
  peer : r'.peer = r.peer
  port : r'.port = r.port
  id : r'.id = r.id
  canceled : r'.state = .canceled ↔ r.state = .canceled

/-! ### What holds in every manager -/

/-- A response that is read for is connected, and the time has been noted since it began to connect. -/
structure Dispentry.Timed (r : Dispentry) : Prop where
  connected : r.reading = true → r.state = .connected
  started : r.state = .connecting ∨ r.state = .connected → r.start ≠ 0

/-- The table has the responses that are not canceled, and one at most for each peer, ID and port. -/
structure Tabled (hash : Sockaddr → UInt32) (m : Mgr) : Prop where
  linked : ∀ b e, e ∈ m.table b ↔ ∃ r, m.entries e = some r ∧ r.state ≠ .canceled ∧ r.bucket = b
  linkedOnce : ∀ b, (m.table b).Nodup
  hashed : ∀ e r, m.entries e = some r → r.bucket = dnsHash hash r.peer r.id r.port
  unique : ∀ e e' r r', m.entries e = some r → m.entries e' = some r' → r.state ≠ .canceled → r'.state ≠ .canceled →
    r.id = r'.id → r.peer = r'.peer → r.port = r'.port → e = e'
  freshEntry : ∀ e, m.nentries ≤ e → m.entries e = none

/-- The active responses of a dispatch are those that are read for; no dispatch has a port in `localport`. -/
structure Listed (m : Mgr) : Prop where
  owner : ∀ e r, m.entries e = some r → ∃ dp, m.dispatches r.disp = some dp
  active : ∀ d dp e, m.dispatches d = some dp → (e ∈ dp.active ↔ ∃ r, m.entries e = some r ∧ r.disp = d ∧ r.reading = true)
  activeOnce : ∀ d dp, m.dispatches d = some dp → dp.active.Nodup
  timed : ∀ e r, m.entries e = some r → r.Timed
  pending : ∀ d dp e, m.dispatches d = some dp → e ∈ dp.pending →
    ∃ r, m.entries e = some r ∧ r.disp = d ∧ (r.state = .connecting ∨ r.state = .canceled)
  pendingOnce : ∀ d dp, m.dispatches d = some dp → dp.pending.Nodup
  localport : ∀ d dp, m.dispatches d = some dp → dp.localport = 0
  freshDispatch : ∀ d, m.ndispatches ≤ d → m.dispatches d = none

structure Inv (hash : Sockaddr → UInt32) (m : Mgr) : Prop extends Tabled hash m, Listed m

section
variable {hash : Sockaddr → UInt32} {m m' : Mgr} {d e : Nat} {r : Dispentry} {f : Dispentry → Dispentry}
  {g : Dispatch → Dispatch}

theorem Inv.init : Inv hash Mgr.init := by
  constructor <;> constructor <;> simp [Mgr.init]

variable {r' : Dispentry} {dp dp' : Dispatch} {entries : Nat → Option Dispentry}

theorem Tabled.lt (h : Tabled hash m) (he : m.entries e = some r) : e < m.nentries := by
  by_contra hle
  rw [h.freshEntry e (not_lt.mp hle)] at he
  cases he

/-- A response comes or changes, and with it the bucket that is to have it. -/
theorem Tabled.set {l : List Nat} (h : Tabled hash m) (hentries : m'.entries = Function.update m.entries e (some r'))
    (hn : m.nentries ≤ m'.nentries) (he : e < m'.nentries) (htable : m'.table = Function.update m.table r'.bucket l)
    (honce : l.Nodup) (hlinked : ∀ e', e' ∈ l ↔ if e' = e then r'.state ≠ .canceled else e' ∈ m.table r'.bucket)
    (hold : ∀ r, m.entries e = some r → r.bucket = r'.bucket) (hhash : r'.bucket = dnsHash hash r'.peer r'.id r'.port)
    (hnew : ∀ e1 r1, m.entries e1 = some r1 → r1.state ≠ .canceled → r'.state ≠ .canceled → r1.id = r'.id →
      r1.peer = r'.peer → r1.port = r'.port → e1 = e) : Tabled hash m' where
  linked b e' := by
    rw [hentries, htable]
    by_cases heq : e' = e <;> by_cases hb : b = r'.bucket
    · simp [heq, hb, hlinked]
    · rw [heq, update_self, update_of_ne hb, h.linked]
      refine iff_of_false ?_ (by simp [Ne.symm hb])
      rintro ⟨r, hr, -, hb'⟩
      exact hb (hb'.symm.trans (hold r hr))
    · rw [hb, update_self, hlinked, if_neg heq, update_of_ne heq]
      exact h.linked _ e'
    · rw [update_of_ne heq, update_of_ne hb]
      exact h.linked b e'
  linkedOnce b := by
    rw [htable]
    by_cases hb : b = r'.bucket
    · rwa [hb, update_self]
    · rw [update_of_ne hb]
      exact h.linkedOnce b
  hashed e' r hr := by
    rcases update_eq_some.mp (hentries ▸ hr) with ⟨-, rfl⟩ | ⟨-, hr⟩
    · exact hhash
    · exact h.hashed e' r hr
  unique e1 e2 r1 r2 hr1 hr2 hs1 hs2 hid hpeer hport := by
    rcases update_eq_some.mp (hentries ▸ hr1) with ⟨h1, rfl⟩ | ⟨-, hr1⟩ <;>
      rcases update_eq_some.mp (hentries ▸ hr2) with ⟨h2, rfl⟩ | ⟨-, hr2⟩
    · exact h1.trans h2.symm
    · exact h1.trans (hnew e2 r2 hr2 hs2 hs1 hid.symm hpeer.symm hport.symm).symm
    · exact (hnew e1 r1 hr1 hs1 hs2 hid hpeer hport).trans h2.symm
    · exact h.unique _ _ _ _ hr1 hr2 hs1 hs2 hid hpeer hport
  freshEntry e' hle := by
    rw [hentries, update_of_ne (he.trans_le hle).ne']
    exact h.freshEntry e' (hn.trans hle)

theorem Tabled.updateEntry (h : Tabled hash m) (he : m.entries e = some r) (hk : r.Keeps (f r)) :
    Tabled hash (m.updateEntry e f) := by
  refine h.set (m.updateEntry_entries e f he) le_rfl (h.lt he) (update_eq_self ..).symm (h.linkedOnce _) (fun e' => ?_)
    (fun r0 hr0 => ?_) ?_ fun e1 r1 hr1 hs1 hs hid hpeer hport => ?_
  · split_ifs with heq
    · rw [heq, hk.bucket, ne_eq, hk.canceled]
      exact (h.linked _ e).trans (by simp [he])
    · rfl
  · cases he.symm.trans hr0
    exact hk.bucket.symm
  · rw [hk.bucket, hk.peer, hk.id, hk.port]
    exact h.hashed e r he
  · exact h.unique e1 e r1 r hr1 he hs1 (mt hk.canceled.mpr hs) (hid.trans hk.id) (hpeer.trans hk.peer) (hport.trans hk.port)

theorem Mgr.updateEntry_self (he : m.entries e = some r) : (m.updateEntry e f).entries e = some (f r) :=
  (m.updateEntry_eq_some e f).mpr ⟨r, he, by simp⟩

theorem Listed.active_iff (h : Listed m) (he : m.entries e = some r) (hd : m.dispatches r.disp = some dp) :
    e ∈ dp.active ↔ r.reading = true := by
  rw [h.active _ _ _ hd]
  constructor
  · rintro ⟨r', he', -, hr⟩
    rw [he] at he'
    rwa [some.inj he']
  · exact fun hr => ⟨r, he, rfl, hr⟩

/-- What `Listed` says of the lists of a dispatch. -/
structure Lists (entries : Nat → Option Dispentry) (d : Nat) (dp : Dispatch) : Prop where
  active : ∀ e, e ∈ dp.active ↔ ∃ r, entries e = some r ∧ r.disp = d ∧ r.reading = true
  activeOnce : dp.active.Nodup
  pending : ∀ e ∈ dp.pending, ∃ r, entries e = some r ∧ r.disp = d ∧ (r.state = .connecting ∨ r.state = .canceled)
  pendingOnce : dp.pending.Nodup
  localport : dp.localport = 0

theorem Listed.lists (h : Listed m) (hd : m.dispatches d = some dp) : Lists m.entries d dp :=
  ⟨fun e => h.active d dp e hd, h.activeOnce d dp hd, fun e => h.pending d dp e hd, h.pendingOnce d dp hd,
    h.localport d dp hd⟩

/-- The lists of a dispatch after a change of one of its responses. -/
structure Fits (e : Nat) (r' : Dispentry) (dp dp' : Dispatch) : Prop where
  activeOnce : dp'.active.Nodup
  active : ∀ e', e' ∈ dp'.active ↔ if e' = e then r'.reading = true else e' ∈ dp.active
  pendingOnce : dp'.pending.Nodup
  pending : ∀ e' ∈ dp'.pending, if e' = e then r'.state = .connecting ∨ r'.state = .canceled else e' ∈ dp.pending
  localport : dp'.localport = dp.localport

theorem Lists.set (h : Lists entries r'.disp dp) (hfits : Fits e r' dp dp') :
    Lists (Function.update entries e (some r')) r'.disp dp' where
  active e' := by
    rw [hfits.active]
    split_ifs with heq
    · simp [heq]
    · rw [update_of_ne heq]
      exact h.active e'
  activeOnce := hfits.activeOnce
  pending e' he' := by
    have hcase := hfits.pending e' he'
    split_ifs at hcase with heq
    · exact ⟨r', heq ▸ update_self .., rfl, hcase⟩
    · rw [update_of_ne heq]
      exact h.pending e' hcase
  pendingOnce := hfits.pendingOnce
  localport := hfits.localport.trans h.localport

theorem Lists.other (h : Lists entries d dp) (hne : r'.disp ≠ d) (hold : ∀ r, entries e = some r → r.disp ≠ d) :
    Lists (Function.update entries e (some r')) d dp := by
  have hsame : ∀ (P : Dispentry → Prop) e', (∃ r, Function.update entries e (some r') e' = some r ∧ r.disp = d ∧ P r) ↔
      ∃ r, entries e' = some r ∧ r.disp = d ∧ P r := by
    intro P e'
    by_cases heq : e' = e
    · rw [heq, update_self]
      constructor
      · rintro ⟨_, ⟨⟩, hd, -⟩
        exact absurd hd hne
      · rintro ⟨r, hr, hd, -⟩
        exact absurd hd (hold r hr)
    · rw [update_of_ne heq]
  exact { h with
    active := fun e' => (h.active e').trans (hsame _ e').symm
    pending := fun e' he' => (hsame _ e').mpr (h.pending e' he') }

theorem listed_of_lists (howner : ∀ e r, m.entries e = some r → ∃ dp, m.dispatches r.disp = some dp)
    (htimed : ∀ e r, m.entries e = some r → r.Timed)
    (hlists : ∀ d dp, m.dispatches d = some dp → Lists m.entries d dp)
    (hfresh : ∀ d, m.ndispatches ≤ d → m.dispatches d = none) : Listed m where
  owner := howner
  active d dp e hd := (hlists d dp hd).active e
  activeOnce d dp hd := (hlists d dp hd).activeOnce
  timed := htimed
  pending d dp e hd := (hlists d dp hd).pending e
  pendingOnce d dp hd := (hlists d dp hd).pendingOnce
  localport d dp hd := (hlists d dp hd).localport
  freshDispatch := hfresh

theorem Listed.lt (h : Listed m) (hd : m.dispatches d = some dp) : d < m.ndispatches := by
  by_contra hle
  rw [h.freshDispatch d (not_lt.mp hle)] at hd
  cases hd

/-- A dispatch comes or changes. -/
theorem Listed.setDispatch (h : Listed m) (hentries : m'.entries = m.entries)
    (hdispatches : m'.dispatches = Function.update m.dispatches d (some dp')) (hn : m.ndispatches ≤ m'.ndispatches)
    (hd : d < m'.ndispatches) (hlists : Lists m.entries d dp') : Listed m' := by
  refine listed_of_lists (fun e r hr => ?_) (hentries ▸ h.timed) (fun d' dp1 hdp => ?_) fun d' hle => ?_
  · obtain ⟨dp, hdp⟩ := h.owner e r (hentries ▸ hr)
    by_cases heq : r.disp = d
    · exact ⟨dp', by rw [hdispatches, heq, update_self]⟩
    · exact ⟨dp, by rw [hdispatches, update_of_ne heq, hdp]⟩
  · rw [hentries]
    rcases update_eq_some.mp (hdispatches ▸ hdp) with ⟨rfl, rfl⟩ | ⟨-, hdp⟩
    · exact hlists
    · exact h.lists hdp
  · rw [hdispatches, update_of_ne (hd.trans_le hle).ne']
    exact h.freshDispatch d' (hn.trans hle)

/-- A response comes or changes, and with it the lists of its dispatch. -/
theorem Listed.set (h : Listed m) (hentries : m'.entries = Function.update m.entries e (some r'))
    (hd : m.dispatches r'.disp = some dp) (hdispatches : m'.dispatches = Function.update m.dispatches r'.disp (some dp'))
    (hn : m'.ndispatches = m.ndispatches) (hold : ∀ r, m.entries e = some r → r.disp = r'.disp)
    (htimed : r'.Timed) (hfits : Fits e r' dp dp') : Listed m' := by
  refine listed_of_lists (fun e' r hr => ?_) (fun e' r hr => ?_) (fun d dp1 hdp => ?_) fun d hle => ?_
  · have hdp : ∃ dp, m.dispatches r.disp = some dp := by
      rcases update_eq_some.mp (hentries ▸ hr) with ⟨-, rfl⟩ | ⟨-, hr⟩
      · exact ⟨dp, hd⟩
      · exact h.owner e' r hr
    by_cases heq : r.disp = r'.disp
    · exact ⟨dp', by rw [hdispatches, heq, update_self]⟩
    · rwa [hdispatches, update_of_ne heq]
  · rcases update_eq_some.mp (hentries ▸ hr) with ⟨-, rfl⟩ | ⟨-, hr⟩
    · exact htimed
    · exact h.timed e' r hr
  · rw [hentries]
    rcases update_eq_some.mp (hdispatches ▸ hdp) with ⟨rfl, rfl⟩ | ⟨hne, hdp⟩
    · exact (h.lists hd).set hfits
    · exact (h.lists hdp).other hne.symm fun r hr => (hold r hr).symm ▸ hne.symm
  · have hfresh := h.freshDispatch d (hn ▸ hle)
    have hne : d ≠ r'.disp := by
      rintro rfl
      exact nomatch hd.symm.trans hfresh
    rw [hdispatches, update_of_ne hne, hfresh]

theorem Inv.update (h : Inv hash m) (he : m.entries e = some r) (hk : r.Keeps (f r))
    (htimed : (f r).Timed)
    (hfits : ∀ dp, m.dispatches r.disp = some dp → Fits e (f r) dp (g dp)) :
    Inv hash ((m.updateEntry e f).updateDispatch r.disp g) where
  toTabled := { h.toTabled.updateEntry he hk with }
  toListed := by
    obtain ⟨dp, hdp⟩ := h.owner e r he
    have hset : ((m.updateEntry e f).updateDispatch r.disp g).dispatches =
        Function.update m.dispatches (f r).disp (some (g dp)) := by
      rw [hk.disp]
      exact updateDispatch_dispatches _ _ _ hdp
    refine h.toListed.set (m.updateEntry_entries e f he) (hk.disp ▸ hdp) hset rfl (fun r0 hr0 => ?_) htimed (hfits dp hdp)
    cases he.symm.trans hr0
    exact hk.disp.symm

theorem Inv.flags (h : Inv hash m) (hg : ∀ dp, (g dp).active = dp.active ∧ (g dp).pending.Sublist dp.pending ∧
    (g dp).localport = dp.localport) : Inv hash (m.updateDispatch d g) := by
  cases hd : m.dispatches d with
  | none => rwa [updateDispatch_none _ _ _ hd]
  | some dp =>
    obtain ⟨ha, hp, hl⟩ := hg dp
    have hold := h.lists hd
    exact ⟨{ h.toTabled with }, h.toListed.setDispatch rfl (updateDispatch_dispatches _ _ _ hd) le_rfl (h.toListed.lt hd)
      ⟨ha ▸ hold.active, ha ▸ hold.activeOnce, fun e he => hold.pending e (hp.subset he), hold.pendingOnce.sublist hp,
        hl.trans hold.localport⟩⟩

theorem fits_same (h : Listed m) (hd : m.dispatches d = some dp) (hactive : e ∈ dp.active ↔ r'.reading = true)
    (hpending : e ∈ dp.pending → r'.state = .connecting ∨ r'.state = .canceled) : Fits e r' dp dp where
  activeOnce := h.activeOnce d dp hd
  active e' := by
    split_ifs with heq
    · rw [heq, hactive]
    · rfl
  pendingOnce := h.pendingOnce d dp hd
  pending e' he' := by
    split_ifs with heq
    · exact hpending (heq ▸ he')
    · exact he'
  localport := rfl

theorem Mgr.updateDispatch_id : m.updateDispatch d id = m := by
  simp [updateDispatch]

theorem Inv.entry (h : Inv hash m) (he : m.entries e = some r) (hk : r.Keeps (f r)) (hreading : (f r).reading = r.reading)
    (htimed : (f r).Timed)
    (hpending : ∀ dp, m.dispatches r.disp = some dp → e ∈ dp.pending →
      (f r).state = .connecting ∨ (f r).state = .canceled) : Inv hash (m.updateEntry e f) := by
  have hall := h.update (g := id) he hk htimed fun dp hdp =>
    fits_same h.toListed hdp (hreading ▸ h.active_iff he hdp) (hpending dp hdp)
  rwa [updateDispatch_id] at hall

theorem Listed.pending_state (h : Listed m) (he : m.entries e = some r) (hd : m.dispatches d = some dp)
    (hp : e ∈ dp.pending) : r.state = .connecting ∨ r.state = .canceled := by
  obtain ⟨r', hr', -, hstate⟩ := h.pending _ _ _ hd hp
  rw [he] at hr'
  rwa [some.inj hr']

theorem Listed.not_pending (h : Listed m) (he : m.entries e = some r) (hd : m.dispatches d = some dp)
    (hnot : r.state ≠ .connecting) (hlive : r.state ≠ .canceled) : e ∉ dp.pending :=
  fun hin => (h.pending_state he hd hin).elim hnot hlive

theorem Listed.not_reading (h : Listed m) (he : m.entries e = some r) (hnot : r.state ≠ .connected) : r.reading = false :=
  Bool.eq_false_iff.mpr (mt (h.timed e r he).connected hnot)

section
variable (h : Inv hash m) (he : m.entries e = some r)
include h he

theorem Inv.deactivate : Inv hash ((m.updateDispatch r.disp fun dp => { dp with active := dp.active.erase e }).updateEntry e
      ({ · with reading := false })) := by
  refine h.update he ⟨rfl, rfl, rfl, rfl, rfl, Iff.rfl⟩ ⟨nofun, (h.timed e r he).started⟩ fun dp hdp => ?_
  have honce := h.activeOnce _ _ hdp
  have hpend := h.pendingOnce _ _ hdp
  refine ⟨honce.erase e, fun e' => ?_, hpend, fun e' he' => ?_, rfl⟩
  · rw [honce.mem_erase_iff]
    split_ifs with heq
    · simp [heq]
    · exact and_iff_right heq
  · have hstate := h.pending_state he hdp
    split_ifs with heq
    · exact hstate (heq ▸ he')
    · exact he'

theorem Inv.activate (hk : r.Keeps (f r)) (hnot : r.reading = false)
    (hreading : (f r).reading = true) (hstate : (f r).state = .connected) (hstart : (f r).start ≠ 0)
    (hpending : ∀ dp, m.dispatches r.disp = some dp → e ∉ dp.pending)
    (hg : ∀ dp, (g dp).active = dp.active ++ [e] ∧ (g dp).pending = dp.pending ∧ (g dp).localport = dp.localport) :
    Inv hash ((m.updateEntry e f).updateDispatch r.disp g) := by
  refine h.update he hk ⟨fun _ => hstate, fun _ => hstart⟩ fun dp hdp => ?_
  obtain ⟨ha, hp, hl⟩ := hg dp
  have hout : e ∉ dp.active := fun hin => nomatch hnot.symm.trans ((h.active_iff he hdp).mp hin)
  refine ⟨?_, fun e' => ?_, hp ▸ h.pendingOnce _ _ hdp, fun e' he' => ?_, hl⟩
  · rw [ha]
    exact nodup_snoc (h.activeOnce _ _ hdp) hout
  · rw [ha, mem_append, mem_singleton]
    split_ifs with heq
    · exact iff_of_true (.inr heq) hreading
    · exact or_iff_left heq
  · rw [hp] at he'
    split_ifs with heq
    · exact absurd (heq ▸ he') (hpending dp hdp)
    · exact he'

theorem Inv.pend (hk : r.Keeps (f r)) (hnone : r.state = .none)
    (hreading : (f r).reading = r.reading) (hstate : (f r).state = .connecting) (hstart : (f r).start ≠ 0)
    (hg : ∀ dp, (g dp).active = dp.active ∧ (g dp).pending = dp.pending ++ [e] ∧ (g dp).localport = dp.localport) :
    Inv hash ((m.updateEntry e f).updateDispatch r.disp g) := by
  have hnot : (f r).reading = false := hreading.trans (h.not_reading he (by simp [hnone]))
  refine h.update he hk ⟨fun hr => absurd hr (Bool.eq_false_iff.mp hnot), fun _ => hstart⟩ fun dp hdp => ?_
  obtain ⟨ha, hp, hl⟩ := hg dp
  have hout := h.not_pending he hdp (by simp [hnone]) (by simp [hnone])
  refine ⟨ha ▸ h.activeOnce _ _ hdp, fun e' => ?_, ?_, fun e' he' => ?_, hl⟩
  · rw [ha]
    split_ifs with heq
    · rw [heq, hreading]
      exact h.active_iff he hdp
    · rfl
  · rw [hp]
    exact nodup_snoc (h.pendingOnce _ _ hdp) hout
  · rw [hp, mem_append, mem_singleton] at he'
    split_ifs with heq
    · exact .inl hstate
    · exact he'.resolve_right heq

end

/-! ### Searching the table -/

theorem Tabled.search (h : Tabled hash m) {dest : Sockaddr} {id port : UInt16} :
    entrySearch m dest id port (dnsHash hash dest id port) = some e ↔
      ∃ r, m.entries e = some r ∧ r.state ≠ .canceled ∧ r.id = id ∧ r.peer = dest ∧ r.port = port := by
  have hmatch : ∀ {e}, (m.entries e).any (Dispentry.isFor dest id port) = true ↔
      ∃ r, m.entries e = some r ∧ r.id = id ∧ r.peer = dest ∧ r.port = port := by
    intro e
    rw [Option.any_eq_true]
    refine exists_congr fun r => and_congr_right fun _ => ?_
    simp [Dispentry.isFor, and_assoc, eq_comm (a := dest)]
  have hfound : ∀ {e}, entrySearch m dest id port (dnsHash hash dest id port) = some e →
      ∃ r, m.entries e = some r ∧ r.state ≠ .canceled ∧ r.id = id ∧ r.peer = dest ∧ r.port = port := by
    intro e hsearch
    obtain ⟨r, hr, hlive, -⟩ := (h.linked _ e).mp (mem_of_find?_eq_some hsearch)
    have hany := find?_some (p := fun e => (m.entries e).any (Dispentry.isFor dest id port)) hsearch
    obtain ⟨r', hr', hkey⟩ := hmatch.mp hany
    rw [hr] at hr'
    cases hr'
    exact ⟨r, hr, hlive, hkey⟩
  refine ⟨hfound, ?_⟩
  rintro ⟨r, hr, hlive, hid, hpeer, hport⟩
  have hin : e ∈ m.table (dnsHash hash dest id port) := by
    refine (h.linked _ e).mpr ⟨r, hr, hlive, ?_⟩
    rw [h.hashed e r hr, hid, hpeer, hport]
  obtain ⟨e', he'⟩ : ∃ e', entrySearch m dest id port (dnsHash hash dest id port) = some e' :=
    isSome_iff_exists.mp (find?_isSome.mpr ⟨e, hin, hmatch.mpr ⟨r, hr, hid, hpeer, hport⟩⟩)
  obtain ⟨r', hr', hlive', hid', hpeer', hport'⟩ := hfound he'
  rw [he', h.unique e e' r r' hr hr' hlive hlive' (hid.trans hid'.symm) (hpeer.trans hpeer'.symm) (hport.trans hport'.symm)]

theorem Tabled.search_none (h : Tabled hash m) {dest : Sockaddr} {id port : UInt16}
    (hnone : entrySearch m dest id port (dnsHash hash dest id port) = none) (he : m.entries e = some r)
    (hlive : r.state ≠ .canceled) : ¬ (r.id = id ∧ r.peer = dest ∧ r.port = port) := by
  intro hkey
  rw [h.search.mpr ⟨r, he, hlive, hkey⟩] at hnone
  cases hnone

theorem chooseId_spec {dest : Sockaddr} {port : UInt16} {fixedid : Bool} :
    ∀ {tries : Nat} {id id' : UInt16}, chooseId hash m dest port fixedid tries id = some id' →
      entrySearch m dest id' port (dnsHash hash dest id' port) = none
  | tries + 1, id, id', h => by
    rw [chooseId] at h
    split at h
    · next hnone =>
      cases h
      exact hnone
    · split_ifs at h
      exact chooseId_spec h

/-! ### Responses come and go -/

theorem Inv.create (h : Inv hash m) (localaddr : Option Sockaddr) (destaddr : Sockaddr) :
    Inv hash (createtcp m localaddr destaddr) where
  toTabled := { h.toTabled with }
  toListed := by
    refine h.toListed.setDispatch rfl rfl (Nat.le_succ _) (Nat.lt_succ_self _)
      ⟨fun e => iff_of_false not_mem_nil ?_, nodup_nil, nofun, nodup_nil, rfl⟩
    rintro ⟨r, hr, hd, -⟩
    obtain ⟨dp, hdp⟩ := h.owner e r hr
    exact (h.toListed.lt hdp).ne hd

theorem Inv.link (h : Inv hash m) (hd : m.dispatches r.disp = some dp) (hstate : r.state = .none)
    (hreading : r.reading = false) (hbucket : r.bucket = dnsHash hash r.peer r.id r.port)
    (hnew : entrySearch m r.peer r.id r.port (dnsHash hash r.peer r.id r.port) = none) :
    Inv hash { m with
      entries := Function.update m.entries m.nentries (some r)
      nentries := m.nentries + 1
      table := Function.update m.table r.bucket (m.table r.bucket ++ [m.nentries]) } := by
  have hfresh := h.freshEntry _ le_rfl
  have hlive : r.state ≠ .canceled := by
    rw [hstate]
    decide
  have hout : m.nentries ∉ m.table r.bucket := fun hin => by
    obtain ⟨r', hr', -⟩ := (h.linked _ _).mp hin
    exact nomatch hfresh.symm.trans hr'
  constructor
  · refine h.toTabled.set rfl (Nat.le_succ _) (Nat.lt_succ_self _) rfl (nodup_snoc (h.linkedOnce _) hout) (fun e => ?_)
      (fun _ hr => nomatch hfresh.symm.trans hr) hbucket
      fun e1 r1 hr1 hs1 _ hid hpeer hport => (h.search_none hnew hr1 hs1 ⟨hid, hpeer, hport⟩).elim
    rw [mem_append, mem_singleton]
    split_ifs with heq
    · exact iff_of_true (.inr heq) hlive
    · exact or_iff_left heq
  · refine h.toListed.set rfl hd (by rw [← hd, Function.update_eq_self]) rfl (fun _ hr => nomatch hfresh.symm.trans hr)
      ⟨fun hr => absurd hr (Bool.eq_false_iff.mp hreading), by simp [hstate]⟩ (fits_same h.toListed hd (iff_of_false ?_ ?_) fun hin => ?_)
    · rw [h.active _ _ _ hd, hfresh]
      exact nofun
    · simp [hreading]
    · obtain ⟨r', hr', -⟩ := h.pending _ _ _ hd hin
      exact nomatch hfresh.symm.trans hr'

theorem Inv.unlink (h : Inv hash m) (he : m.entries e = some r) (hreading : r.reading = false) :
    Inv hash (({ m with table := Function.update m.table r.bucket ((m.table r.bucket).erase e) } : Mgr).updateEntry e
      ({ · with state := .canceled })) := by
  have hentries := m.updateEntry_entries e ({ · with state := .canceled }) he
  obtain ⟨dp, hd⟩ := h.owner e r he
  constructor
  · refine h.toTabled.set hentries le_rfl (h.toTabled.lt he) rfl ((h.linkedOnce _).erase e) (fun e' => ?_) (fun r0 hr0 => ?_)
      (h.hashed e r he) fun _ _ _ _ hs => absurd rfl hs
    · rw [(h.linkedOnce _).mem_erase_iff]
      split_ifs with heq
      · simp [heq]
      · exact and_iff_right heq
    · cases he.symm.trans hr0
      rfl
  · refine h.toListed.set hentries hd ?_ rfl (fun r0 hr0 => ?_) ⟨fun hr => absurd hr (Bool.eq_false_iff.mp hreading), by simp⟩
      (fits_same h.toListed hd (show _ ↔ r.reading = true from h.active_iff he hd) fun _ => .inr rfl)
    · show m.dispatches = _
      rw [← hd, update_eq_self]
    · cases he.symm.trans hr0
      rfl

end

end OqsBind.Dns.TcpDispatch
