import OqsBind.Isc.Rwlock
import OqsBind.Lib.Agents
import Mathlib.Order.Nat
import Mathlib.Tactic.ByContra

/-! Mutual exclusion by a reader-writer lock. A writer has the flag and has seen that nobody is there; who arrives later sees
    the flag and goes. The counters of arrivals and departures are compared one after the other, so this needs that they do
    not go all the way round in between. -/

namespace OqsBind.Isc.Rwlock
open Agents List

/-- The thread has set `writers_lock`. -/
def owner : Thread → Nat
  | .upDepart | .loadEgress _ | .loadIngress _ _ | .upArrive | .upRelease | .tryRelease | .writing | .wrUnlock | .dgArrive
  | .dgRelease => 1
  | _ => 0

/-- The thread has arrived and has not departed. -/
def present : Thread → Nat
  | .rdCheck _ _ | .rdDepart _ _ | .rdLower | .tryCheck | .tryDepart | .reading | .rdUnlock | .barrier .tryupgrade
  | .acquire .tryupgrade | .upDepart | .upRelease | .dgRelease => 1
  | _ => 0

/-- The thread has seen, after its arrival, that there is no writer, and has not tried to become one. -/
def settled : Thread → Nat
  | .rdLower | .reading | .rdUnlock | .barrier .tryupgrade | .acquire .tryupgrade => 1
  | _ => 0

/-- The thread has the lock for writing. -/
def exclusive : Thread → Nat
  | .writing | .wrUnlock | .dgArrive => 1
  | _ => 0

/-- The thread has raised the barrier and has not lowered it. -/
def raising : Thread → Nat
  | .rdArrive _ true | .rdCheck _ true | .rdDepart _ true | .rdWait _ true | .rdLower => 1
  | _ => 0

theorem settled_le_present (c : Thread) : settled c ≤ present c := by
  cases c with
  | barrier w | acquire w => cases w <;> simp [settled, present]
  | _ => simp [settled, present]

structure Inv (s : State) : Prop where
  lock : total owner s.threads = s.lock.toNat
  count : s.ingress = s.egress + total present s.threads
  barrier : s.barrier = total raising s.threads
  safe : 0 < total exclusive s.threads → total settled s.threads = 0
  loaded : ∀ w e, .loadIngress w e ∈ s.threads → e ≤ s.egress
  failed : s.failed = false

theorem inv_init (n : Nat) : Inv (.init n) := by
  have hzero : ∀ f : Thread → Nat, f .idle = 0 → total f (State.init n).threads = 0 := by
    intro f hf
    simp [State.init, total, hf]
  refine ⟨hzero owner rfl, ?_, ?_, fun _ => hzero settled rfl, fun w e he => ?_, rfl⟩
  · rw [hzero present rfl]
    rfl
  · rw [hzero raising rfl]
    rfl
  · cases (mem_replicate.mp he).2

variable {width : Nat} {s s' : State} {t : Nat} {c : Thread}

theorem Inv.owner_eq_one (h : Inv s) (hc : s.threads[t]? = some c) (howner : owner c = 1) : s.lock = true := by
  have hle : owner c ≤ total owner s.threads := le_total (mem_of_getElem? hc)
  rw [h.lock, howner] at hle
  cases hlock : s.lock with
  | true => rfl
  | false =>
    rw [hlock] at hle
    cases hle

/-- Thread `t` moves from `c` to `d`. Nobody gets the lock in this step, or nobody has the flag after it, or nobody is
    there. -/
theorem Inv.move (h : Inv s) (hc : s.threads[t]? = some c) (d : Thread) (hthreads : s'.threads = s.threads.set t d)
    (hlock : owner d + s.lock.toNat = owner c + s'.lock.toNat)
    (hcount : s'.ingress + s.egress + present c = s.ingress + s'.egress + present d) (hegress : s.egress ≤ s'.egress)
    (hbarrier : s'.barrier + raising c = s.barrier + raising d)
    (hsafe : (exclusive d ≤ exclusive c ∧ settled d ≤ settled c) ∨ s'.lock = false ∨ s'.ingress ≤ s'.egress)
    (hloaded : ∀ w e, d = .loadIngress w e → e ≤ s'.egress) (hfailed : s'.failed = false) : Inv s' := by
  have howner : total owner s'.threads = s'.lock.toNat := by
    have hset := total_set owner d hc
    rw [h.lock, ← hthreads] at hset
    omega
  have hpresent : s'.ingress = s'.egress + total present s'.threads := by
    have hset := total_set present d hc
    have hold := h.count
    rw [← hthreads] at hset
    omega
  refine ⟨howner, hpresent, ?_, ?_, ?_, hfailed⟩
  · have hset := total_set raising d hc
    have hold := h.barrier
    rw [← hthreads] at hset
    omega
  · intro hpos
    rcases hsafe with ⟨hexclusive, hsettled⟩ | hfree | hnobody
    · have hset := total_set exclusive d hc
      have hset' := total_set settled d hc
      rw [← hthreads] at hset hset'
      have hold := h.safe (by omega)
      omega
    · have hle : total exclusive s'.threads ≤ total owner s'.threads := 
        total_le_total fun c => by cases c <;> simp [exclusive, owner]
      rw [howner, hfree] at hle
      exact absurd hpos (Nat.not_lt.mpr hle)
    · have hle : total settled s'.threads ≤ total present s'.threads := total_le_total settled_le_present
      omega
  · intro w e he
    rw [hthreads] at he
    rcases mem_or_eq_of_mem_set he with hmem | heq
    · exact (h.loaded w e hmem).trans hegress
    · exact hloaded w e heq.symm

/-- At the second load of `read_indicator_isempty`, fewer arrivals than the counter can tell apart have been added to the
    departures of the first load. -/
def NoWrap (width : Nat) (s : State) : Op → Prop
  | .run t => ∀ w e, s.threads[t]? = some (.loadIngress w e) → s.ingress < e + 2 ^ width
  | _ => True

section
variable (h : Inv s)
include h

theorem Inv.nobody {w : Writer} {e : Nat} (hc : s.threads[t]? = some (.loadIngress w e))
    (hwrap : s.ingress < e + 2 ^ width) (heq : e % 2 ^ width = s.ingress % 2 ^ width) : s.ingress ≤ s.egress := by
  have he := h.loaded w e (mem_of_getElem? hc)
  have hdvd : 2 ^ width ∣ s.ingress - e := Nat.dvd_of_mod_eq_zero (Nat.sub_mod_eq_zero_of_mod_eq heq.symm)
  have hzero : s.ingress - e = 0 := Nat.eq_zero_of_dvd_of_lt hdvd (by omega)
  omega

section
variable (hc : s.threads[t]? = some c) (d : Thread) (howner : owner d = owner c)
include hc d howner

theorem Inv.goto
    (hpresent : present d = present c) (hraising : raising d = raising c)
    (hsafe : (exclusive d ≤ exclusive c ∧ settled d ≤ settled c) ∨ s.lock = false ∨ s.ingress ≤ s.egress)
    (hloaded : ∀ w e, d = .loadIngress w e → e ≤ s.egress) : Inv (s.goto t d) :=
  h.move hc d rfl (by rw [howner]; rfl) (by rw [hpresent]; rfl) le_rfl (by rw [hraising]; rfl) hsafe hloaded h.failed

theorem Inv.arrive
    (hpresent : present d = present c + 1) (hraising : raising d = raising c)
    (hsafe : exclusive d ≤ exclusive c ∧ settled d ≤ settled c) (hloaded : ∀ w e, d ≠ .loadIngress w e) :
    Inv (s.arrive.goto t d) := by
  refine h.move hc d rfl (by rw [howner]; rfl) ?_ le_rfl (by rw [hraising]; rfl) (.inl hsafe)
    (fun w e hd => absurd hd (hloaded w e)) h.failed
  simp only [State.goto, State.arrive]
  omega

theorem Inv.depart
    (hpresent : present d + 1 = present c) (hraising : raising d = raising c)
    (hsafe : exclusive d ≤ exclusive c ∧ settled d ≤ settled c) (hloaded : ∀ w e, d ≠ .loadIngress w e) :
    Inv (s.depart.goto t d) := by
  refine h.move hc d rfl (by rw [howner]; rfl) ?_ (Nat.le_succ _) (by rw [hraising]; rfl) (.inl hsafe)
    (fun w e hd => absurd hd (hloaded w e)) h.failed
  simp [State.goto, State.depart]
  omega

end

theorem Inv.release (hc : s.threads[t]? = some c) (d : Thread) (hfrom : owner c = 1) (hto : owner d = 0)
    (hpresent : present d = present c) (hraising : raising d = raising c) (hloaded : ∀ w e, d ≠ .loadIngress w e) :
    Inv (s.release.goto t d) := by
  have hlock := h.owner_eq_one hc hfrom
  refine h.move hc d rfl ?_ (by rw [hpresent]; rfl) le_rfl (by rw [hraising]; rfl) (.inr (.inl rfl))
    (fun w e hd => absurd hd (hloaded w e)) ?_
  · rw [hfrom, hto, hlock]
    rfl
  · simp [State.goto, State.release, h.failed, hlock]

theorem Inv.busy {w : Writer} (hc : s.threads[t]? = some (.barrier w) ∨ s.threads[t]? = some (.acquire w))
    {again : Thread} (hagain : again = .barrier w ∨ again = .acquire w) : Inv (s.goto t (w.busy again)) := by
  rcases hc with hc | hc <;> rcases hagain with rfl | rfl <;> cases w <;>
    exact h.goto hc _ rfl rfl rfl (.inl ⟨le_rfl, le_rfl⟩) nofun

theorem Inv.advance (hc : s.threads[t]? = some c) (hwrap : NoWrap width s (.run t))
    (hs : advance width s t c = some s') : Inv s' := by
  cases c with
  | idle | reading | writing => cases hs
  | rdArrive cnt raised =>
    cases hs
    cases raised <;> exact h.arrive hc _ rfl rfl rfl ⟨le_rfl, le_rfl⟩ nofun
  | rdCheck cnt raised =>
    cases hs
    cases hlock : s.lock with
    | true => cases raised <;> exact h.goto hc _ rfl rfl rfl (.inl ⟨le_rfl, le_rfl⟩) nofun
    | false => cases raised <;> exact h.goto hc _ rfl rfl rfl (.inr (.inl hlock)) nofun
  | rdDepart cnt raised =>
    cases hs
    cases raised <;> exact h.depart hc _ rfl rfl rfl ⟨le_rfl, le_rfl⟩ nofun
  | rdWait cnt raised =>
    cases hs
    split
    · split
      · rename_i hraise
        obtain rfl : raised = false := by simpa using hraise.2
        exact h.goto hc _ rfl rfl rfl (.inl ⟨le_rfl, le_rfl⟩) nofun
      · cases raised <;> exact h.goto hc _ rfl rfl rfl (.inl ⟨le_rfl, le_rfl⟩) nofun
    · cases raised <;> exact h.goto hc _ rfl rfl rfl (.inl ⟨le_rfl, le_rfl⟩) nofun
  | rdRaise cnt =>
    cases hs
    exact h.move hc (.rdWait cnt true) rfl rfl rfl le_rfl (Int.add_zero _) (.inl ⟨le_rfl, le_rfl⟩)
      nofun h.failed
  | rdLower =>
    cases hs
    refine h.move hc .reading rfl rfl rfl le_rfl ?_ (.inl ⟨le_rfl, le_rfl⟩) nofun h.failed
    simp [raising]
  | tryArrive | upArrive =>
    cases hs
    exact h.arrive hc _ rfl rfl rfl ⟨le_rfl, le_rfl⟩ nofun
  | tryCheck =>
    cases hs
    cases hlock : s.lock with
    | true => exact h.goto hc _ rfl rfl rfl (.inl ⟨le_rfl, le_rfl⟩) nofun
    | false => exact h.goto hc _ rfl rfl rfl (.inr (.inl hlock)) nofun
  | tryDepart | upDepart =>
    cases hs
    exact h.depart hc _ rfl rfl rfl ⟨le_rfl, le_rfl⟩ nofun
  | rdUnlock =>
    cases hs
    exact h.depart hc _ rfl rfl rfl ⟨le_rfl, Nat.zero_le _⟩ nofun
  | barrier w =>
    cases hs
    split
    · exact h.busy (.inl hc) (.inl rfl)
    · cases w <;> exact h.goto hc _ rfl rfl rfl (.inl ⟨le_rfl, le_rfl⟩) nofun
  | acquire w =>
    rw [Rwlock.advance] at hs
    split at hs
    · cases hs
      exact h.busy (.inr hc) (.inr rfl)
    · rename_i hlock
      have hfree : s.lock = false := by simpa using hlock
      cases hs
      cases w <;> refine h.move hc _ rfl ?_ rfl le_rfl rfl (.inl ⟨le_rfl, Nat.zero_le _⟩) nofun h.failed <;>
        rw [hfree] <;> rfl
  | loadEgress w =>
    cases hs
    refine h.goto hc _ rfl rfl rfl (.inl ⟨le_rfl, le_rfl⟩) ?_
    rintro _ _ ⟨⟩
    exact le_rfl
  | loadIngress w e =>
    cases hs
    split
    · rename_i heq
      exact h.goto hc _ rfl rfl rfl (.inr (.inr (h.nobody hc (hwrap w e hc) heq))) nofun
    · cases w <;> exact h.goto hc _ rfl rfl rfl (.inl ⟨le_rfl, le_rfl⟩) nofun
  | dgArrive =>
    cases hs
    exact h.arrive hc _ rfl rfl rfl ⟨Nat.zero_le _, le_rfl⟩ nofun
  | upRelease | tryRelease | wrUnlock | dgRelease =>
    cases hs
    exact h.release hc _ rfl rfl rfl rfl nofun

theorem Inv.call (hc : s.threads[t]? = some c) {f : Func} {d : Thread} (hd : f.begin c = some d) : Inv (s.goto t d) := by
  cases f <;> cases c <;> cases hd <;>
    exact h.goto hc _ rfl rfl rfl (.inl ⟨le_rfl, le_rfl⟩) nofun

theorem Inv.step {op : Op} (hwrap : NoWrap width s op) (hs : step width s op = some s') : Inv s' := by
  cases op with
  | call t f =>
    rw [Rwlock.step] at hs
    split at hs
    · cases hs
    · rename_i c hc
      obtain ⟨d, hd, rfl⟩ := Option.map_eq_some_iff.mp hs
      exact h.call hc hd
  | run t =>
    rw [Rwlock.step] at hs
    split at hs
    · cases hs
    · rename_i c hc
      exact h.advance hc hwrap hs
  | spurious t =>
    rw [Rwlock.step] at hs
    split at hs
    · rename_i w hc
      cases hs
      exact h.busy (.inr hc) (.inr rfl)
    · cases hs

end

/-- The thread holds the lock for writing: it has been told so, and has not yet given it up. -/
def holdsWrite : Thread → Bool
  | .writing | .wrUnlock | .dgArrive => true
  | _ => false

/-- The thread is in `isc_rwlock_tryupgrade`. -/
def upgrading : Thread → Bool
  | .barrier .tryupgrade | .acquire .tryupgrade | .upDepart | .loadEgress .tryupgrade | .loadIngress .tryupgrade _ | .upArrive
  | .upRelease => true
  | _ => false

/-- The thread holds the lock for reading, also while it tries to upgrade. -/
def holdsRead : Thread → Bool
  | .rdLower | .reading | .rdUnlock | .dgRelease => true
  | c => upgrading c

theorem exclusive_of_holdsWrite (h : holdsWrite c = true) : exclusive c = 1 ∧ owner c = 1 := by
  cases c with
  | writing | wrUnlock | dgArrive => exact ⟨rfl, rfl⟩
  | _ => cases h

theorem settled_or_owner_of_holdsRead (h : holdsRead c = true) : settled c = 1 ∨ owner c = 1 := by
  cases c with
  | rdLower | reading | rdUnlock => exact .inl rfl
  | dgRelease | upDepart | upArrive | upRelease | loadEgress | loadIngress => exact .inr rfl
  | barrier w | acquire w =>
    cases w with
    | tryupgrade => exact .inl rfl
    | _ => cases h
  | _ => cases h

structure Sound (s : State) : Prop where
  exclusion : ∀ (i j : Nat) (c d : Thread), i ≠ j → s.threads[i]? = some c → s.threads[j]? = some d → holdsWrite c = true →
    holdsWrite d = false ∧ holdsRead d = false
  barrier_nonneg : 0 ≤ s.barrier
  barrier_eq : s.barrier = s.threads.countP fun c => raising c = 1
  require : s.failed = false

theorem Inv.owner_unique (h : Inv s) {i j : Nat} {c d : Thread} (hne : i ≠ j) (hc : s.threads[i]? = some c)
    (hd : s.threads[j]? = some d) (howner : owner c = 1) : owner d ≠ 1 := by
  intro howner'
  have hle : owner c + owner d ≤ total owner s.threads := add_le_total hne hc hd
  rw [h.lock, howner, howner'] at hle
  exact absurd (Bool.toNat_le s.lock) (Nat.not_le.mpr hle)

theorem total_raising (l : List Thread) : total raising l = l.countP fun c => raising c = 1 := by
  induction l with
  | nil => rfl
  | cons c l ih =>
    have hbit : raising c = if raising c = 1 then 1 else 0 := by
      unfold raising
      split <;> rfl
    rw [total_cons, countP_cons, ih, Nat.add_comm]
    simp only [decide_eq_true_eq]
    rw [← hbit]

theorem Inv.sound (h : Inv s) : Sound s where
  exclusion := by
    intro i j c d hne hc hd hwrite
    obtain ⟨hexclusive, howner⟩ := exclusive_of_holdsWrite hwrite
    have hother := h.owner_unique hne hc hd howner
    have hpos : 0 < total exclusive s.threads := by
      have hle : exclusive c ≤ total exclusive s.threads := le_total (mem_of_getElem? hc)
      omega
    have hsettled : settled d = 0 := total_eq_zero_iff.mp (h.safe hpos) d (mem_of_getElem? hd)
    constructor
    · simpa using fun hd' => hother (exclusive_of_holdsWrite hd').2
    · rw [← Bool.not_eq_true]
      intro hd'
      rcases settled_or_owner_of_holdsRead hd' with hone | hone
      · omega
      · exact hother hone
  barrier_nonneg := by
    simp [h.barrier]
  barrier_eq := by rw [h.barrier, total_raising]
  require := h.failed

/-- Where a thread in `isc_rwlock_tryupgrade` may go: if it returns, the lock is held for writing, or for reading as
    before. -/
def Upgrades (c d : Thread) : Prop := upgrading c = true → upgrading d = true ∨ d = .reading ∨ d = .writing

theorem upgrades_busy {w : Writer} {c again : Thread} (hagain : again = .barrier w ∨ again = .acquire w)
    (hc : c = .barrier w ∨ c = .acquire w) : Upgrades c (w.busy again) := by
  intro hup
  cases w with
  | tryupgrade => exact .inr (.inl rfl)
  | _ => rcases hc with rfl | rfl <;> cases hup

theorem advance_upgrades (hs : advance width s t c = some s') : ∃ d, s'.threads = s.threads.set t d ∧ Upgrades c d := by
  cases c with
  | idle | reading | writing => cases hs
  | barrier w =>
    cases hs
    refine ⟨_, rfl, ?_⟩
    split
    · exact upgrades_busy (.inl rfl) (.inl rfl)
    · exact fun hup => .inl (by cases w <;> first | rfl | cases hup)
  | acquire w =>
    rw [advance] at hs
    split at hs
    · cases hs
      exact ⟨_, rfl, upgrades_busy (.inr rfl) (.inr rfl)⟩
    · cases hs
      exact ⟨_, rfl, fun hup => .inl (by cases w <;> first | rfl | cases hup)⟩
  | loadEgress w =>
    cases hs
    exact ⟨_, rfl, fun hup => .inl (by cases w <;> first | rfl | cases hup)⟩
  | loadIngress w e =>
    cases hs
    refine ⟨_, rfl, fun hup => ?_⟩
    split
    · exact .inr (.inr rfl)
    · cases w with
      | tryupgrade => exact .inl rfl
      | _ => cases hup
  | upDepart | upArrive =>
    cases hs
    exact ⟨_, rfl, fun _ => .inl rfl⟩
  | upRelease =>
    cases hs
    exact ⟨_, rfl, fun _ => .inr (.inl rfl)⟩
  | _ =>
    cases hs
    exact ⟨_, rfl, nofun⟩

theorem call_upgrades {f : Func} {d : Thread} (h : f.begin c = some d) : Upgrades c d := by
  -- no function begins in the middle of an upgrade
  intro hup
  cases f <;> cases c <;> cases h <;> cases hup

theorem step_upgrades {op : Op} (hs : step width s op = some s') :
    ∃ t c d, s.threads[t]? = some c ∧ s'.threads = s.threads.set t d ∧ Upgrades c d := by
  cases op with
  | call t f =>
    rw [step] at hs
    split at hs
    · cases hs
    · rename_i c hc
      obtain ⟨d, hd, rfl⟩ := Option.map_eq_some_iff.mp hs
      exact ⟨t, c, d, hc, rfl, call_upgrades hd⟩
  | run t =>
    rw [step] at hs
    split at hs
    · cases hs
    · rename_i c hc
      obtain ⟨d, hthreads, hd⟩ := advance_upgrades hs
      exact ⟨t, c, d, hc, hthreads, hd⟩
  | spurious t =>
    rw [step] at hs
    split at hs
    · rename_i w hc
      cases hs
      exact ⟨t, _, _, hc, rfl, upgrades_busy (.inr rfl) (.inr rfl)⟩
    · cases hs

theorem upgrades_of_step {op : Op} (hs : step width s op = some s') {i : Nat} {c d : Thread} (hc : s.threads[i]? = some c)
    (hd : s'.threads[i]? = some d) : Upgrades c d := by
  obtain ⟨t, c', d', hc', hthreads, hup⟩ := step_upgrades hs
  rw [hthreads] at hd
  by_cases hit : t = i
  · subst hit
    have hlt : t < s.threads.length := (List.getElem?_eq_some_iff.mp hc).1
    rw [getElem?_set_self hlt] at hd
    cases hd
    cases hc.symm.trans hc'
    exact hup
  · rw [getElem?_set_ne hit] at hd
    cases hc.symm.trans hd
    exact fun h => .inl h

/-- As long as no counter goes all the way round between the two loads of `read_indicator_isempty`, a thread that holds the
    lock for writing excludes all others, and the barrier counts those who have raised it. An upgrade leaves its caller with
    the lock for writing or for reading. -/
theorem rwlock_run (width n : Nat) (ops : List Op) (h : EachStep (step width) (NoWrap width) (.init n) ops) :
    Always (step width) Sound (.init n) ops ∧
    ∀ s op s' (t : Nat) (c d : Thread), step width s op = some s' → s.threads[t]? = some c → s'.threads[t]? = some d →
      upgrading c = true → upgrading d = true ∨ d = .reading ∨ d = .writing := by
  constructor
  · exact (h.always (fun _ _ _ hinv hop hs => hinv.step hop hs) (inv_init n)).mono fun _ hinv => hinv.sound
  · exact fun s op s' t c d hs hc hd => upgrades_of_step hs hc hd

/-- A reader upgrades while another thread tries to read. -/
def upgradeRun : List Op :=
  [.call 0 .rdlock, .run 0, .run 0, .call 0 .tryupgrade, .run 0, .run 0, .run 0, .call 1 .tryrdlock, .run 1, .run 0, .run 1,
    .run 0, .run 1, .run 0, .run 0]

theorem upgradeRun_sound : EachStep (step 32) (NoWrap 32) (.init 2) upgradeRun ∧ Always (step 32) Sound (.init 2) upgradeRun := by
  have hwrap : EachStep (step 32) (NoWrap 32) (.init 2) upgradeRun := by
    simp [upgradeRun, EachStep, step, advance, Func.begin, State.init, State.goto, State.arrive, State.depart, NoWrap]
  exact ⟨hwrap, (rwlock_run 32 2 upgradeRun hwrap).1⟩

/-- A failed `isc_rwlock_tryrdlock`. -/
def failedTry : List Op := [.call 2 .tryrdlock, .run 2, .run 2, .run 2]

theorem failedTries (width ingress egress : Nat) (c : Thread) (k : Nat) :
    (replicate k failedTry).flatten.foldlM (step width) ⟨ingress, egress, 0, true, [.reading, c, .idle], false⟩ =
      some ⟨ingress + k, egress + k, 0, true, [.reading, c, .idle], false⟩ := by
  induction k generalizing ingress egress with
  | zero => rfl
  | succ k ih =>
    have hrest := ih (ingress + 1) (egress + 1)
    rw [Nat.add_right_comm, Nat.add_right_comm egress] at hrest
    exact hrest

/-- One thread reads, another one sets the flag and loads the number of departures. A third one then tries to read so often
    that the number of arrivals comes round to that number. -/
def goRound (width : Nat) : List Op :=
  [.call 0 .rdlock, .run 0, .run 0, .call 1 .wrlock, .run 1, .run 1, .run 1] ++
    (replicate (2 ^ width - 1) failedTry).flatten ++ [.run 1]

theorem goRound_writing (width : Nat) : (goRound width).foldlM (step width) (.init 3) =
    some ⟨2 ^ width, 0 + (2 ^ width - 1), 0, true, [.reading, .writing, .idle], false⟩ := by
  have hpos : 0 < 2 ^ width := Nat.two_pow_pos width
  have hround : 1 + (2 ^ width - 1) = 2 ^ width := by omega
  have hbegin : [Op.call 0 .rdlock, .run 0, .run 0, .call 1 .wrlock, .run 1, .run 1, .run 1].foldlM (step width) (.init 3) =
      some ⟨1, 0, 0, true, [.reading, .loadIngress .wrlock 0, .idle], false⟩ := rfl
  have hlast : step width ⟨2 ^ width, 0 + (2 ^ width - 1), 0, true, [.reading, .loadIngress .wrlock 0, .idle], false⟩ (.run 1) =
      some ⟨2 ^ width, 0 + (2 ^ width - 1), 0, true, [.reading, .writing, .idle], false⟩ := by
    simp [step, advance, State.goto]
  rw [goRound, foldlM_append, foldlM_append, hbegin]
  simp only [Option.bind_eq_bind, Option.bind_some, failedTries, hround, foldlM_cons, foldlM_nil, hlast]
  rfl

theorem counters_go_round : ∃ s, (goRound 32).foldlM (step 32) (.init 3) = some s ∧ s.threads = [.reading, .writing, .idle] :=
  ⟨_, goRound_writing 32, rfl⟩

end OqsBind.Isc.Rwlock
