import OqsBind.Isc.Ratelimiter
import OqsBind.Lib.Agents
import Mathlib.Data.List.Nodup
import Mathlib.Data.List.Perm.Basic
import Mathlib.Order.Basic

/-! The rate limiter over whole runs: where its events are, what it has queued, and how fast it releases. -/

namespace OqsBind.Isc.Ratelimiter
open List Agents

variable {s s' : State} {a : Act} {op : Nat × Act}

theorem release_eq : ∀ (n : Nat) (l : List Nat), State.release n l = (l.take n, l.drop n, decide (l.length < n))
  | 0, l => by simp [State.release]
  | n + 1, [] => by simp [State.release]
  | n + 1, e :: l => by simp [State.release, release_eq n l]

/-- While it is not shut down, a limiter that is not idle has its start queued or its timer started. -/
structure Shape (s : State) : Prop where
  idle : s.state = .idle → s.pending = [] ∧ s.starts = 0 ∧ s.timer = .stopped
  limited : s.state = .ratelimited → s.starts = 1 ∧ s.timer = .stopped ∨ s.starts = 0 ∧ ∃ due, s.timer = .started due
  down : s.state = .shuttingdown → s.pending = []
  up : s.state ≠ .shuttingdown → s.loop = true ∧ s.shutdowns = 0 ∧ s.canceling = [] ∧ s.left = []

/-- What a step can do. -/
inductive Moves (s : State) : Act → State → Prop
  | stay (a : Act) : Moves s a s
  | enqueue {starts : Nat} {pending : List Nat}
      (h : s.state = .idle ∧ starts = 1 ∨ s.state = .ratelimited ∧ starts = s.starts)
      (hp : pending.Perm (s.next :: s.pending)) :
      Moves s .enqueue { s with starts := starts, state := .ratelimited, pending := pending, next := s.next + 1 }
  | dequeue {e : Nat} (h : e ∈ s.pending) :
      Moves s (.dequeue e) { s with pending := s.pending.erase e, dequeued := s.dequeued ++ [e] }
  | steal {e : Nat} (h : e ∈ s.canceling) (b : Bool) :
      Moves s (.dequeue e) { s with broken := b, canceling := s.canceling.erase e, dequeued := s.dequeued ++ [e] }
  | shutdown (h : s.state ≠ .shuttingdown) :
      Moves s .shutdown { s with
        state := .shuttingdown, pending := [], canceling := s.pending, left := s.pending, shutdowns := 1 }
  | cancel {e : Nat} {l : List Nat} (h : s.canceling = e :: l) :
      Moves s .cancel { s with broken := s.broken || !s.loop, canceling := l, sent := s.sent ++ log s.now true [e] }
  | start (h : s.state = .ratelimited) (ht : s.timer = .stopped) :
      Moves s .start { s with starts := 0, timer := .started s.now }
  | late (h : s.state = .shuttingdown) (n : Nat) : Moves s .start { s with starts := n }
  | drain {due : Nat} (h : s.timer = .started due) (hdue : due ≤ s.now) (hs : s.state = .ratelimited)
      (hfew : s.pending.length < s.pertic) :
      Moves s .tick { s with
        state := .idle, pending := [], timer := .stopped, sent := s.sent ++ log s.now false s.pending }
  | tick {due : Nat} (h : s.timer = .started due) (hdue : due ≤ s.now) (hs : s.state = .ratelimited)
      (hmany : s.pertic ≤ s.pending.length) :
      Moves s .tick { s with
        pending := s.pending.drop s.pertic
        timer := .started (s.now + s.interval / 1000000 * 1000000)
        sent := s.sent ++ log s.now false (s.pending.take s.pertic) }
  | ended (h : s.state = .shuttingdown) : Moves s .tick { s with timer := .stopped }
  | doshutdown {n : Nat} (h : s.shutdowns = n + 1) (b : Bool) (hb : b = (s.broken || !(s.timer ≠ .destroyed ∧ s.loop))) :
      Moves s .doshutdown { s with broken := b, shutdowns := n, timer := .destroyed, loop := false }

theorem Shape.moves (h : Shape s) (hact : act s a = some s') : Moves s a s' := by
  obtain ⟨h1, h2, h3, h4⟩ := h
  cases a with
  | enqueue =>
    cases hact
    unfold State.enqueue
    have hp : (if s.pushpop then s.next :: s.pending else s.pending ++ [s.next]).Perm (s.next :: s.pending) := by
      split
      · exact .refl _
      · exact perm_append_singleton ..
    cases hs : s.state with
    | idle => simpa [h1 hs, h4 (by simp [hs]), State.check] using Moves.enqueue (.inl ⟨hs, rfl⟩) hp
    | ratelimited => simpa [hs] using Moves.enqueue (.inr ⟨hs, rfl⟩) hp
    | shuttingdown => exact .stay _
  | dequeue e =>
    cases hact
    unfold State.dequeue
    split_ifs with hp hc
    · exact .dequeue hp
    · exact .steal hc _
    · exact .stay _
  | shutdown =>
    cases hact
    unfold State.shutdown
    split_ifs with hs
    · exact .stay _
    · simpa [State.check, h4 hs] using Moves.shutdown hs
  | cancel =>
    simp only [act] at hact
    split at hact
    · cases hact
    · rename_i hc
      cases hact
      exact .cancel hc
  | start =>
    simp only [act] at hact
    split_ifs at hact with h0
    cases hact
    cases hs : s.state with
    | idle => exact absurd (h1 hs).2.1 h0
    | ratelimited =>
      obtain ⟨hone, ht⟩ := (h2 hs).resolve_right fun h => h0 h.1
      simpa [State.start, State.timerStart, State.check, hs, hone, ht] using Moves.start hs ht
    | shuttingdown => simpa [State.start, hs] using Moves.late hs _
  | tick =>
    simp only [act] at hact
    split at hact
    · rename_i due ht
      split_ifs at hact with hdue
      cases hact
      cases hs : s.state with
      | idle => simp [(h1 hs).2.2] at ht
      | ratelimited =>
        by_cases hfew : s.pending.length < s.pertic
        · have hall := Nat.le_of_lt hfew
          simpa [State.tick, release_eq, hs, hfew, take_of_length_le hall, drop_of_length_le hall] using
            Moves.drain ht hdue hs hfew
        · simpa [State.tick, release_eq, hs, hfew, State.timerStart, State.check] using
            Moves.tick ht hdue hs (Nat.not_lt.mp hfew)
      | shuttingdown => simpa [State.tick, hs, h3 hs, State.check] using Moves.ended hs
    · cases hact
  | doshutdown =>
    simp only [act] at hact
    split_ifs at hact with h0
    cases hact
    have hs : s.state = .shuttingdown := by
      by_contra hs
      exact h0 (h4 hs).2.1
    have := Moves.doshutdown (s := s) (n := s.shutdowns - 1) (by omega) _ rfl
    simpa [State.doshutdown, State.check, hs, h3 hs] using this

theorem Shape.kept (h : Shape s) (hm : Moves s a s') : Shape s' := by
  obtain ⟨h1, h2, h3, h4⟩ := h
  cases hm <;> constructor <;> grind

theorem shape_create (interval pertic : Nat) (pushpop : Bool) : Shape (.create interval pertic pushpop) :=
  ⟨fun _ => ⟨rfl, rfl, rfl⟩, nofun, nofun, fun _ => ⟨rfl, rfl, rfl, rfl⟩⟩

theorem Shape.at (h : Shape s) (now : Nat) : Shape { s with now := now } := ⟨h.idle, h.limited, h.down, h.up⟩

theorem step_eq (h : step s op = some s') : s.now ≤ op.1 ∧ act { s with now := op.1 } op.2 = some s' := by
  unfold step at h
  split_ifs at h with hle
  exact ⟨hle, h⟩

/-! ### Events -/

theorem events_log (now : Nat) (canceled : Bool) (l : List Nat) : (log now canceled l).map (·.event) = l := by
  simp [log, Function.comp_def]

structure Inv (s : State) : Prop extends Shape s where
  unbroken : s.broken = false
  once : (s.pending ++ s.canceling ++ s.sent.map (·.event) ++ s.dequeued).Perm (range s.next)
  left : s.left.Perm (s.canceling ++ (s.sent.filter (·.canceled)).map (·.event))
  attached : s.loop = false → s.canceling = []
  job : s.shutdowns ≠ 0 → s.shutdowns = 1 ∧ s.loop = true ∧ s.timer ≠ .destroyed

/-- The shutdown job waits for the thread that cancels, and so do the dequeues of the events it cancels. -/
def Orderly (s : State) (op : Nat × Act) : Prop :=
  match op.2 with
  | .dequeue e => e ∉ s.canceling
  | .doshutdown => s.canceling = []
  | _ => True

theorem released {l rest : List Nat} (hl : l ++ rest = s.pending)
    (hp : (s.pending ++ s.canceling ++ s.sent.map (·.event) ++ s.dequeued).Perm (range s.next))
    (hleft : s.left.Perm (s.canceling ++ (s.sent.filter (·.canceled)).map (·.event))) :
    (rest ++ s.canceling ++ (s.sent ++ log s.now false l).map (·.event) ++ s.dequeued).Perm (range s.next) ∧
      s.left.Perm (s.canceling ++ ((s.sent ++ log s.now false l).filter (·.canceled)).map (·.event)) := by
  have hnone : (log s.now false l).filter (·.canceled) = [] := filter_eq_nil_iff.mpr (by simp [log])
  refine ⟨.trans ?_ hp, by simpa [hnone] using hleft⟩
  rw [map_append, events_log, ← hl, perm_iff_count]
  grind

theorem Inv.kept (h : Inv s) {t : Nat} (ho : Orderly s (t, a)) (hm : Moves s a s') : Inv s' := by
  have hshape := h.toShape.kept hm
  obtain ⟨⟨h1, h2, h3, h4⟩, hb, hp, hl, ha, hj⟩ := h
  cases hm with
  | stay => exact ⟨hshape, hb, hp, hl, ha, hj⟩
  | enqueue h hperm =>
    refine ⟨hshape, hb, ?_, hl, ha, hj⟩
    rw [range_succ]
    refine .trans ?_ ((hp.cons s.next).trans (perm_append_singleton ..).symm)
    simpa [append_assoc] using hperm.append_right _
  | dequeue hmem =>
    refine ⟨hshape, hb, .trans ?_ hp, hl, ha, hj⟩
    rw [perm_iff_count] at *
    grind
  | steal hmem => exact absurd hmem ho
  | shutdown hs =>
    obtain ⟨hloop, -, hcanceling, hleft⟩ := h4 hs
    rw [hcanceling, hleft, nil_append, nil_perm] at hl
    refine ⟨hshape, hb, by simpa [hcanceling] using hp, by simp [hl], by simp [hloop], fun _ => ⟨rfl, hloop, ?_⟩⟩
    cases hstate : s.state <;> grind
  | cancel hc =>
    have hloop : s.loop = true := by
      by_contra hloop
      simp [ha (by simpa using hloop)] at hc
    rw [hc] at hp hl
    refine ⟨hshape, by simp [hb, hloop], .trans ?_ hp, hl.trans ?_, by simp [hloop], hj⟩ <;> rw [perm_iff_count] <;> grind [log]
  | start hs ht => exact ⟨hshape, hb, hp, hl, ha, by simp [(h4 (by simp [hs])).2.1]⟩
  | late hs n => exact ⟨hshape, hb, hp, hl, ha, hj⟩
  | drain h hdue hs hfew =>
    obtain ⟨hp, hl⟩ := released (append_nil s.pending) hp hl
    exact ⟨hshape, hb, hp, hl, ha, by simp [(h4 (by simp [hs])).2.1]⟩
  | tick h hdue hs hmany =>
    obtain ⟨hp, hl⟩ := released (take_append_drop s.pertic s.pending) hp hl
    exact ⟨hshape, hb, hp, hl, ha, by simp [(h4 (by simp [hs])).2.1]⟩
  | ended hs =>
    refine ⟨hshape, hb, hp, hl, ha, ?_⟩
    grind
  | doshutdown h b hb' =>
    refine ⟨hshape, by grind, hp, hl, fun _ => ho, by grind⟩

theorem Inv.step (h : Inv s) (ho : Orderly s op) (hs : step s op = some s') : Inv s' := by
  obtain ⟨-, hact⟩ := step_eq hs
  have hnow : Inv { s with now := op.1 } := ⟨h.toShape.at _, h.unbroken, h.once, h.left, h.attached, h.job⟩
  exact hnow.kept (t := op.1) ho (hnow.toShape.moves hact)

/-- Each event that has been enqueued is pending, about to be canceled, sent or dequeued, once and in one way; it is sent as
    canceled if it was pending at the shutdown; and pending events will be released. -/
structure Sound (s : State) : Prop where
  unbroken : s.broken = false
  once : (s.pending ++ s.canceling ++ s.sent.map (·.event) ++ s.dequeued).Perm (range s.next)
  canceled : ∀ d ∈ s.sent, d.canceled = true ↔ d.event ∈ s.left
  armed : s.state ≠ .shuttingdown → s.pending ≠ [] → 0 < s.starts ∨ ∃ due, s.timer = .started due

theorem Inv.sound (h : Inv s) : Sound s := by
  refine ⟨h.unbroken, h.once, fun d hd => ⟨fun hc => ?_, fun hleft => ?_⟩, fun hs hne => ?_⟩
  · refine h.left.mem_iff.mpr (mem_append_right _ (mem_map.mpr ⟨d, mem_filter.mpr ⟨hd, hc⟩, rfl⟩))
  · have hnodup := h.once.nodup_iff.mpr nodup_range
    rw [append_assoc, nodup_append'] at hnodup
    obtain ⟨-, hsent, hdisj⟩ := hnodup
    rcases mem_append.mp (h.left.mem_iff.mp hleft) with hmem | hmem
    · exact absurd (mem_append_left _ (mem_map_of_mem hd)) (hdisj (mem_append_right _ hmem))
    · obtain ⟨d', hd', heq⟩ := mem_map.mp hmem
      obtain ⟨hd', hc⟩ := mem_filter.mp hd'
      rwa [← inj_on_of_nodup_map (nodup_append'.mp hsent).1 hd' hd heq]
  · cases hstate : s.state with
    | idle => exact absurd (h.idle hstate).1 hne
    | ratelimited => exact (h.limited hstate).imp (fun h => by omega) (·.2)
    | shuttingdown => exact absurd hstate hs

theorem orderly_sound (interval pertic : Nat) (pushpop : Bool) (ops : List (Nat × Act))
    (h : EachStep step Orderly (.create interval pertic pushpop) ops) :
    Always step Sound (.create interval pertic pushpop) ops := by
  have hinit : Inv (.create interval pertic pushpop) :=
    ⟨shape_create _ _ _, rfl, .refl _, .refl _, nofun, nofun⟩
  exact (h.always (fun _ _ _ hinv ho hs => hinv.step ho hs) hinit).mono fun _ => Inv.sound

/-- An event is dequeued, one is released and one is pending at the shutdown. -/
def threeEvents : List (Nat × Act) :=
  [(0, .enqueue), (0, .enqueue), (0, .enqueue), (1, .dequeue 1), (1, .start), (2, .tick), (3, .shutdown), (3, .cancel),
    (4, .doshutdown)]

theorem threeEvents_sound : EachStep step Orderly (.create 1000000 1 false) threeEvents ∧
    Always step Sound (.create 1000000 1 false) threeEvents := by
  have horderly : EachStep step Orderly (.create 1000000 1 false) threeEvents := by
    simp [threeEvents, EachStep, step, act, State.create, State.enqueue, State.dequeue, State.start, State.timerStart,
      State.tick, State.release, State.shutdown, State.check, Orderly]
  exact ⟨horderly, orderly_sound _ _ _ _ horderly⟩

/-- The loop is given up before the thread that shuts down has canceled the event, and an event is dequeued that this thread
    has yet to cancel. -/
theorem unorderly_breaks :
    ([(0, .enqueue), (0, .shutdown), (0, .doshutdown), (0, .cancel)].foldlM step (.create 0 1 false)).any (·.broken) = true ∧
    ([(0, .enqueue), (0, .shutdown), (0, .dequeue 0)].foldlM step (.create 0 1 false)).any (·.broken) = true := by
  decide

/-! ### The rate -/

/-- The events released at the times from `x` to `y`. -/
def releasedIn (sent : List Sent) (x y : Nat) : List Sent :=
  sent.filter fun d => !d.canceled && decide (x ≤ d.time) && decide (d.time < y)

def Ready (interval : Nat) (sent : List Sent) (t : Nat) : Prop := ∀ d ∈ sent, d.canceled = false → d.time + interval ≤ t

structure Paced (interval pertic : Nat) (s : State) : Prop extends Shape s where
  interval_eq : s.interval = interval
  pertic_eq : s.pertic = pertic
  due : ∀ due, s.timer = .started due → Ready interval s.sent due
  now : s.state ≠ .shuttingdown → s.timer = .stopped → Ready interval s.sent s.now
  bound : ∀ x y, y ≤ x + interval → (releasedIn s.sent x y).length ≤ pertic

/-- A tick finds no event at all, or as many as it may release. -/
def Whole (s : State) (op : Nat × Act) : Prop := op.2 = .tick → s.pending = [] ∨ s.pertic ≤ s.pending.length

variable {interval pertic : Nat} {sent : List Sent} {due now : Nat}

theorem Ready.mono (h : Ready interval sent due) (hle : due ≤ now) : Ready interval sent now :=
  fun d hd hc => Nat.le_trans (h d hd hc) hle

theorem ready_released (h : Ready interval sent now) (l : List Nat) :
    Ready interval (sent ++ log now false l) (now + interval) := by
  intro d hd hc
  rcases mem_append.mp hd with hd | hd
  · exact Nat.le_add_right_of_le (h d hd hc)
  · obtain ⟨e, -, rfl⟩ := mem_map.mp hd
    exact Nat.le_refl _

/-- A period that reaches the time of a tick begins after all that has been released before. -/
theorem releasedIn_log (h : Ready interval sent now) {x y : Nat} (hxy : y ≤ x + interval) (l : List Nat) :
    releasedIn (sent ++ log now false l) x y = releasedIn sent x y ∨
      releasedIn (sent ++ log now false l) x y = log now false l := by
  unfold releasedIn
  rw [filter_append]
  by_cases hin : x ≤ now ∧ now < y
  · right
    rw [filter_eq_nil_iff.mpr, nil_append, filter_eq_self.mpr]
    · intro d hd
      obtain ⟨e, -, rfl⟩ := mem_map.mp hd
      simp [hin]
    · intro d hd hd'
      simp only [Bool.and_eq_true, Bool.not_eq_true', decide_eq_true_eq] at hd'
      have := h d hd hd'.1.1
      omega
  · left
    rw [(filter_eq_nil_iff (l := log now false l)).mpr, append_nil]
    intro d hd hd'
    obtain ⟨e, -, rfl⟩ := mem_map.mp hd
    simp at hd'
    omega

theorem Paced.kept (h : Paced interval pertic s) {t : Nat} (hms : 1000000 ∣ interval) (hw : Whole s (t, a))
    (hm : Moves s a s') : Paced interval pertic s' := by
  have hshape := h.toShape.kept hm
  obtain ⟨-, rfl, rfl, hdue, hnow, hbound⟩ := h
  cases hm with
  | stay | enqueue | dequeue | steal | shutdown | late => exact ⟨hshape, rfl, rfl, hdue, by grind, hbound⟩
  | cancel hc =>
    refine ⟨hshape, rfl, rfl, fun due ht => ?_, fun hs ht => ?_, fun x y hxy => ?_⟩
    · simpa [Ready, or_imp, forall_and, log] using hdue due ht
    · simpa [Ready, or_imp, forall_and, log] using hnow hs ht
    · simpa [releasedIn, log] using hbound x y hxy
  | start hs ht => 
    refine ⟨hshape, rfl, rfl, fun due hdue' => ?_, nofun, hbound⟩
    cases hdue'
    exact hnow (by simp [hs]) ht
  | drain ht hle hs hfew =>
    have hnone : s.pending = [] := (hw rfl).resolve_right (Nat.not_le.mpr hfew)
    rw [hnone]
    simp only [log, map_nil, append_nil]
    refine ⟨by simpa [hnone, log] using hshape, rfl, rfl, nofun, fun _ _ => (hdue _ ht).mono hle, hbound⟩
  | tick ht hle hs hmany =>
    have hready := (hdue _ ht).mono hle
    refine ⟨hshape, rfl, rfl, fun due hdue' => ?_, nofun, fun x y hxy => ?_⟩
    · cases hdue'
      simpa [Nat.div_mul_cancel hms] using ready_released hready _
    · rcases releasedIn_log hready hxy (s.pending.take s.pertic) with h | h
      · exact h ▸ hbound x y hxy
      · rw [h, log, length_map]
        exact length_take_le _ _
  | ended hs => exact ⟨hshape, rfl, rfl, nofun, fun h => absurd hs h, hbound⟩
  | doshutdown h b hb => exact ⟨hshape, rfl, rfl, nofun, nofun, hbound⟩

theorem Paced.step (h : Paced interval pertic s) (hms : 1000000 ∣ interval) (hw : Whole s op) (hs : step s op = some s') :
    Paced interval pertic s' := by
  obtain ⟨hle, hact⟩ := step_eq hs
  have hnow : Paced interval pertic { s with now := op.1 } :=
    ⟨h.toShape.at _, h.interval_eq, h.pertic_eq, h.due, fun h1 h2 => (h.now h1 h2).mono hle, h.bound⟩
  exact hnow.kept (t := op.1) hms hw (hnow.toShape.moves hact)

end OqsBind.Isc.Ratelimiter
