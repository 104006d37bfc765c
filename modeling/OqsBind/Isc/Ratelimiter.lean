import Mathlib.Init

/-! Rate limiters (`ratelimiter.c`). Each critical section and each job on the limiter's loop is a step. Events are numbered as
    they are enqueued, and an event is sent when `isc_async_run` is called for it. Times are in nanoseconds. -/

namespace OqsBind.Isc.Ratelimiter

/-- `isc_ratelimiter_state_t`. -/
inductive Status where
  | ratelimited | idle | shuttingdown
deriving DecidableEq, Repr

/-- The timer of a limiter, which fires once. -/
inductive Timer where
  | stopped
  | started (due : Nat)
  | destroyed
deriving DecidableEq, Repr

/-- An event that was sent, and when. -/
structure Sent where
  event : Nat
  canceled : Bool
  time : Nat
deriving DecidableEq, Repr

def log (now : Nat) (canceled : Bool) (events : List Nat) : List Sent := events.map (⟨·, canceled, now⟩)

/-- `struct isc_ratelimiter`, with what is queued on its loop and what has been sent. -/
structure State where
  interval : Nat
  pertic : Nat
  pushpop : Bool
  state : Status
  pending : List Nat
  /-- `rl->loop` is attached. -/
  loop : Bool
  timer : Timer
  /-- The jobs `isc__ratelimiter_start` and `isc__ratelimiter_doshutdown` on the loop. -/
  starts : Nat
  shutdowns : Nat
  /-- The list of `isc_ratelimiter_shutdown`, and what it was at first. -/
  canceling : List Nat
  left : List Nat
  next : Nat
  now : Nat
  sent : List Sent
  dequeued : List Nat
  /-- A detached loop or a destroyed timer was used, or an `INSIST` failed. -/
  broken : Bool
deriving DecidableEq, Repr

namespace State

def create (interval pertic : Nat) (pushpop : Bool) : State :=
  ⟨interval, pertic, pushpop, .idle, [], true, .stopped, 0, 0, [], [], 0, 0, [], [], false⟩

def check (s : State) (ok : Bool) : State := { s with broken := s.broken || !ok }

/-- `isc_timer_start`, which counts in milliseconds. -/
def timerStart (s : State) (interval : Nat) : State :=
  { s.check (s.timer ≠ .destroyed) with timer := .started (s.now + interval / 1000000 * 1000000) }

/-- `isc__ratelimiter_start`: the first tick is at once. -/
def start (s : State) : State := if s.state = .ratelimited then s.timerStart 0 else s

/-- `isc_ratelimiter_enqueue`. -/
def enqueue (s : State) : State :=
  if s.state = .shuttingdown then s
  else
    let s := if s.state = .idle then { s.check s.loop with starts := s.starts + 1, state := .ratelimited } else s
    { s with pending := if s.pushpop then s.next :: s.pending else s.pending ++ [s.next], next := s.next + 1 }

/-- `isc_ratelimiter_dequeue`. An event in the list of `isc_ratelimiter_shutdown` is linked as well, but at the ends of that
    list it is not where `ISC_LIST_UNLINK` looks for it. -/
def dequeue (s : State) (e : Nat) : State :=
  if e ∈ s.pending then { s with pending := s.pending.erase e, dequeued := s.dequeued ++ [e] }
  else if e ∈ s.canceling then
    { s.check (s.canceling.head? ≠ some e ∧ s.canceling.getLast? ≠ some e) with
      canceling := s.canceling.erase e, dequeued := s.dequeued ++ [e] }
  else s

/-- The loop of `isc__ratelimiter_tick`: what is released, what is left, and whether there was room for more. -/
def release : (pertic : Nat) → (pending : List Nat) → List Nat × List Nat × Bool
  | 0, pending => ([], pending, false)
  | _ + 1, [] => ([], [], true)
  | pertic + 1, e :: pending => ((release pertic pending).map (e :: ·) id)

/-- `isc__ratelimiter_tick`. What it releases is sent after the lock has been given back, but here in the same step: a call of
    `isc_ratelimiter_dequeue` between the two, which would meet the same `INSIST` as one for an event in `canceling`, is left
    out. -/
def tick (s : State) : State :=
  if s.state = .shuttingdown then s.check s.pending.isEmpty
  else
    let (released, pending, idle) := release s.pertic s.pending
    let s := { s with
      pending := pending
      state := if idle then .idle else s.state
      sent := s.sent ++ log s.now false released }
    if s.state ≠ .idle then s.timerStart s.interval else s

/-- `isc__ratelimiter_doshutdown`. -/
def doshutdown (s : State) : State :=
  { s.check (s.state = .shuttingdown ∧ s.pending = [] ∧ s.timer ≠ .destroyed ∧ s.loop) with timer := .destroyed, loop := false }

/-- `isc_ratelimiter_shutdown`, until it gives the lock back. -/
def shutdown (s : State) : State :=
  if s.state = .shuttingdown then s
  else { s.check s.loop with
    state := .shuttingdown, pending := [], canceling := s.pending, left := s.pending, shutdowns := s.shutdowns + 1 }

end State

inductive Act where
  | enqueue
  | dequeue (e : Nat)
  | shutdown
  /-- `isc_ratelimiter_shutdown`, for one event after the lock has been given back. -/
  | cancel
  | start
  | tick
  | doshutdown
deriving DecidableEq, Repr

open State

def act (s : State) : Act → Option State
  | .enqueue => some s.enqueue
  | .dequeue e => some (s.dequeue e)
  | .shutdown => some s.shutdown
  | .cancel =>
    match s.canceling with
    | [] => none
    | e :: canceling => some { s.check s.loop with canceling := canceling, sent := s.sent ++ log s.now true [e] }
  | .start => if s.starts = 0 then none else some { s with starts := s.starts - 1 }.start
  | .tick =>
    match s.timer with
    | .started due => if due ≤ s.now then some { s with timer := .stopped }.tick else none
    | _ => none
  | .doshutdown => if s.shutdowns = 0 then none else some { s with shutdowns := s.shutdowns - 1 }.doshutdown

/-- A step at a time, which does not go back. -/
def step (s : State) (op : Nat × Act) : Option State := if s.now ≤ op.1 then act { s with now := op.1 } op.2 else none

end OqsBind.Isc.Ratelimiter
