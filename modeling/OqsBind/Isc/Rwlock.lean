import Mathlib.Algebra.Group.Nat.Defs

/-! Reader-writer locks (`rwlock.c`), one atomic operation at a time. -/

namespace OqsBind.Isc.Rwlock

def RWLOCK_MAX_READER_PATIENCE : Nat := 500

/-- The functions that take `writers_lock`. -/
inductive Writer where
  | wrlock | trywrlock | tryupgrade
deriving DecidableEq, Repr

/-- What a thread does next, or what it holds between two calls. In `isc_rwlock_rdlock`, `cnt` and `raised` are its local
    variables. -/
inductive Thread where
  | idle
  /-- `isc_rwlock_rdlock`: `read_indicator_arrive`. -/
  | rdArrive (cnt : Nat) (raised : Bool)
  /-- `writers_lock_islocked`, after the arrival. -/
  | rdCheck (cnt : Nat) (raised : Bool)
  /-- `read_indicator_depart`. -/
  | rdDepart (cnt : Nat) (raised : Bool)
  /-- `writers_lock_islocked`, in the inner loop. -/
  | rdWait (cnt : Nat) (raised : Bool)
  /-- `writers_barrier_raise`. -/
  | rdRaise (cnt : Nat)
  /-- `writers_barrier_lower`. -/
  | rdLower
  /-- `isc_rwlock_tryrdlock`: `read_indicator_arrive`. -/
  | tryArrive
  /-- `writers_lock_islocked`. -/
  | tryCheck
  /-- `read_indicator_depart`. -/
  | tryDepart
  | reading
  /-- `isc_rwlock_rdunlock`: `read_indicator_depart`. -/
  | rdUnlock
  /-- `writers_barrier_israised`. -/
  | barrier (w : Writer)
  /-- `writers_lock_acquire`. -/
  | acquire (w : Writer)
  /-- `isc_rwlock_tryupgrade`: `read_indicator_depart`. -/
  | upDepart
  /-- `read_indicator_isempty`: the load of `readers_egress`. -/
  | loadEgress (w : Writer)
  /-- `read_indicator_isempty`: the load of `readers_ingress`. -/
  | loadIngress (w : Writer) (egress : Nat)
  /-- `isc_rwlock_tryupgrade`: `read_indicator_arrive`. -/
  | upArrive
  /-- `isc_rwlock_tryupgrade`: `writers_lock_release`. -/
  | upRelease
  /-- `isc_rwlock_trywrlock`: `writers_lock_release`. -/
  | tryRelease
  | writing
  /-- `isc_rwlock_wrunlock`: `writers_lock_release`. -/
  | wrUnlock
  /-- `isc_rwlock_downgrade`: `read_indicator_arrive`. -/
  | dgArrive
  /-- `writers_lock_release`. -/
  | dgRelease
deriving DecidableEq, Repr

/-- `isc_rwlock_t` and the threads. `ingress` and `egress` count the arrivals and the departures; the fields
    `readers_ingress` and `readers_egress` hold these numbers up to multiples of 2 to the width of the type. `failed` says that
    `REQUIRE` has failed in `writers_lock_release`. -/
structure State where
  ingress : Nat
  egress : Nat
  barrier : Int
  lock : Bool
  threads : List Thread
  failed : Bool
deriving DecidableEq, Repr

/-- `isc_rwlock_init`, for `n` threads. -/
def State.init (n : Nat) : State := ⟨0, 0, 0, false, List.replicate n .idle, false⟩

/-- The functions. -/
inductive Func where
  | rdlock | tryrdlock | rdunlock | wrlock | trywrlock | wrunlock | tryupgrade | downgrade
deriving DecidableEq, Repr

/-- A thread calls a function that fits what it holds. -/
def Func.begin : Func → Thread → Option Thread
  | .rdlock, .idle => some (.rdArrive 0 false)
  | .tryrdlock, .idle => some .tryArrive
  | .wrlock, .idle => some (.barrier .wrlock)
  | .trywrlock, .idle => some (.barrier .trywrlock)
  | .rdunlock, .reading => some .rdUnlock
  | .tryupgrade, .reading => some (.barrier .tryupgrade)
  | .wrunlock, .writing => some .wrUnlock
  | .downgrade, .writing => some .dgArrive
  | _, _ => none

/-- What a thread holds after a failed attempt. `isc_rwlock_wrlock` tries again. -/
def Writer.busy : Writer → (again : Thread) → Thread
  | .wrlock, again => again
  | .trywrlock, _ => .idle
  | .tryupgrade, _ => .reading

inductive Op where
  | call (t : Nat) (f : Func)
  | run (t : Nat)
  | spurious (t : Nat)
deriving DecidableEq, Repr

/-- Thread `t` goes on with `c`. -/
def State.goto (s : State) (t : Nat) (c : Thread) : State := { s with threads := s.threads.set t c }

/-- `read_indicator_arrive`. -/
def State.arrive (s : State) : State := { s with ingress := s.ingress + 1 }

/-- `read_indicator_depart`. -/
def State.depart (s : State) : State := { s with egress := s.egress + 1 }

/-- `writers_lock_release`. -/
def State.release (s : State) : State := { s with lock := false, failed := s.failed || !s.lock }

/-- The next operation of thread `t`, with counters of `width` bits, which are compared from left to right. -/
def advance (width : Nat) (s : State) (t : Nat) : Thread → Option State
  | .rdArrive cnt raised => some (s.arrive.goto t (.rdCheck cnt raised))
  | .rdCheck cnt raised =>
    some (s.goto t (if s.lock then .rdDepart cnt raised else if raised then .rdLower else .reading))
  | .rdDepart cnt raised => some (s.depart.goto t (.rdWait cnt raised))
  | .rdWait cnt raised =>
    some (s.goto t (if s.lock then
        if RWLOCK_MAX_READER_PATIENCE ≤ cnt ∧ !raised then .rdRaise ((cnt + 1) % 2 ^ 32) else .rdWait ((cnt + 1) % 2 ^ 32) raised
      else .rdArrive cnt raised))
  | .rdRaise cnt => some { s.goto t (.rdWait cnt true) with barrier := s.barrier + 1 }
  | .rdLower => some { s.goto t .reading with barrier := s.barrier - 1 }
  | .tryArrive => some (s.arrive.goto t .tryCheck)
  | .tryCheck => some (s.goto t (if s.lock then .tryDepart else .reading))
  | .tryDepart => some (s.depart.goto t .idle)
  | .rdUnlock => some (s.depart.goto t .idle)
  | .barrier w => some (s.goto t (if 0 < s.barrier then w.busy (.barrier w) else .acquire w))
  | .acquire w =>
    if s.lock then some (s.goto t (w.busy (.acquire w)))
    else some { s.goto t (if w = .tryupgrade then .upDepart else .loadEgress w) with lock := true }
  | .upDepart => some (s.depart.goto t (.loadEgress .tryupgrade))
  | .loadEgress w => some (s.goto t (.loadIngress w s.egress))
  | .loadIngress w egress =>
    some (s.goto t (if egress % 2 ^ width = s.ingress % 2 ^ width then .writing
      else
        match w with
        | .wrlock => .loadEgress .wrlock
        | .trywrlock => .tryRelease
        | .tryupgrade => .upArrive))
  | .upArrive => some (s.arrive.goto t .upRelease)
  | .upRelease => some (s.release.goto t .reading)
  | .tryRelease => some (s.release.goto t .idle)
  | .wrUnlock => some (s.release.goto t .idle)
  | .dgArrive => some (s.arrive.goto t .dgRelease)
  | .dgRelease => some (s.release.goto t .reading)
  | .idle | .reading | .writing => none

/-- One step; `none` if it is not possible. -/
def step (width : Nat) (s : State) : Op → Option State
  | .call t f =>
    match s.threads[t]? with
    | none => none
    | some c => (f.begin c).map (s.goto t)
  | .run t =>
    match s.threads[t]? with
    | none => none
    | some c => advance width s t c
  | .spurious t =>
    match s.threads[t]? with
    | some (.acquire w) => some (s.goto t (w.busy (.acquire w)))
    | _ => none

end OqsBind.Isc.Rwlock
