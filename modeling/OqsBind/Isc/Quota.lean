import Mathlib.Init

/-! Quotas (`quota.c`). A call is at some place between its operations on the counter and on the queue. The counter is a
    number: as many calls at a time as `uint_fast32_t` has values would make it overflow. -/

namespace OqsBind.Isc.Quota

inductive Result where
  | success | softquota | quota
deriving DecidableEq, Repr

/-- The operation that a call does next. -/
inductive Call (Job : Type) where
  /-- `isc_quota_acquire_cb`: `atomic_fetch_add_relaxed`. -/
  | acquire (job : Option Job)
  /-- `atomic_load_relaxed` of the maximum; the counter was `used`. -/
  | loadMax (job : Option Job) (used : Nat)
  /-- `atomic_fetch_sub_relaxed` after a refusal. -/
  | refuse (job : Option Job)
  | enqueue (job : Job)
  /-- `atomic_load_relaxed` of the soft limit. -/
  | loadSoft (used : Nat)
  | acquired (result : Result)
  /-- `isc_quota_release`: `cds_wfcq_dequeue_blocking`. -/
  | release
  /-- `atomic_fetch_sub_relaxed`, since the queue was empty. -/
  | free
  | call (job : Job)
  | calling
  | released
deriving DecidableEq, Repr

structure State (Job : Type) where
  used : Nat
  queue : List Job
  calls : List (Call Job)
  grants : Nat
  queued : List Job
  called : List Job
  insist : Bool
deriving DecidableEq, Repr

/-- `isc_quota_init`. -/
def State.init (Job : Type) : State Job := ⟨0, [], [], 0, [], [], false⟩

inductive Op (Job : Type) where
  | acquire (job : Option Job)
  | release
  | run (i : Nat)
deriving DecidableEq, Repr

section
variable {Job : Type}

/-- Call `i` goes on with `c`. -/
def State.goto (s : State Job) (i : Nat) (c : Call Job) : State Job := { s with calls := s.calls.set i c }

/-- The next operation of call `i`. -/
def advance (max soft : Nat) (s : State Job) (i : Nat) : Call Job → Option (State Job)
  | .acquire job => some { s.goto i (.loadMax job s.used) with used := s.used + 1 }
  | .loadMax job used => some (s.goto i (if max ≠ 0 ∧ max ≤ used then .refuse job else .loadSoft used))
  | .refuse none => some { s.goto i (.acquired .quota) with used := s.used - 1 }
  | .refuse (some job) => some { s.goto i (.enqueue job) with used := s.used - 1 }
  | .enqueue job =>
    some { s.goto i (.acquired .quota) with queue := s.queue ++ [job], queued := s.queued ++ [job] }
  | .loadSoft used =>
    some { s.goto i (.acquired (if soft ≠ 0 ∧ soft ≤ used then .softquota else .success)) with grants := s.grants + 1 }
  | .release =>
    match s.queue with
    | [] => some (s.goto i .free)
    | job :: queue => some { s.goto i (.call job) with queue }
  | .free => some { s.goto i .released with used := s.used - 1, insist := s.insist || s.used == 0 }
  | .call job => some { s.goto i .calling with grants := s.grants + 1, called := s.called ++ [job] }
  | .calling => some (s.goto i .released)
  | .acquired _ | .released => none

/-- One step; `none` if the call has returned, or there is no grant to release. -/
def step (max soft : Nat) (s : State Job) : Op Job → Option (State Job)
  | .acquire job => some { s with calls := s.calls ++ [.acquire job] }
  | .release => if s.grants = 0 then none else some { s with grants := s.grants - 1, calls := s.calls ++ [.release] }
  | .run i =>
    match s.calls[i]? with
    | none => none
    | some c => advance max soft s i c

/-- The call has returned. -/
def Call.done : Call Job → Bool
  | .acquired _ | .released => true
  | _ => false

/-- No call is in progress and no grant is outstanding. -/
def State.Quiet (s : State Job) : Prop := s.grants = 0 ∧ ∀ c ∈ s.calls, c.done = true

end

end OqsBind.Isc.Quota
