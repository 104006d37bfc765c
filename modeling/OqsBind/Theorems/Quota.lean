import OqsBind.Isc.Quota
import OqsBind.Lib.Agents
import Mathlib.Order.Nat
import Mathlib.Tactic.ByContra

/-! Accounts of a quota. The counter is the number of grants and of the calls that have counted themselves. A job that is
    queued when nobody is left who looks at the queue waits for ever. -/

namespace OqsBind.Isc.Quota
open Agents State

variable {Job : Type} {max soft : Nat} {s s' : State Job}

/-- The call is counted. -/
def counted : Call Job → Nat
  | .loadMax _ _ | .refuse _ | .loadSoft _ | .release | .free | .call _ => 1
  | _ => 0

/-- The call has a place among the `max`. -/
def placed (max : Nat) : Call Job → Nat
  | .loadMax _ used => if used < max then 1 else 0
  | .loadSoft _ | .release | .free | .call _ => 1
  | _ => 0

/-- The call has a place, and its place will be a grant, or its release looks at the queue. -/
def looking (max : Nat) : Call Job → Nat
  | .free => 0
  | c => placed max c

/-- The call has taken the job from the queue. -/
def taken [DecidableEq Job] (job : Job) : Call Job → Nat
  | .call job' => if job' = job then 1 else 0
  | _ => 0

theorem placed_le_counted (max : Nat) (c : Call Job) : placed max c ≤ counted c := by
  cases c with
  | loadMax job used =>
    simp only [placed, counted]
    split <;> omega
  | refuse job => exact Nat.zero_le 1
  | _ => exact le_rfl

variable {c : Call Job}

theorem counted_of_done (h : c.done = true) : counted c = 0 := by
  cases c with
  | acquired | released => rfl
  | _ => cases h

theorem looking_of_done (max : Nat) (h : c.done = true) : looking max c = 0 := by
  cases c with
  | acquired | released => rfl
  | _ => cases h

section
variable [DecidableEq Job]

/-- The counter, the places, and the jobs add up. -/
structure Inv (max : Nat) (s : State Job) : Prop where
  used : s.used = s.grants + total counted s.calls
  places : s.grants + total (placed max) s.calls ≤ max
  insist : s.insist = false
  jobs : ∀ job, s.called.count job + total (taken job) s.calls + s.queue.count job = s.queued.count job

theorem inv_init (max : Nat) : Inv max (.init Job) where
  used := rfl
  places := Nat.zero_le max
  insist := rfl
  jobs := fun _ => rfl

variable {i : Nat} {c : Call Job}

/-- Call `i` moves from `c` to `d`, and the other numbers change with it. -/
theorem Inv.move (h : Inv max s) (hc : s.calls[i]? = some c) (d : Call Job)
    (hcalls : s'.calls = s.calls.set i d) (hused : s'.used + s.grants + counted c = s.used + s'.grants + counted d)
    (hplaces : s'.grants + total (placed max) s.calls + placed max d ≤ max + placed max c) (hinsist : s'.insist = false)
    (hjobs : ∀ job, s'.called.count job + taken job d + s'.queue.count job + s.queued.count job =
      s.called.count job + taken job c + s.queue.count job + s'.queued.count job) : Inv max s' := by
  have htotal := h.used
  refine ⟨?_, ?_, hinsist, fun job => ?_⟩
  · have hset := total_set counted d hc
    rw [hcalls]
    omega
  · have hset := total_set (placed max) d hc
    rw [hcalls]
    omega
  · have hset := total_set (taken job) d hc
    have hjob := h.jobs job
    have hjob' := hjobs job
    rw [hcalls]
    omega

theorem Inv.places_lt_of_used (h : Inv max s) (hlt : s.used < max) :
    s.grants + total (placed max) s.calls < max := by
  have hle : total (placed max) s.calls ≤ total counted s.calls := total_le_total (placed_le_counted max)
  have hused := h.used
  omega

theorem Inv.used_pos (h : Inv max s) (hc : s.calls[i]? = some c) (hcounted : counted c = 1) : 0 < s.used := by
  have hle : counted c ≤ total counted s.calls := le_total (List.mem_of_getElem? hc)
  have hused := h.used
  omega

theorem Inv.advance (hmax : 0 < max) (h : Inv max s) (hc : s.calls[i]? = some c)
    (hs : advance max soft s i c = some s') : Inv max s' := by
  have hplaces := h.places
  cases c with
  | acquire job =>
    cases hs
    refine h.move hc (.loadMax job s.used) rfl ?_ ?_ h.insist fun _ => rfl
    · simp only [goto, counted]
      omega
    · have hlt := h.places_lt_of_used
      simp only [goto, placed]
      split <;> omega
  | loadMax job used =>
    cases hs
    split
    · refine h.move hc (.refuse job) rfl rfl ?_ h.insist fun _ => rfl
      simp only [goto, placed]
      omega
    · refine h.move hc (.loadSoft used) rfl rfl ?_ h.insist fun _ => rfl
      have hlt : used < max := by omega
      simp only [goto, placed, if_pos hlt]
      omega
  | refuse job =>
    have hpos := h.used_pos hc rfl
    cases job with
    | none =>
      cases hs
      refine h.move hc (.acquired .quota) rfl ?_ hplaces h.insist fun _ => rfl
      simp only [goto, counted]
      omega
    | some job =>
      cases hs
      refine h.move hc (.enqueue job) rfl ?_ hplaces h.insist fun _ => rfl
      simp only [goto, counted]
      omega
  | enqueue job =>
    cases hs
    refine h.move hc (.acquired .quota) rfl rfl hplaces h.insist fun job' => ?_
    simp [goto, taken]
    omega
  | loadSoft used =>
    cases hs
    refine h.move hc (.acquired _) rfl ?_ ?_ h.insist fun _ => rfl
    · simp only [goto, counted]
      omega
    · simp only [placed]
      omega
  | acquired result => cases hs
  | release =>
    rw [Quota.advance] at hs
    split at hs
    · cases hs
      exact h.move hc .free rfl rfl (Nat.add_le_add_right hplaces 1) h.insist fun _ => rfl
    · rename_i job queue hqueue
      cases hs
      refine h.move hc (.call job) rfl rfl (Nat.add_le_add_right hplaces 1) h.insist fun job' => ?_
      simp only [goto, taken, hqueue, List.count_cons, beq_iff_eq]
      omega
  | free =>
    have hpos := h.used_pos hc rfl
    cases hs
    refine h.move hc .released rfl ?_ ?_ ?_ fun _ => rfl
    · simp only [goto, counted]
      omega
    · simp only [goto, placed]
      omega
    · have hne : (s.used == 0) = false := beq_eq_false_iff_ne.mpr (Nat.ne_of_gt hpos)
      simp only [h.insist, hne, Bool.or_self]
  | call job =>
    cases hs
    refine h.move hc .calling rfl ?_ ?_ h.insist fun job' => ?_
    · simp only [goto, counted]
      omega
    · simp only [placed]
      omega
    · simp only [goto, taken, List.count_append, List.count_singleton, beq_iff_eq]
      omega
  | calling =>
    cases hs
    exact h.move hc .released rfl rfl hplaces h.insist fun _ => rfl
  | released => cases hs

theorem Inv.begin (h : Inv max s) {d : Call Job} {grants : Nat} (hcounted : s.grants = grants + counted d)
    (hplaced : placed max d ≤ counted d) (htaken : ∀ job, taken job d = 0) :
    Inv max { s with grants, calls := s.calls ++ [d] } := by
  have hused := h.used
  have hplaces := h.places
  refine ⟨?_, ?_, h.insist, fun job => ?_⟩
  · simp only [total_snoc]
    omega
  · simp only [total_snoc]
    omega
  · simpa [total_snoc, htaken] using h.jobs job

theorem Inv.step (hmax : 0 < max) {op : Op Job} (h : Inv max s) (hs : step max soft s op = some s') : Inv max s' := by
  cases op with
  | acquire job =>
    cases hs
    exact h.begin rfl (le_refl 0) fun _ => rfl
  | release =>
    rw [Quota.step] at hs
    split at hs
    · cases hs
    · cases hs
      refine h.begin ?_ (le_refl 1) fun _ => rfl
      simp only [counted]
      omega
  | run i =>
    rw [Quota.step] at hs
    split at hs
    · cases hs
    · rename_i c hc
      exact h.advance hmax hc hs

/-- The accounts of the quota, as a caller sees them. -/
structure Accounted (max : Nat) (s : State Job) : Prop where
  grants : s.grants ≤ max
  insist : s.insist = false
  called : ∀ job, s.called.count job ≤ s.queued.count job
  used : s.Quiet → s.used = 0

theorem Inv.accounted (h : Inv max s) : Accounted max s where
  grants := (Nat.le_add_right ..).trans h.places
  insist := h.insist
  called job := by
    have hjobs := h.jobs job
    omega
  used := by
    rintro ⟨hgrants, hdone⟩
    rw [h.used, hgrants, total_eq_zero_iff.mpr fun c hc => counted_of_done (hdone c hc)]

end

/-- The number of grants and of calls that will become one or look at the queue. -/
def lookers (max : Nat) (s : State Job) : Nat := s.grants + total (looking max) s.calls

/-- Somebody looks at the queue after a job has been put there. -/
def Timely (max : Nat) (s : State Job) : Op Job → Prop
  | .run i => ∀ job, s.calls[i]? = some (.enqueue job) → 0 < lookers max s
  | _ => True

/-- A waiting job will be seen. -/
def Seen (max : Nat) (s : State Job) : Prop := s.queue ≠ [] → 0 < lookers max s

variable {i : Nat}

theorem lookers_move {d : Call Job} (hc : s.calls[i]? = some c) (hcalls : s'.calls = s.calls.set i d)
    (hle : s.grants + looking max c ≤ s'.grants + looking max d) : lookers max s ≤ lookers max s' := by
  have hset := total_set (looking max) d hc
  unfold lookers
  rw [hcalls]
  omega

theorem lookers_advance (hc : s.calls[i]? = some c)
    (hs : advance max soft s i c = some s') : lookers max s ≤ lookers max s' ∨ s'.queue = [] := by
  cases c with
  | acquire job =>
    cases hs
    exact .inl (lookers_move hc rfl (Nat.le_add_right ..))
  | loadMax job used =>
    cases hs
    refine .inl (lookers_move hc rfl ?_)
    split
    · rename_i hge
      simp only [goto, looking, placed, if_neg (Nat.not_lt.mpr hge.2)]
      exact le_rfl
    · simp only [goto, looking, placed]
      split <;> omega
  | refuse job =>
    cases job <;> cases hs <;> exact .inl (lookers_move hc rfl le_rfl)
  | enqueue | loadSoft | free | call | calling =>
    cases hs
    exact .inl (lookers_move hc rfl le_rfl)
  | acquired result => cases hs
  | release =>
    rw [advance] at hs
    split at hs
    · rename_i hqueue
      cases hs
      exact .inr hqueue
    · cases hs
      exact .inl (lookers_move hc rfl le_rfl)
  | released => cases hs

theorem queue_advance (hs : advance max soft s i c = some s') (hqueue : s'.queue ≠ []) :
    s.queue ≠ [] ∨ ∃ job, c = .enqueue job := by
  cases c with
  | enqueue job => exact .inr ⟨job, rfl⟩
  | release =>
    rw [advance] at hs
    split at hs
    · cases hs
      exact .inl hqueue
    · rename_i heq
      exact .inl (heq ▸ List.cons_ne_nil _ _)
  | refuse job => cases job <;> cases hs <;> exact .inl hqueue
  | acquired | released => cases hs
  | _ =>
    cases hs
    exact .inl hqueue

theorem Seen.step {op : Op Job} (h : Seen max s) (hop : Timely max s op)
    (hs : step max soft s op = some s') : Seen max s' := by
  cases op with
  | acquire job =>
    cases hs
    intro hqueue
    have hpos := h hqueue
    unfold lookers at hpos ⊢
    simp only [total_snoc]
    omega
  | release =>
    rw [Quota.step] at hs
    split at hs
    · cases hs
    · cases hs
      intro _
      unfold lookers
      simp only [total_snoc, looking, placed]
      omega
  | run i =>
    rw [Quota.step] at hs
    split at hs
    · cases hs
    · rename_i c hc
      intro hqueue
      have hpos : 0 < lookers max s := by
        rcases queue_advance hs hqueue with hne | ⟨job, rfl⟩
        · exact h hne
        · exact hop job hc
      rcases lookers_advance hc hs with hle | hempty
      · exact hpos.trans_le hle
      · exact absurd hempty hqueue

theorem Seen.queue_eq_nil (h : Seen max s) (hquiet : s.Quiet) : s.queue = [] := by
  obtain ⟨hgrants, hdone⟩ := hquiet
  have hzero : lookers max s = 0 := by
    unfold lookers
    rw [hgrants, total_eq_zero_iff.mpr fun c hc => looking_of_done max (hdone c hc)]
  by_contra hne
  have hpos := h hne
  omega

/-- The accounts of a quota are right in every run. No job waits for ever in the runs in which each job is queued while
    somebody has a grant, or a call that will get one or has yet to look at the queue. -/
theorem quota_run [DecidableEq Job] (hmax : 0 < max) (soft : Nat) (ops : List (Op Job)) :
    Always (step max soft) (Accounted max) (.init Job) ops ∧
    (EachStep (step max soft) (Timely max) (.init Job) ops →
      Always (step max soft) (fun s => s.Quiet → s.queue = []) (.init Job) ops) := by
  constructor
  · exact (Always.of_kept (fun _ _ _ h hs => h.step hmax hs) (inv_init max)).mono fun _ h => h.accounted
  · intro htimely
    have hstart : Seen max (.init Job) := fun h => absurd rfl h
    exact (htimely.always (fun _ _ _ h hop hs => h.step hop hs) hstart).mono fun _ h => h.queue_eq_nil

/-- A job is queued while a grant is outstanding; the release of that grant calls it, and is followed by its own release. -/
def handover : List (Op Nat) :=
  [.acquire none, .run 0, .run 0, .run 0, .acquire (some 7), .run 1, .run 1, .run 1, .run 1, .release, .run 2, .run 2, .run 2,
    .release, .run 3, .run 3]

theorem handover_quiet : EachStep (step 1 0) (Timely 1) (.init Nat) handover ∧
    Always (step 1 0) (fun s => s.Quiet → s.queue = []) (.init Nat) handover := by
  have htimely : EachStep (step 1 0) (Timely 1) (.init Nat) handover := by
    simp [handover, EachStep, step, advance, init, goto, Timely, lookers, looking, placed]
  exact ⟨htimely, (quota_run (by decide) 0 handover).2 htimely⟩

/-- A call is refused and gives its count back, but before it queues its job the only grant is released. -/
def lateJob : List (Op Nat) :=
  [.acquire none, .run 0, .run 0, .run 0, .acquire (some 7), .run 1, .run 1, .run 1, .release, .run 2, .run 2, .run 1]

theorem late_job_stranded : ∃ s, lateJob.foldlM (step 1 0) (.init Nat) = some s ∧ s.Quiet ∧ s.queue = [7] := by
  refine ⟨_, rfl, ⟨rfl, ?_⟩, rfl⟩
  decide

end OqsBind.Isc.Quota
