import Mathlib.Algebra.Ring.Nat

/-! Programs of many agents that take turns, and numbers that are summed up over the agents. -/

namespace OqsBind.Agents

section
variable {σ ω : Type} (step : σ → ω → Option σ)

/-- `P` holds in each state of the run. A step that is not possible ends it. -/
def Always (P : σ → Prop) (s : σ) : List ω → Prop
  | [] => P s
  | op :: ops => P s ∧ ∀ s', step s op = some s' → Always P s' ops

/-- `M` holds of each step of the run. -/
def EachStep (M : σ → ω → Prop) (s : σ) : List ω → Prop
  | [] => True
  | op :: ops => ∀ s', step s op = some s' → M s op ∧ EachStep M s' ops

variable {step} {P Q Inv : σ → Prop} {M : σ → ω → Prop} {s : σ} {ops : List ω}

theorem EachStep.cons {s' : σ} {op : ω} (hstep : step s op = some s') (hop : M s op) (h : EachStep step M s' ops) :
    EachStep step M s (op :: ops) := by
  intro s'' hs''
  obtain rfl := Option.some.inj (hstep.symm.trans hs'')
  exact ⟨hop, h⟩

/-- An invariant that steps with `M` keep holds as long as all steps are such. -/
theorem EachStep.always (hkept : ∀ s op s', Inv s → M s op → step s op = some s' → Inv s') (h : EachStep step M s ops)
    (hinv : Inv s) : Always step Inv s ops := by
  induction ops generalizing s with
  | nil => exact hinv
  | cons op ops ih =>
    refine ⟨hinv, fun s' hs' => ?_⟩
    obtain ⟨hop, hrest⟩ := h s' hs'
    exact ih hrest (hkept s op s' hinv hop hs')

theorem EachStep.of_forall (h : ∀ s op, M s op) : EachStep step M s ops := by
  induction ops generalizing s with
  | nil => trivial
  | cons op ops ih => exact fun s' _ => ⟨h s op, ih⟩

/-- An invariant that every step keeps holds all the time. -/
theorem Always.of_kept (hkept : ∀ s op s', Inv s → step s op = some s' → Inv s') (hinv : Inv s) : Always step Inv s ops :=
  (EachStep.of_forall (M := fun _ _ => True) fun _ _ => trivial).always (fun s op s' hs _ => hkept s op s' hs) hinv

theorem Always.mono (hPQ : ∀ s, P s → Q s) (h : Always step P s ops) : Always step Q s ops := by
  induction ops generalizing s with
  | nil => exact hPQ s h
  | cons op ops ih => exact ⟨hPQ s h.1, fun s' hs' => ih (h.2 s' hs')⟩

end

section
variable {α : Type} {f g : α → Nat} {l : List α} {a : α}

/-- The sum over all agents. -/
def total (f : α → Nat) (l : List α) : Nat := (l.map f).sum

@[simp] theorem total_nil (f : α → Nat) : total f [] = 0 := rfl

@[simp] theorem total_cons (f : α → Nat) (a : α) (l : List α) : total f (a :: l) = f a + total f l := by
  simp [total]

theorem total_append (f : α → Nat) (l l' : List α) : total f (l ++ l') = total f l + total f l' := by
  simp [total]

theorem total_snoc (f : α → Nat) (l : List α) (a : α) : total f (l ++ [a]) = total f l + f a := by
  rw [total_append, total_cons, total_nil, Nat.add_zero]

theorem total_set (f : α → Nat) (b : α) : ∀ {l : List α} {i : Nat}, l[i]? = some a →
    total f (l.set i b) + f a = total f l + f b
  | [], i, h => nomatch h
  | x :: l, 0, h => by
    cases h
    simp
    omega
  | x :: l, i + 1, h => by
    have ih := total_set f b (l := l) (i := i) h
    simp
    omega

theorem total_eq_zero_iff : total f l = 0 ↔ ∀ a ∈ l, f a = 0 := by
  induction l with
  | nil => simp
  | cons a l ih => rw [total_cons, Nat.add_eq_zero_iff, ih, List.forall_mem_cons]

theorem le_total (h : a ∈ l) : f a ≤ total f l := by
  induction l with
  | nil => cases h
  | cons b l ih =>
    rcases List.mem_cons.mp h with rfl | hmem
    · exact Nat.le_add_right _ _
    · exact Nat.le_add_left_of_le (ih hmem)

theorem add_le_total : ∀ {l : List α} {i j : Nat} {a b : α}, i ≠ j → l[i]? = some a → l[j]? = some b → f a + f b ≤ total f l
  | [], _, _, _, _, _, ha, _ => nomatch ha
  | x :: l, 0, 0, a, b, hne, _, _ => absurd rfl hne
  | x :: l, 0, j + 1, a, b, _, ha, hb => by
    cases ha
    have hmem : b ∈ l := List.mem_of_getElem? hb
    exact Nat.add_le_add_left (le_total hmem) _
  | x :: l, i + 1, 0, a, b, _, ha, hb => by
    cases hb
    have hmem : a ∈ l := List.mem_of_getElem? ha
    rw [Nat.add_comm]
    exact Nat.add_le_add_left (le_total hmem) _
  | x :: l, i + 1, j + 1, a, b, hne, ha, hb => by
    exact Nat.le_add_left_of_le (add_le_total (fun h => hne (congrArg (· + 1) h)) ha hb)

theorem total_le_total (h : ∀ a, f a ≤ g a) : total f l ≤ total g l := by
  induction l with
  | nil => exact Nat.le_refl _
  | cons a l ih =>
    simpa using Nat.add_le_add (h a) ih

end

end OqsBind.Agents
