import Mathlib.Logic.Basic

/-! Fallible programs: `x` fails only with an error that satisfies `ok`, and what it returns satisfies `Q`. -/

namespace OqsBind

variable {ε α β : Type} {ok : ε → Prop} {x : Except ε α} {Q R : α → Prop}

def Checked (ok : ε → Prop) (x : Except ε α) (Q : α → Prop) : Prop :=
  match x with
  | .ok a => Q a
  | .error e => ok e

/-- A program that returns did so step by step. -/
theorem bind_ok {f : α → Except ε β} {b : β} (h : x >>= f = .ok b) : ∃ a, x = .ok a ∧ f a = .ok b := by
  cases x with
  | error e => cases h
  | ok a => exact ⟨a, rfl, h⟩

theorem map_ok {f : α → β} {b : β} (h : x.map f = .ok b) : ∃ a, x = .ok a ∧ f a = b := by
  cases x with
  | error e => cases h
  | ok a => exact ⟨a, rfl, Except.ok.inj h⟩

/-- A loop that returned kept what each round keeps; `I` may depend on the rounds that are left. -/
theorem foldlM_rounds {f : α → β → Except ε α} {I : List β → α → Prop}
    (hf : ∀ b l a a', I (b :: l) a → f a b = .ok a' → I l a') :
    ∀ {l : List β} {a a' : α}, I l a → l.foldlM f a = .ok a' → I [] a'
  | [], _, _, h, hrun => by
    cases hrun
    exact h
  | b :: l, a, a', h, hrun => by
    obtain ⟨a1, hone, hrun⟩ := bind_ok hrun
    exact foldlM_rounds hf (hf b l a a1 h hone) hrun

theorem foldlM_kept {f : α → β → Except ε α} {I : α → Prop} :
    ∀ {l : List β} {a a' : α}, (∀ b ∈ l, ∀ a a', I a → f a b = .ok a' → I a') → I a → l.foldlM f a = .ok a' → I a'
  | [], _, _, _, h, hrun => by
    cases hrun
    exact h
  | b :: l, a, a', hf, h, hrun => by
    obtain ⟨a1, hone, hrun⟩ := bind_ok hrun
    exact foldlM_kept (fun b' hb' => hf b' (.tail _ hb')) (hf b (.head _) a a1 h hone) hrun

namespace Checked

theorem pure {a : α} (h : Q a) : Checked ok (Pure.pure a) Q := h

theorem bind {f : α → Except ε β} {P : β → Prop} (hx : Checked ok x Q) (hf : ∀ a, Q a → Checked ok (f a) P) :
    Checked ok (x >>= f) P := by
  cases x with
  | error e => exact hx
  | ok a => exact hf a hx

theorem mono (hx : Checked ok x Q) (h : ∀ a, Q a → R a) : Checked ok x R := by
  cases x with
  | error e => exact hx
  | ok a => exact h a hx

theorem weaken {ok' : ε → Prop} (hx : Checked ok x Q) (h : ∀ e, ok e → ok' e) : Checked ok' x Q := by
  cases x with
  | error e => exact h e hx
  | ok a => exact hx

theorem ite {c : Prop} [Decidable c] {y : Except ε α} (hx : c → Checked ok x Q) (hy : ¬c → Checked ok y Q) :
    Checked ok (if c then x else y) Q := by
  by_cases h : c
  · rw [if_pos h]
    exact hx h
  · rw [if_neg h]
    exact hy h

theorem of_ok {a : α} (hx : Checked ok x Q) (h : x = .ok a) : Q a := by
  subst h
  exact hx

theorem of_error {e : ε} (hx : Checked ok x Q) (h : x = .error e) : ok e := by
  subst h
  exact hx

theorem exists_ok (hx : Checked ok x Q) (h : ∀ e, ¬ok e) : ∃ a, x = .ok a ∧ Q a := by
  cases x with
  | error e => exact absurd hx (h e)
  | ok a => exact ⟨a, rfl, hx⟩

/-- A loop keeps what each round keeps; `I` may depend on the rounds that are left. -/
theorem foldlM {f : α → β → Except ε α} {I : List β → α → Prop}
    (hf : ∀ b l a, I (b :: l) a → Checked ok (f a b) (I l)) :
    ∀ {l : List β} {a : α}, I l a → Checked ok (l.foldlM f a) (I [])
  | [], _, h => h
  | b :: l, a, h => by
    simpa using bind (hf b l a h) fun _ h' => foldlM hf h'

end Checked

end OqsBind
