import Mathlib.Data.List.Lex
import Mathlib.Order.Bounds.Basic

/-! Paths of a tree: lists that are compared element by element from the root, a path before those that go on from it.
    What two paths have in common is the length of their longest common prefix. Between two paths lie only paths that have
    at least as much in common with either (`common_le_of_le`), so what is below a path lies together. -/

namespace OqsBind.Lib
open List

variable {α : Type} [LinearOrder α]

/-- The length of the longest common prefix. -/
def common : List α → List α → Nat
  | a :: as, b :: bs => if a = b then common as bs + 1 else 0
  | [], _ => 0
  | _ :: _, [] => 0

@[simp] theorem common_nil_left (b : List α) : common [] b = 0 := by rfl

@[simp] theorem common_nil_right (a : List α) : common a [] = 0 := by cases a <;> rfl

theorem common_cons (a b : α) (as bs : List α) :
    common (a :: as) (b :: bs) = if a = b then common as bs + 1 else 0 := rfl

theorem common_comm (a b : List α) : common a b = common b a := by
  induction a generalizing b with
  | nil => simp
  | cons x a ih =>
    cases b with
    | nil => simp
    | cons y b => simp only [common_cons, ih b, eq_comm (a := x)]

variable {a b : List α}

theorem le_common_iff {n : Nat} : n ≤ common a b ↔ n ≤ a.length ∧ a.take n <+: b := by
  induction a generalizing b n with
  | nil => simp
  | cons x a ih =>
    cases n with
    | zero => simp
    | succ n =>
      cases b with
      | nil => simp
      | cons y b =>
        rw [common_cons]
        by_cases hxy : x = y
        · simp [hxy, ih]
        · simp [hxy]

theorem common_le_left (a b : List α) : common a b ≤ a.length := (le_common_iff.mp le_rfl).1

theorem common_le_right (a b : List α) : common a b ≤ b.length := common_comm a b ▸ common_le_left b a

theorem take_common (a b : List α) : a.take (common a b) = b.take (common a b) := by
  have hpre := (le_common_iff.mp (le_refl (common a b))).2
  rw [prefix_iff_eq_take] at hpre
  rw [hpre, length_take, min_eq_left (common_le_left a b)]

theorem prefix_iff_common : a <+: b ↔ common a b = a.length := by
  constructor
  · intro h
    refine le_antisymm (common_le_left a b) (le_common_iff.mpr ⟨le_rfl, ?_⟩)
    rwa [take_length]
  · intro h
    have hpre := (le_common_iff.mp h.ge).2
    rwa [take_length] at hpre

theorem eq_iff_common : a = b ↔ common a b = a.length ∧ a.length = b.length := by
  constructor
  · rintro rfl
    exact ⟨prefix_iff_common.mp (prefix_refl a), rfl⟩
  · rintro ⟨hcommon, hlen⟩
    exact (prefix_iff_common.mpr hcommon).eq_of_length hlen

theorem properPrefix_iff_common : (a <+: b ∧ a ≠ b) ↔ common a b = a.length ∧ a.length < b.length := by
  rw [ne_eq, eq_iff_common, prefix_iff_common]
  have hle := common_le_right a b
  constructor
  · rintro ⟨hcommon, hne⟩
    exact ⟨hcommon, lt_of_le_of_ne (hcommon ▸ hle) fun hlen => hne ⟨hcommon, hlen⟩⟩
  · rintro ⟨hcommon, hlt⟩
    exact ⟨hcommon, fun h => hlt.ne h.2⟩

/-- What two paths have in common is the longest path that leads to both. -/
theorem common_isGreatest (a b : List α) :
    IsGreatest {k | ∃ p : List α, p.length = k ∧ p <+: a ∧ p <+: b} (common a b) := by
  constructor
  · refine ⟨a.take (common a b), ?_, take_prefix .., ?_⟩
    · rw [length_take, min_eq_left (common_le_left a b)]
    · rw [take_common]
      exact take_prefix ..
  · rintro k ⟨p, rfl, ha, hb⟩
    refine le_common_iff.mpr ⟨ha.length_le, ?_⟩
    rwa [← prefix_iff_eq_take.mp ha]

variable {x y : α}

theorem cons_lt_cons : x :: a < y :: b ↔ x < y ∨ x = y ∧ a < b := cons_lt_cons_iff

theorem cons_le_cons : x :: a ≤ y :: b ↔ x < y ∨ x = y ∧ a ≤ b := by
  rw [le_iff_lt_or_eq, le_iff_lt_or_eq, cons_lt_cons, cons.injEq, or_assoc, and_or_left]

theorem nil_lt (x : α) (a : List α) : [] < x :: a := nil_lt_cons x a

theorem le_of_isPrefix (h : a <+: b) : a ≤ b := by
  obtain ⟨c, rfl⟩ := h
  induction a with
  | nil =>
    cases c with
    | nil => exact le_rfl
    | cons x c => exact (nil_lt x c).le
  | cons x a ih => exact cons_le_cons.mpr (.inr ⟨rfl, ih⟩)

omit [LinearOrder α] in
/-- What is strictly above a path is strictly above those that go on from it. -/
theorem ne_of_isPrefix {c : List α} (hab : a <+: b) (hne : a ≠ b) (hbc : b <+: c) : a ≠ c := by
  rintro rfl
  exact hne (hab.eq_of_length (le_antisymm hab.length_le hbc.length_le))

/-- A path between two others has at least as much in common with each of them as they have with one another. -/
theorem common_le_of_le {c : List α} (hab : a ≤ b) (hbc : b ≤ c) : common a c ≤ common a b ∧ common a c ≤ common b c := by
  induction a generalizing b c with
  | nil => simp
  | cons x a ih =>
    cases c with
    | nil => simp
    | cons z c =>
      cases b with
      | nil => exact absurd hab (not_le.mpr (nil_lt x a))
      | cons y b =>
        simp only [common_cons]
        by_cases hxz : x = z
        · subst hxz
          have hxy : x = y := by
            rcases cons_le_cons.mp hab with hlt | ⟨heq, -⟩
            · rcases cons_le_cons.mp hbc with hlt' | ⟨heq', -⟩
              · exact absurd (hlt.trans hlt') (lt_irrefl _)
              · exact heq'.symm
            · exact heq
          subst hxy
          have hab' : a ≤ b := by simpa [cons_le_cons] using hab
          have hbc' : b ≤ c := by simpa [cons_le_cons] using hbc
          simpa using ih hab' hbc'
        · simp [hxz]

theorem compares_cons {o o' : Ordering} (h : o.Compares x y) (h' : o'.Compares a b) :
    (o.then o').Compares (x :: a) (y :: b) := by
  cases o with
  | lt => exact cons_lt_cons.mpr (.inl h)
  | gt => exact cons_lt_cons.mpr (.inl h)
  | eq =>
    obtain rfl : x = y := h
    cases o' with
    | lt => exact cons_lt_cons.mpr (.inr ⟨rfl, h'⟩)
    | gt => exact cons_lt_cons.mpr (.inr ⟨rfl, h'⟩)
    | eq => exact congrArg (x :: ·) h'

section
variable {α : Type} {S T : List α → Prop} {c c' p q : List α}

/-- The longest path of a set; the empty one if there is none. -/
def IsLongest (S : List α → Prop) (c : List α) : Prop := (c = [] ∧ ∀ p, ¬ S p) ∨ (S c ∧ ∀ p, S p → p <+: c)

/-- The shortest path of a set; the empty one if there is none. -/
def IsShortest (S : List α → Prop) (c : List α) : Prop := (c = [] ∧ ∀ p, ¬ S p) ∨ (S c ∧ ∀ p, S p → c <+: p)

theorem IsLongest.unique (h : IsLongest S c) (h' : IsLongest S c') : c = c' := by
  rcases h with ⟨rfl, hnone⟩ | ⟨hc, hmax⟩
  · rcases h' with ⟨rfl, -⟩ | ⟨hc', -⟩
    · rfl
    · exact absurd hc' (hnone _)
  · rcases h' with ⟨-, hnone⟩ | ⟨hc', hmax'⟩
    · exact absurd hc (hnone _)
    · exact (hmax' c hc).eq_of_length (le_antisymm (hmax' c hc).length_le (hmax c' hc').length_le)

theorem IsShortest.unique (h : IsShortest S c) (h' : IsShortest S c') : c = c' := by
  rcases h with ⟨rfl, hnone⟩ | ⟨hc, hmin⟩
  · rcases h' with ⟨rfl, -⟩ | ⟨hc', -⟩
    · rfl
    · exact absurd hc' (hnone _)
  · rcases h' with ⟨-, hnone⟩ | ⟨hc', hmin'⟩
    · exact absurd hc (hnone _)
    · exact (hmin c' hc').eq_of_length (le_antisymm (hmin c' hc').length_le (hmin' c hc).length_le)

theorem IsLongest.congr (h : IsLongest S c) (hST : ∀ p, S p ↔ T p) : IsLongest T c := by
  have heq : S = T := funext fun p => propext (hST p)
  rwa [← heq]

theorem IsShortest.congr (h : IsShortest S c) (hST : ∀ p, S p ↔ T p) : IsShortest T c := by
  have heq : S = T := funext fun p => propext (hST p)
  rwa [← heq]

/-- A path is added that goes on from the longest one so far. -/
theorem IsLongest.replace (h : IsLongest S c) (hcp : c <+: p) : IsLongest (fun x => S x ∨ x = p) p := by
  refine .inr ⟨.inr rfl, ?_⟩
  rintro x (hx | rfl)
  · rcases h with ⟨-, hnone⟩ | ⟨-, hmax⟩
    · exact absurd hx (hnone x)
    · exact (hmax x hx).trans hcp
  · exact prefix_refl _

theorem IsLongest.keep (h : IsLongest S c) (hS : ∀ x, S x → x <+: q) (hp : p <+: q) (hcp : ¬ c <+: p) :
    IsLongest (fun x => S x ∨ x = p) c := by
  rcases h with ⟨rfl, -⟩ | ⟨hc, hmax⟩
  · exact absurd nil_prefix hcp
  · refine .inr ⟨.inl hc, ?_⟩
    rintro x (hx | rfl)
    · exact hmax x hx
    · exact (List.prefix_or_prefix_of_prefix hp (hS c hc)).resolve_right hcp

/-- A path is added from which the shortest one so far goes on. -/
theorem IsShortest.replace (h : IsShortest S c) (hpc : c = [] ∨ p <+: c) (hne : ∀ x, S x → x ≠ []) :
    IsShortest (fun x => S x ∨ x = p) p := by
  refine .inr ⟨.inr rfl, ?_⟩
  rintro x (hx | rfl)
  · rcases h with ⟨-, hnone⟩ | ⟨hc, hmin⟩
    · exact absurd hx (hnone x)
    · exact (hpc.resolve_left (hne c hc)).trans (hmin x hx)
  · exact prefix_refl _

theorem IsShortest.keep (h : IsShortest S c) (hS : ∀ x, S x → x <+: q) (hp : p <+: q) (hpc : ¬ (c = [] ∨ p <+: c)) :
    IsShortest (fun x => S x ∨ x = p) c := by
  rw [not_or] at hpc
  rcases h with ⟨rfl, -⟩ | ⟨hc, hmin⟩
  · exact absurd rfl hpc.1
  · refine .inr ⟨.inl hc, ?_⟩
    rintro x (hx | rfl)
    · exact hmin x hx
    · exact (List.prefix_or_prefix_of_prefix (hS c hc) hp).resolve_right hpc.2

end

end OqsBind.Lib
