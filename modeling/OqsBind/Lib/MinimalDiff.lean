import Mathlib.Data.List.Nodup

/-! Lists of changes in which a change that undoes an earlier one takes it back. If nothing is added that is there and
    nothing deleted that is not, such a list is the difference between what there was and what there is. -/

namespace OqsBind.MinimalDiff
open List Option

section
variable {τ κ : Type} [DecidableEq κ] (key : τ → κ) (adds : τ → Bool)

/-- The list with another change. -/
def append (diff : List τ) (t : τ) : List τ :=
  match diff.find? fun o => key o = key t with
  | none => diff ++ [t]
  | some o =>
    if adds o = adds t then (diff.eraseP fun o => key o = key t) ++ [t]
    else diff.eraseP fun o => key o = key t

/-- What the list says of a key: whether it is added or deleted. -/
def state (diff : List τ) (k : κ) : Option Bool := (diff.find? fun o => key o = k).map adds

/-- The list is the difference between `old` and `new`, as to the keys in `P`. -/
structure Exact (P old new : κ → Prop) (diff : List τ) : Prop where
  once : (diff.map key).Nodup
  added : ∀ k, P k → (state key adds diff k = some true ↔ new k ∧ ¬ old k)
  deleted : ∀ k, P k → (state key adds diff k = some false ↔ old k ∧ ¬ new k)

variable {key adds} {diff : List τ} {t : τ} {k : κ}

theorem state_eq_some {b : Bool} (honce : (diff.map key).Nodup) :
    state key adds diff k = some b ↔ ∃ t ∈ diff, key t = k ∧ adds t = b := by
  unfold state
  rw [map_eq_some_iff]
  constructor
  · rintro ⟨t, hfind, hb⟩
    exact ⟨t, mem_of_find?_eq_some hfind, by simpa using find?_some hfind, hb⟩
  · rintro ⟨t, ht, hk, hb⟩
    refine ⟨t, ?_, hb⟩
    obtain ⟨o, ho⟩ : ∃ o, diff.find? (fun o => key o = k) = some o :=
      isSome_iff_exists.mp (find?_isSome.mpr ⟨t, ht, by simpa using hk⟩)
    have hko : key o = k := by simpa using find?_some ho
    rw [ho, inj_on_of_nodup_map honce (mem_of_find?_eq_some ho) ht (hko.trans hk.symm)]

theorem append_of_none (h : state key adds diff (key t) = none) : append key adds diff t = diff ++ [t] := by
  unfold append
  rw [map_eq_none_iff.mp h]

theorem append_of_some {b : Bool} (h : state key adds diff (key t) = some b) : append key adds diff t =
    (diff.eraseP fun o => key o = key t) ++ if b = adds t then [t] else [] := by
  obtain ⟨o, hfind, rfl⟩ := map_eq_some_iff.mp h
  unfold append
  rw [hfind]
  dsimp only
  split_ifs <;> simp

theorem notMem_keys (h : state key adds diff k = none) : k ∉ diff.map key := by
  intro hk
  obtain ⟨t, ht, rfl⟩ := mem_map.mp hk
  have hnone := find?_eq_none.mp (map_eq_none_iff.mp h) t ht
  simp at hnone

theorem mem_eraseKey (honce : (diff.map key).Nodup) {o : τ} :
    o ∈ diff.eraseP (fun o => key o = k) ↔ o ∈ diff ∧ key o ≠ k := by
  induction diff with
  | nil => simp
  | cons x l ih =>
    obtain ⟨hx, hl⟩ := nodup_cons.mp honce
    by_cases hk : key x = k
    · rw [eraseP_cons_of_pos (by simpa using hk)]
      subst hk
      have hother : ∀ o ∈ l, key o ≠ key x := fun o ho heq => hx (heq ▸ mem_map_of_mem ho)
      simp only [mem_cons]
      constructor
      · exact fun ho => ⟨.inr ho, hother o ho⟩
      · rintro ⟨rfl | ho, hne⟩
        · exact absurd rfl hne
        · exact ho
    · rw [eraseP_cons_of_neg (by simpa using hk), mem_cons, mem_cons, ih hl]
      constructor
      · rintro (rfl | ⟨ho, hne⟩)
        · exact ⟨.inl rfl, hk⟩
        · exact ⟨.inr ho, hne⟩
      · rintro ⟨rfl | ho, hne⟩
        · exact .inl rfl
        · exact .inr ⟨ho, hne⟩

theorem append_once (honce : (diff.map key).Nodup) : ((append key adds diff t).map key).Nodup := by
  rcases hstate : state key adds diff (key t) with _ | b
  · rw [append_of_none hstate, map_append]
    refine nodup_append.mpr ⟨honce, nodup_singleton _, fun k hk k' hk' heq => ?_⟩
    rw [map_singleton, mem_singleton] at hk'
    exact notMem_keys hstate (hk' ▸ heq ▸ hk)
  · have hrest : ((diff.eraseP fun o => key o = key t).map key).Nodup :=
      honce.sublist (eraseP_sublist.map key)
    rw [append_of_some hstate, map_append]
    refine nodup_append.mpr ⟨hrest, ?_, fun k hk k' hk' heq => ?_⟩
    · split_ifs <;> simp
    · obtain ⟨o, ho, rfl⟩ := mem_map.mp hk
      obtain ⟨o', ho', rfl⟩ := mem_map.mp hk'
      split_ifs at ho'
      · rw [mem_singleton.mp ho'] at heq
        exact ((mem_eraseKey honce).mp ho).2 heq
      · cases ho'

theorem state_append (honce : (diff.map key).Nodup) (k : κ) : state key adds (append key adds diff t) k =
    if k = key t then
      if state key adds diff k = some (!adds t) then none else some (adds t)
    else state key adds diff k := by
  have hmem : ∀ b, state key adds (append key adds diff t) k = some b ↔
      ∃ o ∈ append key adds diff t, key o = k ∧ adds o = b := fun b => state_eq_some (append_once honce)
  -- the changes of the new list, by those of the old one
  have hnew : ∀ o, o ∈ append key adds diff t ↔
      o ∈ diff ∧ key o ≠ key t ∨ o = t ∧ state key adds diff (key t) ≠ some (!adds t) := by
    intro o
    rcases hstate : state key adds diff (key t) with _ | b
    · rw [append_of_none hstate, mem_append, mem_singleton]
      have hother : o ∈ diff → key o ≠ key t := fun ho heq => notMem_keys hstate (heq ▸ mem_map_of_mem ho)
      simp only [ne_eq, reduceCtorEq, not_false_eq_true, and_true]
      tauto
    · rw [append_of_some hstate, mem_append, mem_eraseKey honce]
      cases b <;> cases adds t <;> simp
  apply ext
  intro b
  rw [hmem]
  split_ifs with hk hback
  · subst hk
    simp only [iff_false, not_exists, not_and]
    intro o ho hko
    rcases (hnew o).mp ho with ⟨-, hne⟩ | ⟨rfl, hne⟩
    · exact absurd hko hne
    · exact absurd hback hne
  · subst hk
    rw [some.injEq]
    constructor
    · rintro ⟨o, ho, hko, rfl⟩
      rcases (hnew o).mp ho with ⟨-, hne⟩ | ⟨rfl, -⟩
      · exact absurd hko hne
      · rfl
    · rintro rfl
      exact ⟨t, (hnew t).mpr (.inr ⟨rfl, hback⟩), rfl, rfl⟩
  · rw [state_eq_some honce]
    refine exists_congr fun o => and_congr_left fun ho => ?_
    rw [hnew o]
    constructor
    · rintro (⟨ho, -⟩ | ⟨rfl, -⟩)
      · exact ho
      · exact absurd ho.1.symm hk
    · exact fun hin => .inl ⟨hin, fun heq => hk (ho.1 ▸ heq)⟩

variable {P old new new' : κ → Prop}

theorem Exact.nil (P old : κ → Prop) : Exact key adds P old old [] :=
  ⟨nodup_nil, fun k _ => by simp [state], fun k _ => by simp [state]⟩

section
variable (h : Exact key adds P old new diff)
include h

theorem Exact.add (hadds : adds t = true) (hfresh : ¬ new (key t))
    (hnew : ∀ k, P k → (new' k ↔ new k ∨ k = key t)) : Exact key adds P old new' (append key adds diff t) := by
  refine ⟨append_once h.once, fun k hk => ?_, fun k hk => ?_⟩ <;> rw [state_append h.once, hnew k hk]
  all_goals
    have ha := h.added k hk
    have hd := h.deleted k hk
    split_ifs with heq hback <;> grind

theorem Exact.del (hadds : adds t = false) (hthere : new (key t))
    (hnew : ∀ k, P k → (new' k ↔ new k ∧ k ≠ key t)) : Exact key adds P old new' (append key adds diff t) := by
  refine ⟨append_once h.once, fun k hk => ?_, fun k hk => ?_⟩ <;> rw [state_append h.once, hnew k hk]
  all_goals
    have ha := h.added k hk
    have hd := h.deleted k hk
    split_ifs with heq hback <;> grind

theorem Exact.other (hP : ¬ P (key t)) (hnew : ∀ k, P k → (new' k ↔ new k)) :
    Exact key adds P old new' (append key adds diff t) := by
  have hother : ∀ k, P k → k ≠ key t := fun k hk heq => hP (heq ▸ hk)
  refine ⟨append_once h.once, fun k hk => ?_, fun k hk => ?_⟩ <;>
    rw [state_append h.once, if_neg (hother k hk), hnew k hk]
  · exact h.added k hk
  · exact h.deleted k hk

theorem Exact.others {ts : List τ} (hP : ∀ t ∈ ts, ¬ P (key t)) :
    Exact key adds P old new (ts.foldl (append key adds) diff) := by
  induction ts generalizing diff with
  | nil => exact h
  | cons t ts ih => exact ih (h.other (hP t (.head _)) fun _ _ => Iff.rfl) fun t' ht' => hP t' (.tail _ ht')

theorem Exact.notMem (hsame : ∀ k, P k → (new k ↔ old k)) (ht : t ∈ diff) : ¬ P (key t) := by
  intro hP
  have hsame := hsame (key t) hP
  have hstate : ∀ b, adds t = b → state key adds diff (key t) = some b := fun b hb =>
    (state_eq_some h.once).mpr ⟨t, ht, rfl, hb⟩
  cases hb : adds t with
  | true =>
    have hadded := (h.added (key t) hP).mp (hstate true hb)
    tauto
  | false =>
    have hdeleted := (h.deleted (key t) hP).mp (hstate false hb)
    tauto

theorem Exact.same (hnone : ∀ t ∈ diff, ¬ P (key t)) (hP : P k) : new k ↔ old k := by
  have hstate : ∀ b, state key adds diff k ≠ some b := fun b hb => by
    obtain ⟨t, ht, rfl, -⟩ := (state_eq_some h.once).mp hb
    exact hnone t ht hP
  have hadded := h.added k hP
  have hdeleted := h.deleted k hP
  have htrue := hstate true
  have hfalse := hstate false
  tauto

/-- The keys that are added or deleted, among those that matter, if it is one only. -/
theorem Exact.filter_eq [DecidablePred P] {b : Bool}
    (hone : ∀ k', P k' → (state key adds diff k' = some b ↔ k' = k)) (hP : P k) :
    (diff.filter fun t => adds t = b ∧ P (key t)).map key = [k] := by
  refine perm_singleton.mp ((perm_ext_iff_of_nodup ?_ (nodup_singleton k)).mpr fun k' => ?_)
  · exact h.once.sublist (filter_sublist.map key)
  · rw [mem_singleton, List.mem_map]
    constructor
    · rintro ⟨t, ht, rfl⟩
      obtain ⟨ht, hp⟩ := mem_filter.mp ht
      simp only [decide_eq_true_eq] at hp
      exact (hone _ hp.2).mp ((state_eq_some h.once).mpr ⟨t, ht, rfl, hp.1⟩)
    · rintro rfl
      obtain ⟨t, ht, hk, hb⟩ := (state_eq_some h.once).mp ((hone k' hP).mpr rfl)
      exact ⟨t, mem_filter.mpr ⟨ht, by simp [hb, hk, hP]⟩, hk⟩

theorem Exact.congr (hnew : ∀ k, P k → (new' k ↔ new k)) : Exact key adds P old new' diff :=
  ⟨h.once, fun k hk => by rw [hnew k hk]; exact h.added k hk, fun k hk => by rw [hnew k hk]; exact h.deleted k hk⟩

end

end

end OqsBind.MinimalDiff
