import Mathlib.Tactic.Linarith

/-! Robin Hood hashing on a ring of `n` slots. A table is seen through its depths alone: the depth of a slot
    is one more than the distance of its entry from home, and zero when the slot is free. The one invariant
    is that a depth exceeds the depth of the slot before it by at most one. It makes every entry reachable by
    probing from its home, insertion keeps it by giving a slot to the deeper entry, and deletion keeps it by
    sliding the run after the hole down. -/

namespace OqsBind.RobinHood
open Function

variable {n : Nat}

/-- The slot after `s` on the ring. -/
def next (n s : Nat) : Nat := (s + 1) % n

/-- The distance from slot `h` forwards to slot `s`. -/
def gap (n h s : Nat) : Nat := (s + n - h) % n

variable {s : Nat}

theorem next_eq (hs : s < n) : next n s = if s + 1 = n then 0 else s + 1 := by
  unfold next
  split_ifs with h
  · rw [h, Nat.mod_self]
  · rw [Nat.mod_eq_of_lt (by omega)]

variable {h : Nat}

theorem gap_eq (hh : h < n) (hs : s < n) : gap n h s = if h ≤ s then s - h else s + n - h := by
  unfold gap
  split_ifs with hle
  · have : s + n - h = s - h + n := by omega
    rw [this, Nat.add_mod_right, Nat.mod_eq_of_lt (by omega)]
  · rw [Nat.mod_eq_of_lt (by omega)]

theorem next_lt (hs : s < n) : next n s < n := Nat.mod_lt _ (by omega)

theorem gap_lt (hs : s < n) : gap n h s < n := Nat.mod_lt _ (by omega)

theorem gap_next (hh : h < n) (hs : s < n) (hne : next n s ≠ h) : gap n h (next n s) = gap n h s + 1 := by
  rw [gap_eq hh (next_lt hs), gap_eq hh hs]
  rw [next_eq hs] at hne ⊢
  split_ifs at * <;> omega

theorem gap_ne_zero (hh : h < n) (hs : s < n) : gap n h s ≠ 0 ↔ s ≠ h := by
  rw [gap_eq hh hs]
  split_ifs <;> omega

theorem walk_gap (hh : h < n) (hs : s < n) : (h + gap n h s) % n = s := by
  rw [gap_eq hh hs]
  split_ifs with hle
  · rw [Nat.add_sub_cancel' hle, Nat.mod_eq_of_lt hs]
  · have : h + (s + n - h) = s + n := by omega
    rw [this, Nat.add_mod_right, Nat.mod_eq_of_lt hs]

variable {i : Nat}

theorem gap_walk (hh : h < n) (hi : i < n) : gap n h ((h + i) % n) = i := by
  have hlt : (h + i) % n < n := Nat.mod_lt _ (by omega)
  rw [gap_eq hh hlt]
  rcases Nat.lt_or_ge (h + i) n with hsum | hsum
  · rw [Nat.mod_eq_of_lt hsum]
    simp
  · rw [Nat.mod_eq_sub_mod hsum, Nat.mod_eq_of_lt (by omega)]
    split_ifs <;> omega

theorem walk_inj {j : Nat} (hh : h < n) (hi : i < n) (hj : j < n) (heq : (h + i) % n = (h + j) % n) : i = j := by
  rw [← gap_walk hh hi, ← gap_walk hh hj, heq]

theorem exists_prev (hi : i < n) : ∃ s < n, next n s = i := by
  rcases Nat.eq_zero_or_pos i with rfl | hpos
  · refine ⟨n - 1, by omega, ?_⟩
    rw [next_eq (by omega), if_pos (by omega)]
  · refine ⟨i - 1, by omega, ?_⟩
    rw [next_eq (by omega), if_neg (by omega)]
    omega

theorem next_inj {s' : Nat} (hs : s < n) (hs' : s' < n) (h : next n s = next n s') : s = s' := by
  rw [next_eq hs, next_eq hs'] at h
  split_ifs at h <;> omega

theorem next_walk : next n ((h + i) % n) = (h + (i + 1)) % n := by
  unfold next
  rw [Nat.mod_add_mod]
  rfl

/-- Along the ring a depth grows by at most one from a slot to the next. -/
def Ordered (n : Nat) (depth : Nat → Nat) : Prop := ∀ s < n, depth (next n s) ≤ depth s + 1

namespace Ordered
variable {depth : Nat → Nat}

variable {s : Nat}

theorem walk (h : Ordered n depth) (hs : s < n) : ∀ k, depth ((s + k) % n) ≤ depth s + k
  | 0 => by rw [Nat.add_zero, Nat.mod_eq_of_lt hs]; rfl
  | k + 1 => by
    have ih := walk h hs k
    have hstep := h ((s + k) % n) (Nat.mod_lt _ (by omega))
    rw [next_walk] at hstep
    omega

/-- Every entry is reachable: on the way from its home no slot is free, and none is shallower than the
    probe that looks at it. -/
theorem reachable (ho : Ordered n depth) {h i : Nat} (hh : h < n) (hs : s < n)
    (hd : depth s = gap n h s + 1) (hi : i ≤ gap n h s) : i < depth ((h + i) % n) := by
  have hw := ho.walk (s := (h + i) % n) (Nat.mod_lt _ (by omega)) (gap n h s - i)
  have hend : ((h + i) % n + (gap n h s - i)) % n = s := by
    rw [Nat.mod_add_mod, show h + i + (gap n h s - i) = h + gap n h s by omega, walk_gap hh hs]
  rw [hend] at hw
  omega

/-- Depths stay below the size of the ring as long as some slot is free. -/
theorem lt_of_free (h : Ordered n depth) {z : Nat} (hz : z < n) (hfree : depth z = 0) (hs : s < n) : depth s < n := by
  have hw := h.walk hz (gap n z s)
  rw [walk_gap hz hs] at hw
  have := gap_lt (h := z) hs
  omega

theorem raise (h : Ordered n depth) {v : Nat} (hs : s < n) (hn : 1 < n) (hge : depth (next n s) ≤ v)
    (hle : v ≤ depth s + 1) : Ordered n (update depth (next n s) v) := by
  have hself : s ≠ next n s := by
    rw [next_eq hs]
    split_ifs <;> omega
  intro t ht
  have ho := h t ht
  by_cases hts : t = s
  · subst hts
    rw [update_self, update_of_ne hself]
    exact hle
  · have hnext : next n t ≠ next n s := by
      rw [next_eq ht, next_eq hs]
      split_ifs <;> omega
    rw [update_of_ne hnext]
    by_cases htn : t = next n s
    · rw [htn, update_self]
      rw [htn] at ho
      omega
    · rw [update_of_ne htn]
      exact ho

theorem lower (h : Ordered n depth) {v : Nat} (hs : s < n) (hn : 1 < n) (hle : v ≤ depth s)
    (hnext : depth (next n s) ≤ v + 1) : Ordered n (update depth s v) := by
  have hself : next n s ≠ s := by
    rw [next_eq hs]
    split_ifs <;> omega
  intro t ht
  have ho := h t ht
  by_cases hts : t = s
  · subst hts
    rw [update_self, update_of_ne hself]
    exact hnext
  · rw [update_of_ne hts]
    by_cases hto : next n t = s
    · rw [hto, update_self]
      rw [hto] at ho
      omega
    · rw [update_of_ne hto]
      exact ho

end Ordered

end OqsBind.RobinHood
