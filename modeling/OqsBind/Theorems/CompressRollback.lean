import OqsBind.Theorems.CompressSet

/-! Rolling a compression context back. Deleting one slot slides the run after it down by one, which removes
    exactly the entry of that slot and keeps the order of the set. The scan of `dns_compress_rollback` then
    moves on, past whatever has just slid into the slot, so it is exact only when that entry stays. -/

namespace OqsBind.Dns.Compress
open Isc RobinHood Multiset

variable {c : Compress}

/-! ### Sliding -/

/-- The slot holds an entry that is not at home, so a hole before it pulls it down. -/
def Displaced (c : Compress) (i : Nat) : Prop := (c.slot i).coff ≠ 0 ∧ c.probeDistance i ≠ 0

instance (c : Compress) (i : Nat) : Decidable (Displaced c i) := inferInstanceAs (Decidable (_ ∧ _))

variable {i : Nat}

theorem displaced_iff_depth : Displaced c i ↔ 1 < c.depth i := by
  unfold Displaced
  by_cases h : (c.slot i).coff = 0
  · rw [depth_eq_zero.mpr h]
    simp [h]
  · rw [depth_of_used h]
    omega

/-- What `slide` does from slot `x`: the `run` displaced entries after `x` move down by one. -/
structure Slid (c r : Compress) (x run : Nat) : Prop where
  flags : r.flags = c.flags
  permitted : r.permitted = c.permitted
  count : r.count = c.count
  displaced : ∀ j < run, Displaced c ((x + (j + 1)) % (c.mask + 1))
  stop : ¬Displaced c ((x + (run + 1)) % (c.mask + 1))
  moved : ∀ j < run, r.slot ((x + j) % (c.mask + 1)) = c.slot ((x + (j + 1)) % (c.mask + 1))
  hole : r.slot ((x + run) % (c.mask + 1)) = .unused
  kept : ∀ i, (∀ j ≤ run, i ≠ (x + j) % (c.mask + 1)) → r.slot i = c.slot i
  entries : r.entries + occupant (c.slot x) = c.entries

theorem Slid.mask {r : Compress} {x run : Nat} (h : Slid c r x run) : r.mask = c.mask := by
  rw [Compress.mask, Compress.mask, h.flags]

theorem slide_spec : ∀ (fuel : Nat) {c : Compress} {x k : Nat}, x < c.mask + 1 → k < fuel → k + 1 < c.mask + 1 →
    ¬Displaced c ((x + (k + 1)) % (c.mask + 1)) → ∃ run ≤ k, Slid c (slide fuel c x) x run
  | 0, _, _, _, _, hk, _, _ => absurd hk (Nat.not_lt_zero _)
  | fuel + 1, c, x, k, hx, hk, hkm, hstop => by
    have hxm : (x + 0) % (c.mask + 1) = x := Nat.mod_eq_of_lt hx
    have hy : c.slotIndex x 1 = (x + 1) % (c.mask + 1) := c.slotIndex_eq x 1
    rw [slide]
    by_cases hd : Displaced c (c.slotIndex x 1)
    · -- the next entry moves down and leaves a hole
      rw [if_pos (by exact hd)]
      obtain ⟨k, rfl⟩ : ∃ j, k = j + 1 := Nat.exists_eq_succ_of_ne_zero fun hk0 => by
        rw [hk0, ← hy] at hstop
        exact hstop hd
      have hylt := c.slotIndex_lt x 1
      have hwalk : ∀ j, (c.slotIndex x 1 + j) % (c.mask + 1) = (x + (j + 1)) % (c.mask + 1) := by
        intro j
        rw [hy, Nat.mod_add_mod]
        congr 1
        omega
      have hfar : ∀ j < k + 2, (x + (j + 1)) % (c.mask + 1) ≠ x := by
        intro j hj h
        have := walk_inj hx (by omega) (by omega) (h.trans hxm.symm)
        omega
      set c' := c.setSlot x (c.slot (c.slotIndex x 1)) with hc'
      have hslot : ∀ j < k + 2, c'.slot ((x + (j + 1)) % (c.mask + 1)) = c.slot ((x + (j + 1)) % (c.mask + 1)) := by
        intro j hj
        rw [slot_setSlot hx, if_neg (Ne.symm (hfar j hj))]
      have hdisp : ∀ j < k + 2, (Displaced c' ((x + (j + 1)) % (c.mask + 1)) ↔
          Displaced c ((x + (j + 1)) % (c.mask + 1))) := by
        intro j hj
        simp only [Displaced, probeDistance, hslot j hj]
        rfl
      have hstop' : ¬Displaced c' ((c.slotIndex x 1 + (k + 1)) % (c'.mask + 1)) := by
        rw [show c'.mask = c.mask from rfl, hwalk, hdisp (k + 1) (by omega)]
        exact hstop
      obtain ⟨run, hrun, ih⟩ := slide_spec fuel (c := c') (k := k) hylt (by omega) (by exact Nat.lt_of_succ_lt hkm)
        hstop'
      have ihm : c'.mask = c.mask := rfl
      refine ⟨run + 1, by omega, ih.flags, ih.permitted, ih.count, ?_, ?_, ?_, ?_, ?_, ?_⟩
      · intro j hj
        cases j with
        | zero =>
          rw [← hy]
          exact hd
        | succ j =>
          have := ih.displaced j (by omega)
          rw [ihm, hwalk, hdisp (j + 1) (by omega)] at this
          exact this
      · have := ih.stop
        rw [ihm, hwalk, hdisp (run + 1) (by omega)] at this
        exact this
      · intro j hj
        cases j with
        | zero =>
          have hkept := ih.kept x (fun j hj => by rw [ihm, hwalk]; exact Ne.symm (hfar j (by omega)))
          rw [hxm, hkept, slot_setSlot hx, if_pos rfl, hy]
        | succ j =>
          have := ih.moved j (by omega)
          simpa [ihm, hwalk, hslot (j + 1) (by omega)] using this
      · have := ih.hole
        rw [ihm, hwalk] at this
        exact this
      · intro i hi
        have hix : x ≠ i := by
          have := hi 0 (Nat.zero_le _)
          rw [hxm] at this
          exact Ne.symm this
        rw [ih.kept i fun j hj => by rw [ihm, hwalk]; exact hi (j + 1) (by omega), slot_setSlot hx, if_neg hix]
      · have hent := entries_setSlot (c := c) (e := c.slot (c.slotIndex x 1)) hx
        have hih := ih.entries
        have h0 := hslot 0 (by omega)
        rw [← hy] at h0
        rw [h0] at hih
        rw [← hih] at hent
        have : (slide fuel c' (c.slotIndex x 1)).entries + occupant (c.slot x) + occupant (c.slot (c.slotIndex x 1)) =
            c.entries + occupant (c.slot (c.slotIndex x 1)) := by
          rw [← hent]
          abel
        exact Multiset.add_left_inj.mp this
    · -- nothing to pull down
      rw [if_neg (by exact hd)]
      refine ⟨0, Nat.zero_le _, rfl, rfl, rfl, fun j hj => absurd hj (Nat.not_lt_zero _), by rw [← hy]; exact hd,
        fun j hj => absurd hj (Nat.not_lt_zero _), ?_, fun i hi => ?_, ?_⟩
      · rw [hxm, slot_setSlot hx, if_pos rfl]
      · rw [slot_setSlot hx, if_neg]
        have := hi 0 le_rfl
        rw [hxm] at this
        exact Ne.symm this
      · have hent := entries_setSlot (c := c) (e := .unused) hx
        simpa [show occupant .unused = 0 from rfl] using hent

namespace Slid
variable {r : Compress} {x run : Nat}

variable {j : Nat}

theorem probeDistance_moved (h : Slid c r x run) (hj : j < run) :
    r.probeDistance ((x + j) % (c.mask + 1)) + 1 = c.probeDistance ((x + (j + 1)) % (c.mask + 1)) := by
  have hlt : ∀ k, (x + k) % (c.mask + 1) < c.mask + 1 := fun k => Nat.mod_lt _ (by omega)
  have hd := (h.displaced j hj).2
  rw [probeDistance_eq (hlt _)] at hd ⊢
  rw [probeDistance_eq (by rw [h.mask]; exact hlt _), h.moved j hj]
  have hhome : r.home = c.home := by
    funext hash
    rw [home, home, h.mask]
  rw [h.mask, hhome, ← next_walk]
  rw [← next_walk] at hd
  rw [gap_next (c.home_lt _) (hlt _) ((gap_ne_zero (c.home_lt _) (next_lt (hlt _))).mp hd)]

theorem depth_moved (h : Slid c r x run) (hj : j < run) :
    r.depth ((x + j) % (c.mask + 1)) + 1 = c.depth ((x + (j + 1)) % (c.mask + 1)) := by
  have hu := (h.displaced j hj).1
  rw [depth_of_used hu, depth_of_used (by rw [h.moved j hj]; exact hu), h.probeDistance_moved hj]

theorem depth_hole (h : Slid c r x run) : r.depth ((x + run) % (c.mask + 1)) = 0 := by
  rw [depth_eq_zero, h.hole]
  rfl

theorem depth_kept (h : Slid c r x run) {i : Nat} (hi : ∀ j ≤ run, i ≠ (x + j) % (c.mask + 1)) :
    r.depth i = c.depth i := by
  simp only [depth, probeDistance, h.kept i hi, h.mask]

theorem not_run (hx : x < c.mask + 1) (hj : run < j) (hjm : j < c.mask + 1) :
    ∀ k ≤ run, (x + j) % (c.mask + 1) ≠ (x + k) % (c.mask + 1) := by
  intro k hk heq
  have := walk_inj hx hjm (by omega) heq
  omega

theorem ordered (h : Slid c r x run) (ho : Ordered (c.mask + 1) c.depth) (hx : x < c.mask + 1)
    (hrun : run + 1 < c.mask + 1) : Ordered (r.mask + 1) r.depth := by
  rw [h.mask]
  intro s hs
  have hwalk := walk_gap hx hs
  have hjm := gap_lt (h := x) hs
  have hoj : ∀ k, c.depth ((x + (k + 1)) % (c.mask + 1)) ≤ c.depth ((x + k) % (c.mask + 1)) + 1 := by
    intro k
    have := ho ((x + k) % (c.mask + 1)) (Nat.mod_lt _ (by omega))
    rw [next_walk] at this
    exact this
  generalize gap (c.mask + 1) x s = j at hwalk hjm
  rw [← hwalk, next_walk]
  have hstop : c.depth ((x + (run + 1)) % (c.mask + 1)) ≤ 1 := by
    have := h.stop
    rw [displaced_iff_depth] at this
    omega
  rcases Nat.lt_trichotomy j run with hj | hj | hj
  · -- both slots hold entries that moved, or the second is the hole
    have h1 := h.depth_moved hj
    rcases Nat.lt_or_ge (j + 1) run with hj' | hj'
    · have h2 := h.depth_moved hj'
      have := hoj (j + 1)
      omega
    · rw [show j + 1 = run by omega, h.depth_hole]
      omega
  · rw [h.depth_kept (not_run hx (by omega) (by omega)), hj]
    omega
  · rw [h.depth_kept (not_run hx hj hjm)]
    rcases Nat.lt_or_ge (j + 1) (c.mask + 1) with hj' | hj'
    · rw [h.depth_kept (not_run hx (by omega) hj')]
      exact hoj j
    · -- the ring closes: the second slot is `x` itself
      have hx0 : (x + (j + 1)) % (c.mask + 1) = (x + 0) % (c.mask + 1) := by
        rw [show x + (j + 1) = x + 0 + (c.mask + 1) by omega, Nat.add_mod_right]
      have hback := hoj j
      rw [hx0] at hback ⊢
      rcases Nat.eq_zero_or_pos run with h0 | h0
      · have := h.depth_hole
        rw [h0] at this
        omega
      · have h1 := h.depth_moved h0
        have := hoj 0
        omega

end Slid

/-! ### Deleting a slot -/

theorem delete_spec {x : Nat} (h : Inv c) (hx : x < c.mask + 1) (hu : (c.slot x).coff ≠ 0) :
    ∃ run, run + 1 < c.mask + 1 ∧ Slid c (slide (c.mask + 1) c x) x run ∧
      Inv ((slide (c.mask + 1) c x).setCount (c.count + (2 ^ 16 - 1))) := by
  obtain ⟨z, hz, hfree⟩ := h.exists_unused
  have hne : z ≠ x := fun heq => hu (heq ▸ hfree)
  have hd := (gap_ne_zero hx hz).mpr hne
  have hlt := gap_lt (h := x) hz
  have hstop : ¬Displaced c ((x + (gap (c.mask + 1) x z - 1 + 1)) % (c.mask + 1)) := by
    rw [show gap (c.mask + 1) x z - 1 + 1 = gap (c.mask + 1) x z by omega, walk_gap hx hz]
    exact fun hdis => hdis.1 hfree
  obtain ⟨run, hle, hslid⟩ := slide_spec (c.mask + 1) hx (by omega) (by omega) hstop
  -- one entry less, and the count was not zero
  have hcard := congrArg card hslid.entries
  rw [card_add, occupant, if_neg hu, card_singleton, ← h.count] at hcard
  have hroom := h.room
  have hmax : c.mask * 3 / 4 + 1 < 2 ^ 16 := by
    rcases c.mask_eq with hm | hm <;> rw [hm] <;> omega
  have hcount : (c.count + (2 ^ 16 - 1)) % 2 ^ 16 = (slide (c.mask + 1) c x).entries.card := by omega
  refine ⟨run, by omega, hslid, ?_⟩
  constructor
  · simpa using hslid.ordered h.ordered hx (by omega)
  · rw [setCount_count, setCount_entries, hcount]
  · rw [setCount_count, setCount_mask, hslid.mask]
    omega

/-! ### The scan -/

/-- How far the entry at slot `start + k` is pulled down by the deletions that a scan from `start` has made
    before it gets there: as far as the slot before it is, once more when that slot is itself deleted, and
    never past its home. -/
def slid (c : Compress) (coff start : Nat) : Nat → Nat
  | 0 => 0
  | k + 1 =>
    if (c.slot (start + (k + 1))).coff = 0 then 0
    else min (c.probeDistance (start + (k + 1)))
      (slid c coff start k + if coff ≤ (c.slot (start + k)).coff then 1 else 0)

/-- Of two neighbours that both go, the second is at home by the time the first is deleted. -/
def SafeFrom (c : Compress) (coff start : Nat) : Prop :=
  ∀ k, start + k < c.mask → coff ≤ (c.slot (start + k)).coff → coff ≤ (c.slot (start + (k + 1))).coff →
    c.probeDistance (start + (k + 1)) ≤ slid c coff start k

theorem slid_setCount (c : Compress) (n coff start : Nat) :
    ∀ k, slid (c.setCount n) coff start k = slid c coff start k
  | 0 => rfl
  | k + 1 => by
    rw [slid, slid_setCount c n coff start k]
    rfl

variable {coff : Nat}

theorem SafeFrom.setCount {start : Nat} (h : SafeFrom c coff start) (n : Nat) : SafeFrom (c.setCount n) coff start := by
  intro k hk h1 h2
  rw [slid_setCount]
  exact h k hk h1 h2

theorem slid_skip (hlt : (c.slot i).coff < coff) : ∀ k, slid c coff i (k + 1) = slid c coff (i + 1) k
  | 0 => by
    have : ¬coff ≤ (c.slot i).coff := by omega
    simp [slid, this]
  | k + 1 => by
    rw [slid, slid_skip hlt k]
    conv_rhs => rw [slid]
    simp only [show i + 1 + (k + 1) = i + (k + 1 + 1) by omega, show i + 1 + k = i + (k + 1) by omega]

theorem safeFrom_skip (hlt : (c.slot i).coff < coff) (h : SafeFrom c coff i) : SafeFrom c coff (i + 1) := by
  intro k hk h1 h2
  have := h (k + 1) (by omega)
  rw [slid_skip hlt] at this
  simp only [show i + 1 + (k + 1) = i + (k + 1 + 1) by omega, show i + 1 + k = i + (k + 1) by omega] at h1 h2 ⊢
  exact this h1 h2

namespace Slid
variable {r : Compress} {coff i run : Nat} (h : Slid c r i run)
include h

theorem next_stays (hs : SafeFrom c coff i) (hgo : coff ≤ (c.slot i).coff)
    (hrun : 0 < run) (him : i < c.mask) : (c.slot (i + 1)).coff < coff := by
  by_contra hge
  have hd := h.displaced 0 hrun
  rw [Nat.zero_add, Nat.mod_eq_of_lt (by omega)] at hd
  have := hs 0 him hgo (by simpa using hge)
  rw [slid, Nat.zero_add] at this
  exact hd.2 (by omega)

variable {j : Nat}

theorem slot_moved (hj : j < run) (hm : i + (j + 1) < c.mask + 1) :
    r.slot (i + j) = c.slot (i + (j + 1)) := by
  have := h.moved j hj
  rw [Nat.mod_eq_of_lt hm, Nat.mod_eq_of_lt (by omega)] at this
  exact this

theorem distance_moved (hj : j < run) (hm : i + (j + 1) < c.mask + 1) :
    r.probeDistance (i + j) + 1 = c.probeDistance (i + (j + 1)) := by
  have := h.probeDistance_moved hj
  rw [Nat.mod_eq_of_lt hm, Nat.mod_eq_of_lt (by omega)] at this
  exact this

theorem slot_hole (hm : i + run < c.mask + 1) : (r.slot (i + run)).coff = 0 := by
  have := h.hole
  rw [Nat.mod_eq_of_lt hm] at this
  rw [this]
  rfl

theorem slot_beyond (hj : run < j) (hm : i + j < c.mask + 1) : r.slot (i + j) = c.slot (i + j) := by
  refine h.kept _ fun k hk => ?_
  rw [Nat.mod_eq_of_lt (by omega)]
  omega

theorem distance_beyond (hj : run < j) (hm : i + j < c.mask + 1) :
    r.probeDistance (i + j) = c.probeDistance (i + j) := by
  rw [probeDistance, probeDistance, h.slot_beyond hj hm, h.mask]

theorem slid_run (hs : SafeFrom c coff i) (hgo : coff ≤ (c.slot i).coff) :
    ∀ k, k + 1 < run → i + (k + 2) < c.mask + 1 → slid c coff i (k + 2) = slid r coff (i + 1) k + 1
  | 0, hk, hm => by
    have hstay := h.next_stays hs hgo (by omega) (by omega)
    have hpd : ∀ j < run, i + (j + 1) < c.mask + 1 → c.probeDistance (i + (j + 1)) ≠ 0 ∧
        (c.slot (i + (j + 1))).coff ≠ 0 := by
      intro j hj hjm
      have := h.displaced j hj
      rw [Nat.mod_eq_of_lt hjm] at this
      exact ⟨this.2, this.1⟩
    have h1 := hpd 0 (by omega) (by omega)
    have h2 := hpd 1 hk hm
    have hgo' : coff ≤ (c.slot (i + 0)).coff := hgo
    rw [slid, slid, slid, slid, if_neg h2.2, if_neg h1.2, if_pos hgo', if_neg (by omega)]
    omega
  | k + 1, hk, hm => by
    have ih := slid_run hs hgo k (by omega) (by omega)
    have hmv := h.slot_moved (j := k + 2) hk hm
    have hpd := h.distance_moved (j := k + 2) hk hm
    have hmv' := h.slot_moved (j := k + 1) (by omega) (by omega)
    rw [slid]
    conv_rhs => rw [slid]
    simp only [show i + 1 + (k + 1) = i + (k + 2) by omega, show i + 1 + k = i + (k + 1) by omega, hmv, hmv']
    simp only [show k + 1 + 1 = k + 2 by omega, show k + 2 + 1 = k + 3 by omega] at *
    have hu : (c.slot (i + (k + 3))).coff ≠ 0 := by
      have := (h.displaced (k + 2) hk).1
      rw [Nat.mod_eq_of_lt hm] at this
      exact this
    rw [if_neg hu, if_neg hu]
    omega

theorem slid_beyond : ∀ k, run ≤ k → i + (k + 1) < c.mask + 1 →
    slid c coff i (k + 1) = slid r coff (i + 1) k := by
  intro k hk
  induction k, hk using Nat.le_induction with
  | base =>
    intro hm
    have hstop := h.stop
    rw [Nat.mod_eq_of_lt hm] at hstop
    have hl : slid c coff i (run + 1) = 0 := by
      rw [slid]
      split_ifs with h0
      · rfl
      all_goals
        have : c.probeDistance (i + (run + 1)) = 0 := by
          by_contra hne
          exact hstop ⟨h0, hne⟩
        omega
    rw [hl]
    cases run with
    | zero => rfl
    | succ run =>
      have h1 := h.slot_beyond (j := run + 2) (by omega) hm
      have h2 := h.distance_beyond (j := run + 2) (by omega) hm
      rw [slid, show i + 1 + (run + 1) = i + (run + 2) by omega, h1]
      split_ifs with h0
      · rfl
      all_goals
        have : c.probeDistance (i + (run + 2)) = 0 := by
          by_contra hne
          exact hstop ⟨h0, hne⟩
        omega
  | succ k hk ih =>
    intro hm
    have ih := ih (by omega)
    have h1 := h.slot_beyond (j := k + 2) (by omega) hm
    have h2 := h.distance_beyond (j := k + 2) (by omega) hm
    have h3 := h.slot_beyond (j := k + 1) (by omega) (by omega)
    rw [slid, ih]
    conv_rhs => rw [slid]
    simp only [show i + 1 + (k + 1) = i + (k + 2) by omega, show i + 1 + k = i + (k + 1) by omega, h1, h2, h3]

theorem safeFrom (hs : SafeFrom c coff i) (hgo : coff ≤ (c.slot i).coff) (hc : coff ≠ 0)
    (hrun : run + 1 < c.mask + 1) (hdone : ∀ t < i, (c.slot t).coff < coff) : SafeFrom r coff (i + 1) := by
  intro k hk h1 h2
  rw [h.mask] at hk
  simp only [show i + 1 + (k + 1) = i + (k + 2) by omega, show i + 1 + k = i + (k + 1) by omega] at h1 h2 ⊢
  rcases Nat.lt_trichotomy (k + 1) run with hlt | heq | hgt
  · rcases Nat.lt_or_ge (k + 2) run with hlt2 | hge2
    · rcases Nat.lt_or_ge (i + (k + 3)) (c.mask + 1) with hin | hout
      · have hmv := h.slot_moved hlt2 hin
        have hmv' := h.slot_moved hlt (by omega)
        have hpd := h.distance_moved hlt2 hin
        rw [hmv'] at h1
        rw [hmv] at h2
        have := hs (k + 2) (by omega) h1 h2
        rw [h.slid_run hs hgo k hlt (by omega)] at this
        omega
      · -- the last slot now holds what slot 0 held, which the scan has passed
        exfalso
        have hlast := h.moved (k + 2) hlt2
        rw [Nat.mod_eq_of_lt (by omega), show i + (k + 2 + 1) = c.mask + 1 by omega, Nat.mod_self] at hlast
        rw [hlast] at h2
        have := hdone 0 (by omega)
        omega
    · -- the hole itself
      exfalso
      have := h.slot_hole (by omega)
      rw [show run = k + 2 by omega] at this
      omega
  · exfalso
    have := h.slot_hole (by omega)
    rw [← heq] at this
    omega
  · have hpd := h.distance_beyond (j := k + 2) (by omega) (by omega)
    rw [h.slot_beyond (by omega) (by omega)] at h1 h2
    have := hs (k + 1) (by omega) h1 h2
    rw [h.slid_beyond k (by omega) (by omega)] at this
    rw [hpd]
    exact this

theorem done (hs : SafeFrom c coff i) (hgo : coff ≤ (c.slot i).coff) (hc : coff ≠ 0)
    (hi : i < c.mask + 1) (hrun : run + 1 < c.mask + 1) (hdone : ∀ t < i, (c.slot t).coff < coff) :
    ∀ t < i + 1, (r.slot t).coff < coff := by
  intro t ht
  have hwalk := walk_gap hi (show t < c.mask + 1 by omega)
  have hjm := gap_lt (h := i) (show t < c.mask + 1 by omega)
  generalize gap (c.mask + 1) i t = j at hwalk hjm
  rcases Nat.lt_trichotomy j run with hlt | heq | hgt
  · have hmv := h.moved j hlt
    rw [hwalk] at hmv
    rw [hmv]
    -- the next slot on the ring is one that was scanned, or the right neighbour of the deleted one
    rcases Nat.lt_or_ge (i + (j + 1)) (c.mask + 1) with hin | hout
    · rw [Nat.mod_eq_of_lt hin]
      rw [Nat.mod_eq_of_lt (by omega)] at hwalk
      have hj0 : j = 0 := by omega
      subst hj0
      exact h.next_stays hs hgo hlt (by omega)
    · rw [Nat.mod_eq_sub_mod hout, Nat.mod_eq_of_lt (by omega)]
      refine hdone _ ?_
      rcases Nat.lt_or_ge (i + j) (c.mask + 1) with hin' | hout'
      · omega
      · omega
  · have hhole := h.hole
    rw [← heq, hwalk] at hhole
    rw [hhole]
    exact Nat.pos_of_ne_zero hc
  · have hkept := h.kept t fun k hk => by
      rw [← hwalk]
      exact not_run hi hgt hjm k hk
    rw [hkept]
    refine hdone t ?_
    by_contra hge
    have hti : t = i := by omega
    have hself : t = (i + 0) % (c.mask + 1) := by rw [Nat.add_zero, Nat.mod_eq_of_lt hi, hti]
    have := walk_inj hi hjm (by omega) (hwalk.trans hself)
    omega

end Slid

/-- What the scan has established before it looks at slot `i`. -/
structure Scanned (coff i : Nat) (c r : Compress) : Prop where
  flags : r.flags = c.flags
  inv : Inv r
  safe : SafeFrom r coff i
  done : ∀ t < i, (r.slot t).coff < coff
  stays : r.entries.filter (·.coff < coff) = c.entries.filter (·.coff < coff)

theorem rollbackSlot_scanned {r : Compress} (hc : coff ≠ 0) (hi : i < c.mask + 1)
    (h : Scanned coff i c r) : Scanned coff (i + 1) c (rollbackSlot coff r i) := by
  have hmask : r.mask = c.mask := by rw [mask, mask, h.flags]
  rw [rollbackSlot]
  by_cases hlt : (r.slot i).coff < coff
  · rw [if_pos hlt]
    refine ⟨h.flags, h.inv, safeFrom_skip hlt h.safe, fun t ht => ?_, h.stays⟩
    rcases Nat.lt_succ_iff_lt_or_eq.mp ht with ht | rfl
    · exact h.done t ht
    · exact hlt
  · rw [if_neg hlt]
    have hgo : coff ≤ (r.slot i).coff := Nat.le_of_not_lt hlt
    have hi' : i < r.mask + 1 := by rw [hmask]; exact hi
    have hu : (r.slot i).coff ≠ 0 := by omega
    obtain ⟨run, hrun, hslid, hinv⟩ := delete_spec h.inv hi' hu
    refine ⟨?_, hinv, (hslid.safeFrom h.safe hgo hc hrun h.done).setCount _, fun t ht => ?_, ?_⟩
    · simpa using hslid.flags.trans h.flags
    · simpa using hslid.done h.safe hgo hc hi' hrun h.done t ht
    · rw [← h.stays, ← hslid.entries, filter_add, occupant, if_neg hu, setCount_entries,
        filter_singleton, if_neg hlt]
      exact (add_zero _).symm

theorem scan (hc : coff ≠ 0) (h : Inv c) (hs : SafeFrom c coff 0) :
    ∀ i ≤ c.mask + 1, Scanned coff i c ((List.range i).foldl (rollbackSlot coff) c)
  | 0, _ => ⟨rfl, h, hs, fun _ ht => absurd ht (Nat.not_lt_zero _), rfl⟩
  | i + 1, hi => by
    rw [List.range_succ, List.foldl_append]
    exact rollbackSlot_scanned hc hi (scan hc h hs i (by omega))

/-! ### The invariant along runs -/

theorem rollbackSlot_inv (hc : coff ≠ 0) (hi : i < c.mask + 1) (h : Inv c) :
    Inv (rollbackSlot coff c i) ∧ (rollbackSlot coff c i).mask = c.mask := by
  rw [rollbackSlot]
  split_ifs with hlt
  · exact ⟨h, rfl⟩
  · obtain ⟨run, -, hslid, hinv⟩ := delete_spec h hi (by omega)
    exact ⟨hinv, (setCount_mask _ _).trans hslid.mask⟩

theorem rollback_inv (hc : coff ≠ 0) (h : Inv c) : Inv (c.rollback coff) := by
  have hall : ∀ i ≤ c.mask + 1, Inv ((List.range i).foldl (rollbackSlot coff) c) ∧
      ((List.range i).foldl (rollbackSlot coff) c).mask = c.mask := by
    intro i
    induction i with
    | zero => exact fun _ => ⟨h, rfl⟩
    | succ i ih =>
      intro hi
      obtain ⟨hinv, hmask⟩ := ih (by omega)
      rw [List.range_succ, List.foldl_append]
      have := rollbackSlot_inv (i := i) hc (by rw [hmask]; exact hi) hinv
      exact ⟨this.1, this.2.trans hmask⟩
  exact (hall _ le_rfl).1

/-- A call on a context; `buffer` is the message so far, which `name` follows. -/
inductive Op where
  | setpermitted (permitted : Bool)
  | name (buffer : Bytes) (name : Name) (absolute : name.absolute = true)
  | rollback (coff : Nat)

def step (c : Compress) : Op → Compress
  | .setpermitted permitted => c.setpermitted permitted
  | .name buffer nm _ => (c.name buffer nm).1
  | .rollback coff => c.rollback coff

/-- The context after a run of calls. -/
def run (flags : CompressFlags) (ops : List Op) : Compress := ops.foldl step (init flags)

/-- The call is not at offset zero: no name starts a message, and no rollback is to its start. -/
def Op.Within : Op → Prop
  | .setpermitted _ => True
  | .name buffer _ _ => 0 < buffer.length
  | .rollback coff => coff ≠ 0

theorem step_inv {op : Op} (h : Inv c) (hop : op.Within) : Inv (c.step op) := by
  cases op with
  | setpermitted permitted => exact ⟨h.ordered, h.count, h.room⟩
  | name buffer nm habs => exact name_inv h hop
  | rollback coff => exact rollback_inv hop h

theorem run_inv (flags : CompressFlags) {ops : List Op} (hops : ∀ op ∈ ops, op.Within) : Inv (run flags ops) :=
  List.foldlRecOn ops step (init_inv flags) fun _ h op hop => step_inv h (hops op hop)

/-- An exact rollback from `c` to `c'`: the entries below `coff` are left, the count is right, and the probe
    loop finds every one of them. -/
structure RollbackExact (coff : Nat) (c c' : Compress) : Prop where
  entries : c'.entries = c.entries.filter (·.coff < coff)
  count : c'.count = c'.entries.card
  found : ∀ i ≤ c'.mask, (c'.slot i).coff ≠ 0 → c'.probe (c'.slot i).hash (· == i) = .found i

theorem RollbackExact.count_le {c' : Compress} (h : RollbackExact coff c c') : c'.count ≤ c.entries.card := by
  rw [h.count, h.entries]
  exact card_le_card (filter_le _ _)

/-- After every run of calls other than at offset zero, a rollback is exact when it is not to offset zero either and never
    deletes an entry whose right neighbour must go as well and is still displaced. -/
theorem rollback_exact {flags : CompressFlags} {ops : List Op} (hops : ∀ op ∈ ops, op.Within) {coff : Nat} (hc : coff ≠ 0)
    (hs : SafeFrom (run flags ops) coff 0) : RollbackExact coff (run flags ops) ((run flags ops).rollback coff) := by
  generalize hrun : run flags ops = c at hs
  have hscan := scan hc (hrun ▸ run_inv flags hops) hs (c.mask + 1) le_rfl
  have hmask : (c.rollback coff).mask = c.mask := by
    rw [mask]
    exact congrArg _ hscan.flags
  refine ⟨?_, hscan.inv.count, fun i hi hu =>
    probeLoop_reach hscan.inv.ordered (Nat.lt_succ_of_le hi) hu (Nat.zero_add _) (Nat.zero_le _)⟩
  rw [← hscan.stays]
  refine (filter_eq_self.mpr fun e he => ?_).symm
  obtain ⟨-, i, hi, rfl⟩ := mem_entries_iff.mp he
  exact hscan.done i (hmask ▸ hi)

instance (c : Compress) (coff : Nat) : Decidable (SafeFrom c coff 0) :=
  decidable_of_iff (∀ k < c.mask, coff ≤ (c.slot (0 + k)).coff → coff ≤ (c.slot (0 + (k + 1))).coff →
      c.probeDistance (0 + (k + 1)) ≤ slid c coff 0 k)
    ⟨fun h k hk => h k (by omega), fun h k hk => h k (by omega)⟩

def small : CompressFlags := ⟨false, false, false⟩

/-- The names `a.` and `p.` follow a header of two octets. Both hash to slot 40, so the second one is displaced into
    slot 41. -/
def collided : List Op :=
  [.name [0, 0] (Name.tld 0x61) rfl, .name ([0, 0] ++ (Name.tld 0x61).ndata) (Name.tld 0x70) rfl]

theorem rollback_exact_collided : RollbackExact 5 (run small (collided ++ [.rollback 5] ++ collided))
    ((run small (collided ++ [.rollback 5] ++ collided)).rollback 5) :=
  rollback_exact (by simp [collided, Op.Within]) (by decide) (by decide +kernel)

/-- A rollback to offset zero, as `dns_message_renderreset` makes it, deletes the unused slots too and wraps
    the count, which stays wrong after a later one. A rollback to offset 2 deletes `a.`, lets `p.` slide into its slot and
    moves on. -/
theorem rollback_not_exact :
    ¬RollbackExact 0 (run small []) ((run small []).rollback 0) ∧
      ¬RollbackExact 12 (run small [.rollback 0]) ((run small [.rollback 0]).rollback 12) ∧
      ¬RollbackExact 2 (run small collided) ((run small collided).rollback 2) := by
  refine ⟨fun h => ?_, fun h => ?_, fun h => ?_⟩
  · have := h.count_le
    revert this
    decide +kernel
  · have := h.count_le
    revert this
    decide +kernel
  · have hleft : (((run small collided).rollback 2).slot 40).coff = 5 := by decide +kernel
    have hmask : ((run small collided).rollback 2).mask = 63 := by decide +kernel
    have hmem := slot_mem_entries (c := (run small collided).rollback 2) (i := 40) (by omega) (by omega)
    rw [h.entries, mem_filter, hleft] at hmem
    exact absurd hmem.2 (by decide)

end OqsBind.Dns.Compress
