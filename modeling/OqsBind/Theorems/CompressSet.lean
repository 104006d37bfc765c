import OqsBind.Dns.Compress
import OqsBind.Lib.RobinHood
import Mathlib.Algebra.Order.Group.Multiset
import Mathlib.Tactic.Abel

/-! The hash set of a compression context: what it holds, and the invariant that every insertion and every
    deletion keeps. -/

namespace OqsBind.Dns.Compress
open Isc RobinHood

variable {c : Compress}

@[simp] theorem setSlot_mask (c : Compress) (i : Nat) (e : CompressSlot) : (c.setSlot i e).mask = c.mask := rfl
@[simp] theorem setCount_mask (c : Compress) (k : Nat) : (c.setCount k).mask = c.mask := rfl
@[simp] theorem setCount_flags (c : Compress) (k : Nat) : (c.setCount k).flags = c.flags := rfl
@[simp] theorem setCount_count (c : Compress) (k : Nat) : (c.setCount k).count = k % 2 ^ 16 := rfl
@[simp] theorem setCount_slot (c : Compress) (k i : Nat) : (c.setCount k).slot i = c.slot i := rfl
@[simp] theorem setCount_set (c : Compress) (k : Nat) : (c.setCount k).set = c.set := rfl

variable {i : Nat} {e : CompressSlot}

theorem slot_setSlot {j : Nat} (hi : i < c.mask + 1) : (c.setSlot i e).slot j = if i = j then e else c.slot j := by
  have hlen : i < c.set.length := by rw [c.size]; exact hi
  simp only [slot, setSlot, List.getD_eq_getElem?_getD, List.getElem?_set]
  split_ifs with hij
  · rfl
  · rfl

theorem mask_eq (c : Compress) : c.mask = 63 ∨ c.mask = 1023 := by
  unfold mask CompressFlags.mask
  split_ifs <;> simp

theorem and_mask (c : Compress) (k : Nat) : k &&& c.mask = k % (c.mask + 1) := by
  rcases c.mask_eq with h | h <;> rw [h]
  · exact Nat.and_two_pow_sub_one_eq_mod k 6
  · exact Nat.and_two_pow_sub_one_eq_mod k 10

/-- The slot that a hash calls home. -/
def home (c : Compress) (hash : UInt16) : Nat := hash.toNat % (c.mask + 1)

theorem home_lt (c : Compress) (hash : UInt16) : c.home hash < c.mask + 1 := Nat.mod_lt _ (by omega)

theorem slotIndex_eq (c : Compress) (hash probe : Nat) : c.slotIndex hash probe = (hash + probe) % (c.mask + 1) :=
  c.and_mask _

theorem slotIndex_home (c : Compress) (hash : UInt16) (probe : Nat) :
    c.slotIndex hash.toNat probe = (c.home hash + probe) % (c.mask + 1) := by
  rw [slotIndex_eq, home, Nat.mod_add_mod]

theorem slotIndex_lt (c : Compress) (hash probe : Nat) : c.slotIndex hash probe < c.mask + 1 := by
  rw [slotIndex_eq]
  exact Nat.mod_lt _ (by omega)

theorem probeDistance_eq (hi : i < c.mask + 1) : c.probeDistance i = gap (c.mask + 1) (c.home (c.slot i).hash) i := by
  have hh := (c.slot i).hash.toNat_lt
  unfold probeDistance home gap
  rw [and_mask, UInt32.toNat_sub, UInt32.toNat_ofNat', UInt16.toNat_toUInt32]
  rcases c.mask_eq with h | h <;> rw [h] at hi ⊢ <;> omega

theorem probeDistance_lt (hi : i < c.mask + 1) : c.probeDistance i < c.mask + 1 := by
  rw [probeDistance_eq hi]
  exact gap_lt hi

/-- The depth of a slot: zero when it is unused, else one more than its probe distance. -/
def depth (c : Compress) (i : Nat) : Nat := if (c.slot i).coff = 0 then 0 else c.probeDistance i + 1

theorem depth_eq_zero : c.depth i = 0 ↔ (c.slot i).coff = 0 := by
  unfold depth
  split_ifs with h <;> simp [h]

theorem depth_of_used (h : (c.slot i).coff ≠ 0) : c.depth i = c.probeDistance i + 1 := by
  unfold depth
  rw [if_neg h]

@[simp] theorem setCount_depth (c : Compress) (k : Nat) : (c.setCount k).depth = c.depth := rfl

theorem depth_setSlot_ne {j : Nat} (hi : i < c.mask + 1) (hj : i ≠ j) : (c.setSlot i e).depth j = c.depth j := by
  simp only [depth, probeDistance, slot_setSlot hi, if_neg hj, setSlot_mask]

theorem depth_setSlot (hi : i < c.mask + 1) (he : e.coff ≠ 0) :
    (c.setSlot i e).depth i = gap (c.mask + 1) (c.home e.hash) i + 1 := by
  have hslot : (c.setSlot i e).slot i = e := by rw [slot_setSlot hi, if_pos rfl]
  rw [depth_of_used (by rw [hslot]; exact he), probeDistance_eq (by exact hi), hslot]
  rfl

/-- The entry in a slot, if the slot is used. -/
def occupant (e : CompressSlot) : Multiset CompressSlot := if e.coff = 0 then 0 else {e}

/-- What the set holds: the used slots. -/
def entries (c : Compress) : Multiset CompressSlot := (c.set : Multiset CompressSlot).filter (·.coff ≠ 0)

theorem filter_singleton_eq (e : CompressSlot) :
    Multiset.filter (fun x : CompressSlot => x.coff ≠ 0) {e} = occupant e := by
  unfold occupant
  by_cases h : e.coff = 0 <;> simp [h]

theorem coe_set {α : Type} {l : List α} (hi : i < l.length) (a : α) :
    ((l.set i a : List α) : Multiset α) + {l[i]} = (l : Multiset α) + {a} := by
  have hl : l = l.take i ++ l[i] :: l.drop (i + 1) := by simp
  have hset : l.set i a = l.take i ++ a :: l.drop (i + 1) := List.set_eq_take_append_cons_drop.trans (if_pos hi)
  rw [hset]
  conv_rhs => rw [hl]
  simp only [← Multiset.coe_add, ← Multiset.cons_coe, ← Multiset.singleton_add]
  abel

@[simp] theorem setCount_entries (c : Compress) (k : Nat) : (c.setCount k).entries = c.entries := by
  rw [entries, entries, setCount_set]

theorem entries_setSlot (hi : i < c.mask + 1) : (c.setSlot i e).entries + occupant (c.slot i) = c.entries + occupant e := by
  have hlen : i < c.set.length := by rw [c.size]; exact hi
  have hslot : c.slot i = c.set[i] := by simp [slot, hlen]
  have := congrArg (Multiset.filter (fun x : CompressSlot => x.coff ≠ 0)) (coe_set hlen e)
  rw [Multiset.filter_add, Multiset.filter_add, filter_singleton_eq, filter_singleton_eq] at this
  rw [hslot]
  exact this

theorem slot_mem_entries (hi : i < c.mask + 1) (hu : (c.slot i).coff ≠ 0) : c.slot i ∈ c.entries := by
  have hlen : i < c.set.length := by rw [c.size]; exact hi
  have hslot : c.slot i = c.set[i] := by simp [slot, hlen]
  rw [entries, Multiset.mem_filter]
  exact ⟨by rw [hslot]; exact List.getElem_mem hlen, hu⟩

theorem mem_entries_iff : e ∈ c.entries ↔ e.coff ≠ 0 ∧ ∃ i < c.mask + 1, c.slot i = e := by
  rw [entries, Multiset.mem_filter, and_comm]
  refine and_congr_right fun _ => ⟨fun h => ?_, fun ⟨i, hi, h⟩ => ?_⟩
  · obtain ⟨i, hi, rfl⟩ := List.getElem_of_mem h
    exact ⟨i, lt_of_lt_of_eq hi c.size, by simp [slot, hi]⟩
  · have hlen : i < c.set.length := by rw [c.size]; exact hi
    rw [← h, show c.slot i = c.set[i] by simp [slot, hlen]]
    exact List.getElem_mem hlen

theorem exists_unused (h : c.entries.card < c.mask + 1) : ∃ z < c.mask + 1, (c.slot z).coff = 0 := by
  by_contra hall
  push Not at hall
  have : c.entries = (c.set : Multiset CompressSlot) := by
    rw [entries, Multiset.filter_eq_self]
    intro e he
    obtain ⟨i, hi, rfl⟩ := List.getElem_of_mem (Multiset.mem_coe.mp he)
    have := hall i (lt_of_lt_of_eq hi c.size)
    simpa [slot, hi] using this
  rw [this, Multiset.coe_card, c.size] at h
  exact absurd h (lt_irrefl _)

/-- The invariant of a hash set: Robin Hood order, a `count` of the used slots, and an unused slot. -/
structure Inv (c : Compress) : Prop where
  ordered : Ordered (c.mask + 1) c.depth
  count : c.count = c.entries.card
  room : c.count ≤ c.mask * 3 / 4 + 1

theorem Inv.exists_unused (h : Inv c) : ∃ z < c.mask + 1, (c.slot z).coff = 0 := by
  apply Compress.exists_unused
  have h1 := h.count
  have h2 := h.room
  rcases c.mask_eq with hm | hm <;> rw [hm] at h2 ⊢ <;> omega

theorem depth_setSlot_eq_update {v : Nat} (hi : i < c.mask + 1)
    (hv : (c.setSlot i e).depth i = v) : (c.setSlot i e).depth = Function.update c.depth i v := by
  funext j
  by_cases hj : j = i
  · simp [hj, hv]
  · rw [Function.update_of_ne hj, depth_setSlot_ne hi (Ne.symm hj)]

/-- An entry may go into slot `i` at probe `p` when the slot before it is at least that deep. -/
def Fits (c : Compress) (i p : Nat) : Prop := ∃ s < c.mask + 1, next (c.mask + 1) s = i ∧ p ≤ c.depth s

theorem fits_zero (hi : i < c.mask + 1) : Fits c i 0 := by
  obtain ⟨s, hs, hn⟩ := exists_prev hi
  exact ⟨s, hs, hn, Nat.zero_le _⟩

/-- What the insertion of `e` into `c` yields. -/
structure Inserted (c c' : Compress) (e : CompressSlot) : Prop where
  flags : c'.flags = c.flags
  permitted : c'.permitted = c.permitted
  ordered : Ordered (c'.mask + 1) c'.depth
  entries : c'.entries = e ::ₘ c.entries
  count : c'.count = (c.count + 1) % 2 ^ 16

theorem mask_pos (c : Compress) : 1 < c.mask + 1 := by
  rcases c.mask_eq with h | h <;> rw [h] <;> omega

theorem ordered_place (ho : Ordered (c.mask + 1) c.depth) {p : Nat} (he : e.coff ≠ 0)
    (hp : p < c.mask + 1) (hfit : Fits c (c.slotIndex e.hash.toNat p) p)
    (hge : c.depth (c.slotIndex e.hash.toNat p) ≤ p + 1) :
    (c.setSlot (c.slotIndex e.hash.toNat p) e).depth (c.slotIndex e.hash.toNat p) = p + 1 ∧
      Ordered (c.mask + 1) (c.setSlot (c.slotIndex e.hash.toNat p) e).depth := by
  have hi := c.slotIndex_lt e.hash.toNat p
  have hv : (c.setSlot (c.slotIndex e.hash.toNat p) e).depth (c.slotIndex e.hash.toNat p) = p + 1 := by
    rw [depth_setSlot hi he]
    rw [slotIndex_home, gap_walk (c.home_lt _) hp]
  refine ⟨hv, ?_⟩
  rw [depth_setSlot_eq_update hi hv]
  obtain ⟨s, hs, hn, hle⟩ := hfit
  rw [← hn] at hge ⊢
  exact ho.raise hs c.mask_pos hge (by omega)

theorem slotIndex_next (c : Compress) (hash p : Nat) :
    c.slotIndex hash (p + 1) = next (c.mask + 1) (c.slotIndex hash p) := by
  rw [slotIndex_eq, slotIndex_eq]
  exact next_walk.symm

theorem slotIndex_probeDistance (hi : i < c.mask + 1) : c.slotIndex (c.slot i).hash.toNat (c.probeDistance i) = i := by
  rw [slotIndex_home, probeDistance_eq hi, walk_gap (c.home_lt _) hi]

theorem insertLoop_spec : ∀ (fuel : Nat) {c : Compress} {e : CompressSlot} {p k : Nat},
    Ordered (c.mask + 1) c.depth → e.coff ≠ 0 → Fits c (c.slotIndex e.hash.toNat p) p → k < fuel →
    (c.slot (c.slotIndex (c.slotIndex e.hash.toNat p) k)).coff = 0 →
    Inserted c (insertLoop fuel c e.hash e.coff p) e
  | 0, _, _, _, _, _, _, _, hk, _ => absurd hk (Nat.not_lt_zero _)
  | fuel + 1, c, e, p, k, ho, he, hfit, hk, hfree => by
    have hi := c.slotIndex_lt e.hash.toNat p
    have hp : p < c.mask + 1 := by
      obtain ⟨s, hs, -, hle⟩ := hfit
      have := ho.lt_of_free (c.slotIndex_lt _ _) (depth_eq_zero.mpr hfree) hs
      omega
    rw [insertLoop]
    by_cases h0 : (c.slot (c.slotIndex e.hash.toNat p)).coff = 0
    · -- the entry goes into an unused slot
      rw [if_pos h0]
      have hplace := ordered_place ho he hp hfit (by rw [depth_eq_zero.mpr h0]; omega)
      refine ⟨rfl, rfl, hplace.2, ?_, rfl⟩
      have hent := entries_setSlot (e := e) hi
      rw [occupant, if_pos h0, occupant, if_neg he, add_zero, add_comm] at hent
      exact hent
    · rw [if_neg h0]
      -- the unused slot is not this one, so one turn less reaches it
      obtain ⟨k, rfl⟩ : ∃ j, k = j + 1 := Nat.exists_eq_succ_of_ne_zero fun hk0 => by
        rw [hk0, slotIndex_eq, Nat.add_zero, Nat.mod_eq_of_lt hi] at hfree
        exact h0 hfree
      have hnear : c.slotIndex (c.slotIndex e.hash.toNat p) (k + 1) =
          c.slotIndex (c.slotIndex e.hash.toNat (p + 1)) k := by
        simp only [slotIndex_eq, Nat.mod_add_mod]
        congr 1
        omega
      rw [hnear] at hfree
      by_cases hrob : p > c.probeDistance (c.slotIndex e.hash.toNat p)
      · -- the entry takes the slot of a shallower one, which moves on
        rw [if_pos hrob]
        have hdep := depth_of_used h0
        have hplace := ordered_place ho he hp hfit (by omega)
        have hpd := slotIndex_probeDistance hi
        set i := c.slotIndex e.hash.toNat p with hidef
        set c' := c.setSlot i e with hc'
        have hnext : c'.slotIndex (c.slot i).hash.toNat (c.probeDistance i + 1) = next (c.mask + 1) i := by
          rw [slotIndex_next]
          exact congrArg _ hpd
        have hfit' : Fits c' (c'.slotIndex (c.slot i).hash.toNat (c.probeDistance i + 1)) (c.probeDistance i + 1) :=
          ⟨i, hi, hnext.symm, by omega⟩
        have hfree' : (c'.slot (c'.slotIndex (c'.slotIndex (c.slot i).hash.toNat (c.probeDistance i + 1)) k)).coff = 0 := by
          have hloc : c'.slotIndex (c'.slotIndex (c.slot i).hash.toNat (c.probeDistance i + 1)) k =
              c.slotIndex (c.slotIndex e.hash.toNat (p + 1)) k := by
            rw [hnext, slotIndex_next]
            rfl
          rw [hloc, slot_setSlot hi]
          split_ifs with heq
          · exact absurd (by rw [heq]; exact hfree) h0
          · exact hfree
        have ih := insertLoop_spec fuel hplace.2 h0 hfit' (by omega) hfree'
        refine ⟨ih.flags, ih.permitted, ih.ordered, ?_, ih.count⟩
        have hent := entries_setSlot (e := e) hi
        rw [occupant, if_neg h0, occupant, if_neg he] at hent
        rw [ih.entries, ← Multiset.singleton_add, add_comm, hent, add_comm, Multiset.singleton_add]
      · -- the slot belongs to an entry that is at least as deep
        rw [if_neg hrob]
        have hdep := depth_of_used h0
        refine insertLoop_spec fuel ho he ⟨_, hi, (c.slotIndex_next _ _).symm, ?_⟩ (by omega) hfree
        omega

variable {hash : UInt16}

theorem probeLoop_found {isMatch : Nat → Bool} : ∀ {fuel p : Nat}, c.probeLoop hash isMatch fuel p = .found i →
    i < c.mask + 1 ∧ (c.slot i).coff ≠ 0 ∧ (c.slot i).hash = hash ∧ isMatch i = true
  | 0, _, h => by cases h
  | fuel + 1, p, h => by
    rw [probeLoop] at h
    split_ifs at h with hstop hmatch
    · simp only [not_or] at hstop
      simp only [Bool.and_eq_true, beq_iff_eq] at hmatch
      cases h
      exact ⟨c.slotIndex_lt _ _, hstop.1, hmatch.1.symm, hmatch.2⟩
    · exact probeLoop_found h

theorem probeLoop_absent {isMatch : Nat → Bool} {q : Nat} : ∀ {fuel p : Nat},
    Fits c (c.slotIndex hash.toNat p) p → c.probeLoop hash isMatch fuel p = .absent q →
    Fits c (c.slotIndex hash.toNat q) q
  | 0, p, hfit, h => by
    cases h
    exact hfit
  | fuel + 1, p, hfit, h => by
    rw [probeLoop] at h
    split_ifs at h with hstop hmatch
    · cases h
      exact hfit
    · simp only [not_or, gt_iff_lt, not_lt] at hstop
      refine probeLoop_absent ⟨_, c.slotIndex_lt _ _, (c.slotIndex_next _ _).symm, ?_⟩ h
      rw [depth_of_used hstop.1]
      omega

theorem probeLoop_reach (ho : Ordered (c.mask + 1) c.depth) (hi : i < c.mask + 1)
    (hu : (c.slot i).coff ≠ 0) : ∀ {fuel p : Nat}, p + fuel = c.mask + 2 → p ≤ c.probeDistance i →
    c.probeLoop (c.slot i).hash (· == i) fuel p = .found i
  | 0, p, hf, hp => by
    have := probeDistance_lt hi
    omega
  | fuel + 1, p, hf, hp => by
    have hpd := probeDistance_eq hi
    have hreach : p < c.depth (c.slotIndex (c.slot i).hash.toNat p) := by
      rw [slotIndex_home]
      refine ho.reachable (c.home_lt _) hi ?_ (by rw [← hpd]; exact hp)
      rw [depth_of_used hu, hpd]
    have hused : (c.slot (c.slotIndex (c.slot i).hash.toNat p)).coff ≠ 0 := by
      intro h0
      rw [depth_eq_zero.mpr h0] at hreach
      exact absurd hreach (Nat.not_lt_zero _)
    rw [depth_of_used hused] at hreach
    rw [probeLoop, if_neg (by simp only [not_or]; exact ⟨hused, by omega⟩)]
    by_cases hpi : c.slotIndex (c.slot i).hash.toNat p = i
    · simp [hpi]
    · have hlt : p < c.probeDistance i := by
        refine lt_of_le_of_ne hp fun h => hpi ?_
        rw [h, slotIndex_probeDistance hi]
      rw [if_neg (by simp [hpi])]
      exact probeLoop_reach ho hi hu (by omega) hlt

theorem Inserted.inv {c' : Compress} (h : Inserted c c' e) (hi : Inv c) (hroom : c.count ≤ c.mask * 3 / 4) : Inv c' := by
  have hmask : c'.mask = c.mask := by rw [mask, mask, h.flags]
  have hcount : c'.count = c.count + 1 := by
    rw [h.count]
    rcases c.mask_eq with hm | hm <;> rw [hm] at hroom <;> omega
  refine ⟨h.ordered, ?_, ?_⟩
  · rw [hcount, h.entries, Multiset.card_cons, hi.count]
  · rw [hmask]
    omega

variable {used : Nat} {name : Name}

theorem insertLabel_spec {label p : Nat} {c' : Compress} (h : Inv c)
    (hused : 0 < used) (hfit : Fits c (c.slotIndex hash.toNat p) p)
    (hins : c.insertLabel used name label hash p = some c') :
    used + name.offset label < 0x4000 ∧ Inv c' ∧ Inserted c c' ⟨hash, used + name.offset label⟩ := by
  unfold insertLabel at hins
  simp only [ge_iff_le, gt_iff_lt] at hins
  split_ifs at hins with hfull
  push Not at hfull
  cases hins
  obtain ⟨z, hz, hfree⟩ := h.exists_unused
  have hi := c.slotIndex_lt hash.toNat p
  have hspec := insertLoop_spec (c.mask + 1) (e := ⟨hash, used + name.offset label⟩) (p := p)
    (k := gap (c.mask + 1) (c.slotIndex hash.toNat p) z) h.ordered (by simp; omega) hfit (gap_lt hz)
    (by rw [slotIndex_eq, walk_gap hi hz]; exact hfree)
  exact ⟨hfull.1, hspec.inv h hfull.2, hspec⟩

/-- What adding labels of a name at the end of a message of `used` octets does to a context. -/
structure Added (used : Nat) (name : Name) (below : Nat) (c c' : Compress) : Prop where
  flags : c'.flags = c.flags
  permitted : c'.permitted = c.permitted
  inv : Inv c'
  entries : ∀ e ∈ c'.entries, e ∈ c.entries ∨ ∃ l < below, e.coff = used + name.offset l ∧ e.coff < 0x4000

theorem Added.refl {below : Nat} (h : Inv c) : Added used name below c c :=
  ⟨rfl, rfl, h, fun _ he => .inl he⟩

theorem insert_spec (hused : 0 < used) : ∀ {label : Nat} {c : Compress} {hash : UInt16}
    {p : Nat}, Inv c → Fits c (c.slotIndex hash.toNat p) p →
    Added used name (label + 1) c (insert used name label c hash p)
  | 0, c, hash, p, h, hfit => by
    rw [insert]
    cases hins : c.insertLabel used name 0 hash p with
    | none => exact Added.refl h
    | some c' =>
      obtain ⟨hlt, hinv, hspec⟩ := insertLabel_spec h hused hfit hins
      refine ⟨hspec.flags, hspec.permitted, hinv, fun e he => ?_⟩
      rw [Option.getD_some, hspec.entries, Multiset.mem_cons] at he
      rcases he with rfl | he
      · exact .inr ⟨0, Nat.one_pos, rfl, hlt⟩
      · exact .inl he
  | label + 1, c, hash, p, h, hfit => by
    rw [insert]
    cases hins : c.insertLabel used name (label + 1) hash p with
    | none => exact Added.refl h
    | some c' =>
      obtain ⟨hlt, hinv, hspec⟩ := insertLabel_spec h hused hfit hins
      have ih : Added used name (label + 1) c' (insert used name label c'
          (hashLabel hash (name.ndata.drop (name.offset label)) c'.flags.case) 0) :=
        insert_spec hused hinv (fits_zero (c'.slotIndex_lt _ _))
      refine ⟨ih.flags.trans hspec.flags, ih.permitted.trans hspec.permitted, ih.inv, fun e he => ?_⟩
      rcases ih.entries e he with he | ⟨l, hl, he⟩
      · rw [hspec.entries, Multiset.mem_cons] at he
        rcases he with rfl | he
        · exact .inr ⟨label + 1, by omega, rfl, hlt⟩
        · exact .inl he
      · exact .inr ⟨l, by omega, he⟩

/-- The search of `dns_compress_name`, with a property `P` of the labels that are left and the values returned
    so far. It ends with some labels left unmatched, and only these may be added. -/
theorem nameLoop_spec {buffer : Bytes} {nm : Name} (hused : 0 < buffer.length) {P : Nat → Match → Prop}
    (hinv : Inv c)
    (hstep : ∀ {l i : Nat} {m : Match}, P (l + 1) m → i < c.mask + 1 → (c.slot i).coff ≠ 0 →
      matchSuffix buffer (c.slot i).coff (nm.ndata.drop (nm.offset l)) m.coff c.flags.case = true →
      P l ⟨nm.offset l, (c.slot i).coff⟩) :
    ∀ {label : Nat} {hash : UInt16} {m : Match}, P label m →
      ∃ l ≤ label, Added buffer.length nm l c (nameLoop buffer nm label c hash m).1 ∧
        P l (nameLoop buffer nm label c hash m).2
  | 0, _, _, h => ⟨0, le_rfl, Added.refl hinv, h⟩
  | label + 1, hash, m, h => by
    rw [nameLoop]
    split
    · rename_i p hp
      exact ⟨label + 1, le_rfl, insert_spec hused hinv (probeLoop_absent (fits_zero (c.slotIndex_lt _ _)) hp), h⟩
    · rename_i i hi
      obtain ⟨hlt, hu, -, hmatch⟩ := probeLoop_found hi
      obtain ⟨l, hl, hadd, hP⟩ := nameLoop_spec hused hinv hstep (hstep h hlt hu hmatch)
      exact ⟨l, by omega, hadd, hP⟩

/-- `dns_compress_name` keeps the invariant of the hash set, on any message that is not empty. -/
theorem name_inv {buffer : Bytes} {nm : Name} (h : Inv c) (hused : 0 < buffer.length) : Inv (c.name buffer nm).1 := by
  unfold Compress.name
  split_ifs
  · exact h
  · obtain ⟨_, _, hadd, _⟩ := nameLoop_spec hused (P := fun _ _ => True) h (fun _ _ _ _ => trivial) trivial
    exact hadd.inv

theorem entries_init (flags : CompressFlags) : (init flags).entries = 0 := by
  rw [entries, Multiset.filter_eq_nil]
  intro e he
  rw [List.eq_of_mem_replicate (Multiset.mem_coe.mp he)]
  simp [CompressSlot.unused]

theorem init_inv (flags : CompressFlags) : Inv (init flags) := by
  have hslot : ∀ i, ((init flags).slot i).coff = 0 := by
    intro i
    simp only [slot, init, List.getD_eq_getElem?_getD, List.getElem?_replicate]
    split_ifs <;> rfl
  refine ⟨fun s _ => ?_, ?_, Nat.zero_le _⟩
  · rw [depth_eq_zero.mpr (hslot _)]
    exact Nat.zero_le _
  · rw [entries_init]
    rfl

end OqsBind.Dns.Compress
