import OqsBind.Theorems.QpStore

/-! Taking cells from the allocator. -/

namespace OqsBind.Dns.Qp
open Function Finset State Usage

variable {s s' s'' : State} {L : Multiset Nat} {ref size : Nat}

/-- What no step of the allocator changes. -/
structure Same (s s' : State) : Prop where
  rootRef : s'.rootRef = s.rootRef
  leafCount : s'.leafCount = s.leafCount

theorem Same.refl (s : State) : Same s s := ⟨rfl, rfl⟩

theorem Same.trans (h : Same s s') (h' : Same s' s'') : Same s s'' :=
  ⟨h'.rootRef.trans h.rootRef, h'.leafCount.trans h.leafCount⟩

/-- All cells that were below the allocation points keep their nodes. -/
def SameUsed (s s' : State) : Prop :=
  ∀ x, (s.usage (refChunk x)).existing = true → refCell x < (s.usage (refChunk x)).used →
    (s'.usage (refChunk x)).existing = true ∧ refCell x < (s'.usage (refChunk x)).used ∧ s'.cell x = s.cell x

theorem SameUsed.trans (h : SameUsed s s') (h' : SameUsed s' s'') : SameUsed s s'' := fun x he hu => by
  obtain ⟨he1, hu1, hc1⟩ := h x he hu
  obtain ⟨he2, hu2, hc2⟩ := h' x he1 hu1
  exact ⟨he2, hu2, hc2.trans hc1⟩

/-- A vector of `size` cells at `ref` has been allocated. -/
structure Alloc (s : State) (L : Multiset Nat) (ref size : Nat) (s' : State) : Prop where
  active : Active s' (L + vec ref size)
  contained : Contained ref size
  used : SameUsed s s'
  same : Same s s'

theorem countP_vec (h : Contained ref size) (c : Nat) :
    (vec ref size).countP (refChunk · = c) = if c = refChunk ref then size else 0 := by
  split_ifs with hc
  · rw [Multiset.countP_eq_card.mpr fun x hx => (h.chunk_of_mem hx).trans hc.symm, vec_card]
  · exact Multiset.countP_eq_zero.mpr fun _ hx heq => hc (heq ▸ h.chunk_of_mem hx)

/-! ### The fast path -/

/-- The fast path of `alloc_twigs`. -/
def bumpAlloc (s : State) (size : Nat) : State :=
  { s.setUsage s.bump { s.usage s.bump with used := (s.usage s.bump).used + size } with usedCount := s.usedCount + size }

theorem usage_bumpAlloc (s : State) (size c : Nat) : (bumpAlloc s size).usage c =
    { s.usage c with used := (s.usage c).used + if c = s.bump then size else 0 } := by
  change update s.usage s.bump _ c = _
  by_cases hc : c = s.bump <;> simp [hc]

theorem free_bumpAlloc (s : State) (size : Nat) :
    total (bumpAlloc s size) (!·.discounted) free = total s (!·.discounted) free := by
  refine sum_congr rfl fun c _ => ?_
  simp [usage_bumpAlloc, share]

theorem Inv.bumpAlloc (h : Inv s L) (hbump : (s.usage s.bump).existing = true)
    (hcounted : (s.usage s.bump).discounted = false) (hsize : (s.usage s.bump).used + size ≤ QP_CHUNK_SIZE)
    (hcont : Contained ref size) (hchunk : refChunk ref = s.bump)
    (hnew : ∀ x ∈ vec ref size, refChunk x = s.bump ∧ (s.usage s.bump).used ≤ refCell x ∧
      refCell x < (s.usage s.bump).used + size) : Inv (bumpAlloc s size) (L + vec ref size) :=
  { h with
    nodup := by
      refine Multiset.nodup_add.mpr ⟨h.nodup, vec_nodup _ _, Multiset.disjoint_left.mpr fun hx hx' => ?_⟩
      obtain ⟨hc, hu, -⟩ := hnew _ hx'
      have hlive := (h.live _ hx).2
      rw [hc] at hlive
      omega
    live := fun x hx => by
      rw [usage_bumpAlloc]
      rcases Multiset.mem_add.mp hx with hx | hx
      · exact ⟨(h.live x hx).1, Nat.lt_add_right _ (h.live x hx).2⟩
      · obtain ⟨hc, -, hu⟩ := hnew x hx
        rw [hc, if_pos rfl]
        exact ⟨hbump, hu⟩
    balance := fun c hc => by
      rw [usage_bumpAlloc] at hc ⊢
      rw [Multiset.countP_add, countP_vec hcont, hchunk, ← Nat.add_assoc, ← h.balance c hc]
    absent := fun c hc => by
      rw [usage_bumpAlloc] at hc ⊢
      have hne : c ≠ s.bump := fun heq => absurd (heq ▸ hc) (by simp [hbump])
      rw [if_neg hne]
      exact h.absent c hc
    mutable := by
      simp only [usage_bumpAlloc]
      exact h.mutable
    bound := by
      simp only [usage_bumpAlloc]
      exact h.bound
    slot := by
      simp only [usage_bumpAlloc]
      exact h.slot
    slot_free := by
      simp only [usage_bumpAlloc]
      exact h.slot_free
    size := fun c => by
      rw [usage_bumpAlloc]
      split_ifs with hc
      · rwa [hc]
      · exact h.size c
    used_eq := by
      have ht : total (Qp.bumpAlloc s size) (!·.discounted) used + _ = _ := total_setUsage (h.bound _ hbump) _ _ _
      have hu := h.used_eq
      simp only [share, hbump, hcounted, Bool.not_false, Bool.and_self, if_true] at ht
      change s.usedCount + size = _
      omega
    free_eq := h.free_eq.trans (free_bumpAlloc s size).symm
    discount := fun c hc => by
      rw [usage_bumpAlloc] at hc ⊢
      have hne : c ≠ s.bump := fun heq => absurd (heq ▸ hc) (by simp [hcounted])
      rw [if_neg hne]
      exact h.discount c hc }

theorem Active.bumpAlloc (h : Active s L) (hsize : (s.usage s.bump).used + size ≤ QP_CHUNK_SIZE)
    (hpos : 0 < size) : Alloc s L (makeRef s.bump (s.usage s.bump).used) size (bumpAlloc s size) := by
  have hlt : (s.usage s.bump).used < QP_CHUNK_SIZE := by omega
  have hchunk : refChunk (makeRef s.bump (s.usage s.bump).used) = s.bump := refChunk_makeRef hlt
  have hcell : refCell (makeRef s.bump (s.usage s.bump).used) = (s.usage s.bump).used := refCell_makeRef hlt
  generalize makeRef s.bump (s.usage s.bump).used = ref at hchunk hcell
  have hcont : Contained ref size := by
    unfold Contained
    rwa [hcell]
  -- the cells of the new vector lie behind the allocation point
  have hnew : ∀ x ∈ vec ref size, refChunk x = s.bump ∧ (s.usage s.bump).used ≤ refCell x ∧
      refCell x < (s.usage s.bump).used + size := by
    intro x hx
    obtain ⟨hle, hlt'⟩ := mem_vec.mp hx
    have hcx := hcont.cell (j := x - ref) (by omega)
    rw [Nat.add_sub_cancel' hle] at hcx
    refine ⟨(hcont.chunk_of_mem hx).trans hchunk, ?_, ?_⟩ <;> omega
  refine ⟨?_, hcont, fun x he hu => ?_, ⟨rfl, rfl⟩⟩
  · exact
      { h.toInv.bumpAlloc h.bump h.bump_counted hsize hcont hchunk hnew with
        bump := by
          simp only [usage_bumpAlloc]
          exact h.bump
        bump_counted := by
          simp only [usage_bumpAlloc]
          exact h.bump_counted
        fender := h.fender }
  · rw [usage_bumpAlloc]
    exact ⟨he, Nat.lt_add_right _ hu, rfl⟩

/-! ### A fresh chunk -/

/-- `chunk_alloc` of no cells. -/
def freshChunk (s : State) (c : Nat) : State :=
  let p := s.nextChunk
  let t : State := { s with
    mem := update s.mem p fun _ => .zero
    allocated := update s.allocated p true
    nextChunk := p + 1 }
  { (t.setPtr c (some p)).setUsage c { existing := true } with bump := c, fender := 0 }

/-- An empty bump chunk has been allocated. -/
structure Reset (s : State) (L : Multiset Nat) (s' : State) : Prop where
  active : Active s' L
  empty : s'.usage s'.bump = { existing := true }
  used : SameUsed s s'
  same : Same s s'

section
variable {b c : Nat}

theorem chunkAlloc_eq {size : Nat} (hptr : s.ptr c = none) (hu : s.usage c = {}) :
    s.chunkAlloc c size = .ok (makeRef c 0, bumpAlloc (freshChunk s c) size) := by
  unfold chunkAlloc insist
  rw [hptr, hu]
  simp only [if_true, bind, Except.bind, pure, Except.pure]
  congr 2
  simp [bumpAlloc, freshChunk, setUsage, setPtr]

theorem usage_freshChunk (s : State) (c c' : Nat) :
    (freshChunk s c).usage c' = if c' = c then { existing := true } else s.usage c' :=
  update_apply _ _ _ _

theorem ptr_setPtr (hb : s.base = some b) (c : Nat) (p : Option Nat) (c' : Nat) :
    (s.setPtr c p).ptr c' = if c' = c then p else s.ptr c' := by
  simpa [ptr, setPtr, hb] using update_apply _ _ _ _

theorem ptr_freshChunk (hb : s.base = some b) (c c' : Nat) :
    (freshChunk s c).ptr c' = if c' = c then some s.nextChunk else s.ptr c' :=
  ptr_setPtr hb c (some s.nextChunk) c'

theorem old_freshChunk {p : Nat} (hp : p < s.nextChunk) :
    (freshChunk s c).mem p = s.mem p ∧ (freshChunk s c).allocated p = s.allocated p :=
  ⟨update_of_ne (Nat.ne_of_lt hp) _ _, update_of_ne (Nat.ne_of_lt hp) _ _⟩

theorem total_freshChunk (hlt : c < s.chunkMax) (hu : s.usage c = {}) (p : Usage → Bool) (f : Usage → Nat)
    (hf : f { existing := true } = 0) : total (freshChunk s c) p f = total s p f := by
  have h : total (freshChunk s c) p f + _ = _ := total_setUsage hlt { existing := true } p f
  simpa [hu, share, hf] using h

section
variable (hb : s.base = some b) (hc : (s.usage c).existing = false)
include hb hc

theorem old_of_existing {c' : Nat} (he : (s.usage c').existing = true) :
    c' ≠ c ∧ (freshChunk s c).usage c' = s.usage c' ∧ (freshChunk s c).ptr c' = s.ptr c' := by
  have hne : c' ≠ c := fun heq => by simp [heq, hc] at he
  rw [usage_freshChunk, ptr_freshChunk hb, if_neg hne, if_neg hne]
  exact ⟨hne, rfl, rfl⟩

variable (h : Inv s L)
include h

theorem Inv.freshChunk (hlt : c < s.chunkMax) : Inv (freshChunk s c) L := by
  have hu := h.absent c hc
  exact
    { h with
      live := fun x hx => by
        rw [(old_of_existing hb hc (h.live x hx).1).2.1]
        exact h.live x hx
      balance := fun c' he => by
        rw [usage_freshChunk] at he ⊢
        split_ifs at he ⊢ with heq
        · have hnone : L.countP (refChunk · = c') = 0 := Multiset.countP_eq_zero.mpr fun x hx hxc =>
            (old_of_existing hb hc (h.live x hx).1).1 (hxc.trans heq)
          rw [hnone]
        · exact h.balance c' he
      absent := fun c' he => by
        rw [usage_freshChunk] at he ⊢
        split_ifs at he ⊢ with heq
        exact h.absent c' he
      mutable := fun c' => by
        rw [usage_freshChunk]
        split_ifs
        · rfl
        · exact h.mutable c'
      bound := fun c' he => by
        rw [usage_freshChunk] at he
        split_ifs at he with heq
        · exact heq ▸ hlt
        · exact h.bound c' he
      slot := fun c' he => by
        rw [usage_freshChunk] at he
        rw [ptr_freshChunk hb]
        split_ifs at he ⊢
        · exact ⟨_, rfl, update_self _ _ _⟩
        · obtain ⟨p, hp, ha⟩ := h.slot c' he
          exact ⟨p, hp, (old_freshChunk (h.fresh c' p hp)).2.trans ha⟩
      slot_inj := fun c1 c2 p hp1 hp2 => by
        rw [ptr_freshChunk hb] at hp1 hp2
        split_ifs at hp1 hp2 with h1 h2 h2
        · rw [h1, h2]
        · exact absurd (h.fresh c2 p hp2) (by simp_all)
        · exact absurd (h.fresh c1 p hp1) (by simp_all)
        · exact h.slot_inj c1 c2 p hp1 hp2
      slot_free := fun c' he => by
        rw [usage_freshChunk] at he
        rw [ptr_freshChunk hb]
        split_ifs at he ⊢
        exact h.slot_free c' he
      fresh := fun c' p hp => by
        rw [ptr_freshChunk hb] at hp
        split_ifs at hp
        · cases hp
          exact Nat.lt_succ_self _
        · exact Nat.lt_succ_of_lt (h.fresh c' p hp)
      size := fun c' => by
        rw [usage_freshChunk]
        split_ifs
        · exact Nat.zero_le _
        · exact h.size c'
      used_eq := h.used_eq.trans (total_freshChunk hlt hu _ used rfl).symm
      free_eq := h.free_eq.trans (total_freshChunk hlt hu _ free rfl).symm
      discount := fun c' hd => by
        rw [usage_freshChunk] at hd ⊢
        split_ifs at hd ⊢
        exact h.discount c' hd }

theorem Inv.reset (hlt : c < s.chunkMax) : Reset s L (Qp.freshChunk s c) := by
  have hbump : (Qp.freshChunk s c).usage c = { existing := true } := by rw [usage_freshChunk, if_pos rfl]
  refine ⟨?_, hbump, fun x he hx => ?_, ⟨rfl, rfl⟩⟩
  · exact
      { h.freshChunk hb hc hlt with
        bump := congrArg existing hbump
        bump_counted := congrArg discounted hbump
        fender := rfl }
  · obtain ⟨-, hu, hp⟩ := old_of_existing hb hc he
    rw [hu]
    refine ⟨he, hx, ?_⟩
    obtain ⟨p, hslot, -⟩ := h.slot _ he
    unfold cell
    rw [hp, hslot]
    exact congrFun (old_freshChunk (h.fresh _ p hslot)).1 _

end

end

/-! ### Larger arrays -/

/-- The array that is in use afterwards has the slots of the old one. -/
structure Grown (s : State) (newmax : Nat) (s' : State) : Prop where
  base : s'.base ≠ none
  ptr : ∀ c, s'.ptr c = if c < s.chunkMax then s.ptr c else none
  rest : s' = { s with bases := s'.bases, nextBase := s'.nextBase, base := s'.base, chunkMax := newmax }

theorem Inv.usage_realloc (h : Inv s L) : (fun c => if c < s.chunkMax then s.usage c else {}) = s.usage := by
  funext c
  split_ifs with hc
  · rfl
  · refine (h.absent c ?_).symm
    cases he : (s.usage c).existing with
    | false => rfl
    | true => exact absurd (h.bound c he) hc

theorem Inv.reallocChunkArrays (h : Inv s L) (newmax : Nat) : Grown s newmax (s.reallocChunkArrays newmax) := by
  unfold State.reallocChunkArrays
  rw [h.usage_realloc]
  cases hb : s.base with
  | none => exact ⟨Option.some_ne_none _, fun c => by simp [ptr, hb], rfl⟩
  | some b =>
    dsimp only
    split_ifs
    · exact ⟨hb.symm ▸ Option.some_ne_none _, fun c => by simp [ptr, hb], rfl⟩
    · exact ⟨Option.some_ne_none _, fun c => by simp [ptr, hb], rfl⟩

namespace Grown
variable {newmax : Nat} (g : Grown s newmax s')
include g

theorem usage : s'.usage = s.usage := by rw [g.rest]

theorem chunkMax : s'.chunkMax = newmax := by rw [g.rest]

variable (h : Inv s L)
include h

theorem ptr_of_existing {c : Nat} (he : (s.usage c).existing = true) : s'.ptr c = s.ptr c := by
  rw [g.ptr, if_pos (h.bound c he)]

theorem sameUsed : SameUsed s s' := fun x he hu => by
  rw [g.usage]
  refine ⟨he, hu, ?_⟩
  unfold cell
  rw [g.ptr_of_existing h he, g.rest]

variable (hle : s.chunkMax ≤ newmax)
include hle

theorem total_eq (p : Usage → Bool) (f : Usage → Nat) : total s' p f = total s p f := by
  unfold total
  rw [g.chunkMax, g.usage]
  refine (sum_subset (range_mono hle) fun c _ hc => ?_).symm
  have he : (s.usage c).existing = false := by
    cases he : (s.usage c).existing with
    | false => rfl
    | true => exact absurd (mem_range.mpr (h.bound c he)) hc
  rw [h.absent c he]
  rfl

theorem inv : Inv s' L := by
  have hptr : ∀ c p, s'.ptr c = some p → s.ptr c = some p := fun c p hp => by
    rw [g.ptr] at hp
    split_ifs at hp
    exact hp
  have hslot : ∀ c, (s.usage c).existing = true → ∃ p, s'.ptr c = some p ∧ s'.allocated p = true := fun c he => by
    rw [g.ptr_of_existing h he, g.rest]
    exact h.slot c he
  constructor
  · exact h.nodup
  · rw [g.usage]
    exact h.live
  · rw [g.usage]
    exact h.balance
  · rw [g.usage]
    exact h.absent
  · rw [g.usage]
    exact h.mutable
  · rw [g.usage, g.chunkMax]
    exact fun c he => Nat.lt_of_lt_of_le (h.bound c he) hle
  · exact fun _ => g.base
  · rw [g.usage]
    exact hslot
  · exact fun c c' p hp hp' => h.slot_inj c c' p (hptr c p hp) (hptr c' p hp')
  · rw [g.usage]
    intro c he
    rw [g.ptr, h.slot_free c he]
    exact ite_self _
  · rw [show s'.nextChunk = s.nextChunk by rw [g.rest]]
    exact fun c p hp => h.fresh c p (hptr c p hp)
  · rw [g.usage]
    exact h.size
  · rw [g.total_eq h hle, ← h.used_eq, g.rest]
  · rw [g.total_eq h hle, ← h.free_eq, g.rest]
  · rw [g.usage]
    exact h.discount

end Grown

/-! ### The slow path -/

theorem Inv.allocSlow (h : Inv s L) (size : Nat) :
    Runs (s.allocSlow size) fun r => ∃ t, Reset s L t ∧ r = (makeRef t.bump 0, Qp.bumpAlloc t size) := by
  unfold State.allocSlow
  split
  · rename_i c hfind
    have hc : (s.usage c).existing = false := by simpa using List.find?_some hfind
    have hlt : c < s.chunkMax := List.mem_range.mp (List.mem_of_find?_eq_some hfind)
    obtain ⟨b, hb⟩ := Option.ne_none_iff_exists'.mp (h.arrays (Nat.zero_lt_of_lt hlt))
    rw [chunkAlloc_eq (h.slot_free c hc) (h.absent c hc)]
    exact ⟨_, h.reset hb hc hlt, rfl⟩
  · -- no free slot: the arrays grow, and the first new slot is taken
    have hlt : s.chunkMax < growthFactor s.chunkMax := by
      unfold growthFactor
      omega
    have g := h.reallocChunkArrays (growthFactor s.chunkMax)
    have hinv := g.inv h hlt.le
    obtain ⟨b, hb⟩ := Option.ne_none_iff_exists'.mp g.base
    have hc : ((s.reallocChunkArrays (growthFactor s.chunkMax)).usage s.chunkMax).existing = false := by
      rw [g.usage]
      cases he : (s.usage s.chunkMax).existing with
      | false => rfl
      | true => exact absurd (h.bound _ he) (Nat.lt_irrefl _)
    rw [chunkAlloc_eq (hinv.slot_free _ hc) (hinv.absent _ hc)]
    have hreset := hinv.reset hb hc (g.chunkMax.symm ▸ hlt)
    have hsame : Same s (s.reallocChunkArrays (growthFactor s.chunkMax)) := by
      rw [g.rest]
      exact ⟨rfl, rfl⟩
    exact ⟨_, { hreset with
      used := (g.sameUsed h).trans hreset.used
      same := hsame.trans hreset.same }, rfl⟩

theorem Inv.allocReset (h : Inv s L) : Runs s.allocReset (Reset s L) := by
  refine (h.allocSlow 0).bind fun r hr => ?_
  obtain ⟨t, ht, rfl⟩ := hr
  have hnone : Qp.bumpAlloc t 0 = t := by simp [Qp.bumpAlloc, setUsage]
  rw [hnone]
  exact ht

theorem Alloc.live (h : Alloc s L ref size s') (ha : Active s L) {x : Nat} (hx : x ∈ L) :
    s'.cell x = s.cell x ∧ x ∉ vec ref size :=
  ⟨(h.used x (ha.live x hx).1 (ha.live x hx).2).2.2, Multiset.disjoint_left.mp (Multiset.nodup_add.mp h.active.nodup).2.2 hx⟩

theorem Active.allocTwigs (h : Active s L) (hpos : 0 < size) (hsize : size ≤ QP_CHUNK_SIZE) :
    Runs (s.allocTwigs size) fun r => Alloc s L r.1 size r.2 := by
  refine Checked.ite (fun hle => ?_) fun _ => ?_
  · exact h.bumpAlloc hle hpos
  · refine (h.toInv.allocSlow size).mono fun r hr => ?_
    obtain ⟨t, ht, rfl⟩ := hr
    have hused : (t.usage t.bump).used = 0 := by rw [ht.empty]
    have hle : (t.usage t.bump).used + size ≤ QP_CHUNK_SIZE := by omega
    have ha := ht.active.bumpAlloc hle hpos
    rw [hused] at ha
    exact { ha with
      used := ht.used.trans ha.used
      same := ht.same.trans ha.same }

end OqsBind.Dns.Qp
