import OqsBind.Theorems.QpEvacuate

/-! Freeing a chunk: the slot can be used again. -/

namespace OqsBind.Dns.Qp
open Function Multiset Finset State Usage

variable {s s' : State} {L : Multiset Nat} {c p : Nat}

/-- What `chunk_free` does to the chunk `c`. -/
structure Dropped (s : State) (c : Nat) (s' : State) : Prop where
  usage : ∀ c', s'.usage c' = if c' = c then {} else s.usage c'
  ptr : ∀ c', s'.ptr c' = if c' = c then none else s.ptr c'
  allocated : ∀ p, s'.allocated p = true ↔ s.allocated p = true ∧ s.ptr c ≠ some p
  used : s'.usedCount + (s.usage c).share (!·.discounted) used = s.usedCount
  free : s'.freeCount + (s.usage c).share (!·.discounted) free = s.freeCount
  rest : s' = { s with
    bases := s'.bases, allocated := s'.allocated, attached := s'.attached, usage := s'.usage,
    usedCount := s'.usedCount, freeCount := s'.freeCount }

/-- What the loop of `chunk_free` may change: leaves and base arrays lose references. -/
structure Scanned (s s' : State) : Prop where
  slots : ∀ b, (s'.bases b).ptr = (s.bases b).ptr
  rest : s' = { s with bases := s'.bases, attached := s'.attached }

theorem slots_unrefBase (s : State) (b b' : Nat) : ((s.unrefBase b).bases b').ptr = (s.bases b').ptr := by
  by_cases heq : b' = b
  · simp [unrefBase, heq]
  · simp [unrefBase, heq]

theorem Scanned.step (h : Scanned s s') (p used i : Nat) : Scanned s (chunkFreeCell p used s' i) := by
  unfold chunkFreeCell
  split
  · split_ifs
    · exact ⟨h.slots, by rw [detachLeaf, h.rest]⟩
    · exact h
  · split_ifs
    · split
      · exact ⟨fun b => (slots_unrefBase s' _ b).trans (h.slots b), by rw [unrefBase, h.rest]⟩
      · exact h
    · exact h
  · exact h

theorem scanned (s : State) (p used n : Nat) : Scanned s ((List.range n).foldl (chunkFreeCell p used) s) := by
  induction n with
  | zero => exact ⟨fun _ => rfl, rfl⟩
  | succ n ih =>
    rw [List.range_succ, List.foldl_append]
    exact ih.step p used n

theorem Scanned.ptr_eq (h : Scanned s s') (c : Nat) : s'.ptr c = s.ptr c := by
  have hbase : s'.base = s.base := by rw [h.rest]
  unfold ptr
  rw [hbase]
  cases s.base with
  | none => rfl
  | some b => exact congrFun (h.slots b) c

theorem share_discounted {u : Usage} (hd : u.discounted = true) (f : Usage → Nat) : u.share (!·.discounted) f = 0 := by
  simp [share, hd]

theorem share_counted {u : Usage} (he : u.existing = true) (hd : u.discounted = false) (f : Usage → Nat) :
    u.share (!·.discounted) f = f u := by
  simp [share, he, hd]

theorem chunkDiscount_spec (h : Inv s L) (he : (s.usage c).existing = true) (hs : Scanned s s') :
    ∃ t, s'.chunkDiscount c = .ok t ∧ t.usedCount + (s.usage c).share (!·.discounted) used = s.usedCount ∧
      t.freeCount + (s.usage c).share (!·.discounted) free = s.freeCount ∧ (∀ c' ≠ c, t.usage c' = s.usage c') ∧
      t = { s' with usage := t.usage, usedCount := t.usedCount, freeCount := t.freeCount } := by
  have husage : s'.usage = s.usage := by rw [hs.rest]
  have huc : s'.usedCount = s.usedCount := by rw [hs.rest]
  have hfc : s'.freeCount = s.freeCount := by rw [hs.rest]
  have hle : ∀ f : Usage → Nat, (s.usage c).share (!·.discounted) f ≤ total s (!·.discounted) f := fun f =>
    Finset.single_le_sum (f := fun c' => (s.usage c').share (!·.discounted) f) (fun _ _ => Nat.zero_le _)
      (Finset.mem_range.mpr (h.bound c he))
  unfold chunkDiscount
  simp only
  rw [husage]
  cases hd : (s.usage c).discounted with
  | true =>
    have hzero := share_discounted hd
    refine ⟨s', rfl, ?_, ?_, fun c' _ => by rw [husage], rfl⟩
    · rw [hzero, huc, Nat.add_zero]
    · rw [hzero, hfc, Nat.add_zero]
  | false =>
    have hshare := share_counted he hd
    have hu := hle used
    have hf := hle free
    rw [hshare, ← h.used_eq] at hu
    rw [hshare, ← h.free_eq] at hf
    rw [insist_pos (by rwa [huc]), insist_pos (by rwa [hfc])]
    refine ⟨_, rfl, ?_, ?_, fun c' hne => ?_, rfl⟩
    · show s'.usedCount - (s.usage c).used + _ = _
      rw [hshare, huc, Nat.sub_add_cancel hu]
    · show s'.freeCount - (s.usage c).free + _ = _
      rw [hshare, hfc, Nat.sub_add_cancel hf]
    · exact update_of_ne hne _ _

/-- The end of `chunk_free`. -/
def dropChunk (s : State) (c p : Nat) : State :=
  (setPtr { s with allocated := update s.allocated p false } c none).setUsage c {}

theorem base_of_ptr (hp : s.ptr c = some p) : ∃ b, s.base = some b := by
  unfold ptr at hp
  cases hb : s.base with
  | none =>
    rw [hb] at hp
    cases hp
  | some b => exact ⟨b, rfl⟩

theorem Inv.chunkFree (h : Inv s L) (he : (s.usage c).existing = true) :
    ∃ t, s.chunkFree c = .ok t ∧ Dropped s c t := by
  obtain ⟨p, hp, ha⟩ := h.slot c he
  obtain ⟨b, hb⟩ := base_of_ptr hp
  have hs := scanned s p (s.usage c).used (s.usage c).used
  obtain ⟨t, ht, hu, hf, hother, hrest⟩ := chunkDiscount_spec h he hs
  have hcode : s.chunkFree c = ((List.range (s.usage c).used).foldl (chunkFreeCell p (s.usage c).used) s).chunkDiscount c >>=
      fun t => insist .badFree (t.allocated p = true) >>= fun _ => .ok (dropChunk t c p) := by
    unfold State.chunkFree
    rw [hp]
    rfl
  rw [hcode, ht]
  generalize (List.range (s.usage c).used).foldl (chunkFreeCell p (s.usage c).used) s = s1 at hs hrest
  have hbt : t.base = some b := by rw [hrest, hs.rest, hb]
  have halloc : t.allocated = s.allocated := by rw [hrest, hs.rest]
  have hptr : ∀ c', t.ptr c' = s.ptr c' := fun c' => by
    rw [hrest]
    exact hs.ptr_eq c'
  refine ⟨dropChunk t c p, ?_, fun c' => ?_, fun c' => ?_, fun p' => ?_, hu, hf, ?_⟩
  · show insist .badFree (t.allocated p = true) >>= _ = _
    rw [insist_pos (by rwa [halloc])]
    rfl
  · show update t.usage c {} c' = _
    rw [update_apply]
    split_ifs with heq
    · rfl
    · exact hother c' heq
  · rw [← hptr]
    exact ptr_setPtr (s := { t with allocated := update t.allocated p false }) hbt c none c'
  · show update t.allocated p false p' = true ↔ _
    rw [halloc, hp, update_apply]
    split_ifs with heq
    · simp [heq]
    · simp [Ne.symm heq]
  · unfold dropChunk setPtr setUsage
    rw [hrest, hs.rest]

namespace Dropped
variable (d : Dropped s c s')
include d

theorem existing {c' : Nat} (he : (s'.usage c').existing = true) : c' ≠ c ∧ (s.usage c').existing = true := by
  rw [d.usage] at he
  split_ifs at he with heq
  exact ⟨heq, he⟩

theorem usage_ne {c' : Nat} (hne : c' ≠ c) : s'.usage c' = s.usage c' := by rw [d.usage, if_neg hne]

theorem ptr_ne {c' : Nat} (hne : c' ≠ c) : s'.ptr c' = s.ptr c' := by rw [d.ptr, if_neg hne]

theorem ptr_some {c' p' : Nat} (hp : s'.ptr c' = some p') : s.ptr c' = some p' := by
  rw [d.ptr] at hp
  split_ifs at hp
  exact hp

theorem cell_ne {x : Nat} (hne : refChunk x ≠ c) : s'.cell x = s.cell x := by
  unfold cell
  rw [d.ptr_ne hne, d.rest]

theorem total_eq (hc : c < s.chunkMax) (p : Usage → Bool) (f : Usage → Nat) :
    total s' p f + (s.usage c).share p f = total s p f := by
  have husage : s'.usage = update s.usage c {} := by
    funext c'
    rw [d.usage, update_apply]
  have h := total_setUsage hc {} p f
  have hmax : s'.chunkMax = s.chunkMax := by rw [d.rest]
  have hempty : ({} : Usage).share p f = 0 := rfl
  rw [hempty, Nat.add_zero] at h
  rw [← h]
  unfold total
  rw [husage, hmax]
  rfl

theorem inv (h : Inv s L) (he : (s.usage c).existing = true) (hnone : ∀ x ∈ L, refChunk x ≠ c) : Inv s' L := by
  have hmax : s'.chunkMax = s.chunkMax := by rw [d.rest]
  constructor
  · exact h.nodup
  · intro x hx
    rw [d.usage_ne (hnone x hx)]
    exact h.live x hx
  · intro c' he'
    obtain ⟨hne, he'⟩ := d.existing he'
    rw [d.usage_ne hne]
    exact h.balance c' he'
  · intro c' he'
    rw [d.usage] at he' ⊢
    split_ifs at he' ⊢ with heq
    · rfl
    · exact h.absent c' he'
  · intro c'
    rw [d.usage]
    split_ifs
    · rfl
    · exact h.mutable c'
  · intro c' he'
    rw [hmax]
    exact h.bound c' (d.existing he').2
  · rw [hmax, d.rest]
    exact h.arrays
  · intro c' he'
    obtain ⟨hne, he'⟩ := d.existing he'
    obtain ⟨p', hp', ha'⟩ := h.slot c' he'
    exact ⟨p', (d.ptr_ne hne).trans hp', (d.allocated p').mpr ⟨ha', fun heq => hne (h.slot_inj c' c p' hp' heq)⟩⟩
  · exact fun c1 c2 p' hp1 hp2 => h.slot_inj c1 c2 p' (d.ptr_some hp1) (d.ptr_some hp2)
  · intro c' he'
    rw [d.usage] at he'
    rw [d.ptr]
    split_ifs at he' ⊢
    · rfl
    · exact h.slot_free c' he'
  · rw [show s'.nextChunk = s.nextChunk by rw [d.rest]]
    exact fun c' p' hp' => h.fresh c' p' (d.ptr_some hp')
  · intro c'
    rw [d.usage]
    split_ifs
    · exact Nat.zero_le _
    · exact h.size c'
  · have ht := d.total_eq (h.bound c he) (!·.discounted) Usage.used
    have hu := d.used
    rw [h.used_eq] at hu
    omega
  · have ht := d.total_eq (h.bound c he) (!·.discounted) Usage.free
    have hf := d.free
    rw [h.free_eq] at hf
    omega
  · intro c' hd
    rw [d.usage] at hd ⊢
    split_ifs at hd ⊢
    exact h.discount c' hd

end Dropped

/-- Some chunks without live cells may have been freed. -/
structure Recycled (s : State) (L : Multiset Nat) (s' : State) : Prop where
  active : Active s' L
  cell : ∀ x ∈ L, s'.cell x = s.cell x
  same : Same s s'

theorem Inv.unused (h : Inv s L) (he : (s.usage c).existing = true) (hu : s.chunkUsage c = 0) : ∀ x ∈ L, refChunk x ≠ c := by
  have hb := h.balance c he
  unfold chunkUsage at hu
  have hcount : L.countP (refChunk · = c) = 0 := by omega
  exact countP_eq_zero.mp hcount

theorem Active.recycled (h : Active s L) (d : Dropped s c s') (he : (s.usage c).existing = true) (hb : c ≠ s.bump)
    (hu : s.chunkUsage c = 0) : Recycled s L s' := by
  have hnone := h.toInv.unused he hu
  have hbump : s'.bump = s.bump := by rw [d.rest]
  have hub : s'.usage s'.bump = s.usage s.bump := by rw [hbump, d.usage_ne (Ne.symm hb)]
  refine ⟨?_, fun x hx => d.cell_ne (hnone x hx), ⟨by rw [d.rest], by rw [d.rest]⟩⟩
  exact
    { d.inv h.toInv he hnone with
      bump := by
        rw [hub]
        exact h.bump
      bump_counted := by
        rw [hub]
        exact h.bump_counted
      fender := by
        rw [d.rest]
        exact h.fender }

theorem Recycled.refl (h : Active s L) : Recycled s L s := ⟨h, fun _ _ => rfl, Same.refl s⟩

theorem Recycled.trans {s'' : State} (h : Recycled s L s') (h' : Recycled s' L s'') : Recycled s L s'' :=
  ⟨h'.active, fun x hx => (h'.cell x hx).trans (h.cell x hx), h.same.trans h'.same⟩

theorem Active.recycleChunk (h : Active s L) (c : Nat) : Runs (s.recycleChunk c) (Recycled s L) := by
  refine Checked.ite (fun hcond => ?_) fun _ => Recycled.refl h
  obtain ⟨hb, hu, he, -⟩ := hcond
  obtain ⟨t, ht, d⟩ := h.toInv.chunkFree he
  rw [ht]
  exact h.recycled d he hb hu

theorem Active.recycle (h : Active s L) : Runs s.recycle (Recycled s L) := by
  apply Checked.foldlM (I := fun _ => Recycled s L)
  · exact fun c _ t ht => (ht.active.recycleChunk c).mono fun _ ht' => ht.trans ht'
  · exact Recycled.refl h

end OqsBind.Dns.Qp
