import OqsBind.Theorems.QpTree
import Mathlib.Tactic.Abel

/-! How memory represents a tree. `Rep v t n F` says that in the memory `v` the node `n` stands for the tree `t`,
    whose cells below `n` are `F`. A `Hole` is a trie with one cell left open: whatever tree is stored there
    with cells of its own, the whole is represented again. -/

namespace OqsBind.Dns.Qp
open Function Multiset

def vec (ref size : Nat) : Multiset Nat := (range size).map (ref + ·)

theorem mem_vec {ref size x : Nat} : x ∈ vec ref size ↔ ref ≤ x ∧ x < ref + size := by
  simp only [vec, mem_map, mem_range]
  constructor
  · rintro ⟨j, hj, rfl⟩
    omega
  · rintro ⟨hle, hlt⟩
    exact ⟨x - ref, by omega, by omega⟩

theorem vec_nodup (ref size : Nat) : (vec ref size).Nodup :=
  (nodup_range size).map fun _ _ h => Nat.add_left_cancel h

theorem vec_card (ref size : Nat) : (vec ref size).card = size := by simp [vec]

theorem vec_succ (ref size : Nat) : vec ref (size + 1) = vec ref size + vec (ref + size) 1 := by
  rw [vec, range_succ, map_cons, ← singleton_add, add_comm]
  rfl

theorem vec_one (ref : Nat) : vec ref 1 = {ref} := rfl

/-- The cells of a vector lie in one chunk. -/
def Contained (ref size : Nat) : Prop := refCell ref + size ≤ QP_CHUNK_SIZE

section
variable {ref size j : Nat}

theorem Contained.chunk (h : Contained ref size) (hj : j < size) : refChunk (ref + j) = refChunk ref := by
  unfold Contained refCell QP_CHUNK_SIZE at h
  unfold refChunk QP_CHUNK_SIZE
  omega

theorem Contained.cell (h : Contained ref size) (hj : j < size) : refCell (ref + j) = refCell ref + j := by
  unfold Contained refCell QP_CHUNK_SIZE at h
  unfold refCell QP_CHUNK_SIZE
  omega

theorem Contained.chunk_of_mem {x : Nat} (h : Contained ref size) (hx : x ∈ vec ref size) : refChunk x = refChunk ref := by
  obtain ⟨hle, hlt⟩ := mem_vec.mp hx
  have := h.chunk (j := x - ref) (by omega)
  rwa [Nat.add_sub_cancel' hle] at this

theorem refCell_lt (x : Nat) : refCell x < QP_CHUNK_SIZE := Nat.mod_lt _ (by decide)

theorem refChunk_makeRef {c i : Nat} (h : i < QP_CHUNK_SIZE) : refChunk (makeRef c i) = c := by
  unfold refChunk makeRef QP_CHUNK_SIZE at *
  omega

theorem refCell_makeRef {c i : Nat} (h : i < QP_CHUNK_SIZE) : refCell (makeRef c i) = i := by
  unfold refCell makeRef QP_CHUNK_SIZE at *
  omega

end

def Rep (v : Nat → Node) : Tree → Node → Multiset Nat → Prop
  | .leaf l, n, F => n = .leaf l ∧ F = 0
  | .branch index kids, n, F => ∃ (twigs : Nat) (G : Nat → Multiset Nat), n = .branch index twigs ∧
      Contained twigs (branchTwigsSize index) ∧ F = vec twigs (branchTwigsSize index) + ∑ b ∈ twigBits index, G b ∧
      ∀ b ∈ twigBits index, Rep v (kids b) (v (twigs + branchTwigPos index b)) (G b)

section
variable {v v' : Nat → Node} {t : Tree} {n : Node} {F : Multiset Nat} {index : BitVec 64} {kids kids' : Nat → Tree}
  {twigs : Nat} {b : Nat}

theorem twig_mem_vec (hb : b ∈ twigBits index) :
    twigs + branchTwigPos index b ∈ vec twigs (branchTwigsSize index) :=
  mem_vec.mpr ⟨Nat.le_add_right .., Nat.add_lt_add_left (pos_lt_size hb) _⟩

theorem Rep.congr : ∀ {t : Tree} {n : Node} {F : Multiset Nat}, Rep v t n F → (∀ x ∈ F, v' x = v x) → Rep v' t n F
  | .leaf l, _, _, h, _ => h
  | .branch index kids, _, _, ⟨twigs, G, hn, hc, hF, hkids⟩, hv => by
    refine ⟨twigs, G, hn, hc, hF, fun b hb => ?_⟩
    subst hF
    rw [hv _ (mem_add.mpr (.inl (twig_mem_vec hb)))]
    refine (hkids b hb).congr fun x hx => hv x (mem_add.mpr (.inr ?_))
    exact mem_sum.mpr ⟨b, hb, hx⟩

end

/-- The tree of a trie as the only twig of the node that `MOVABLE_ROOT` makes. -/
def rootTree (t : Tree) : Tree := .branch movableRoot fun _ => t

theorem rep_rootTree {v : Nat → Node} {t : Tree} {root : Nat} {F : Multiset Nat} :
    Rep v (rootTree t) (.branch movableRoot root) F ↔ ∃ G, F = root ::ₘ G ∧ Rep v t (v root) G := by
  unfold rootTree
  simp only [Rep, movableRoot_size, movableRoot_bits, Finset.sum_singleton, Finset.mem_singleton, forall_eq,
    movableRoot_pos, Nat.add_zero, vec_one]
  constructor
  · rintro ⟨twigs, G, hn, -, hF, hrep⟩
    cases hn
    exact ⟨G SHIFT_NOBYTE, hF, hrep⟩
  · rintro ⟨G, hF, hrep⟩
    refine ⟨root, fun _ => G, rfl, ?_, hF, hrep⟩
    exact refCell_lt root

/-- The trie at `root` with the cell `a` left open. The other cells are `C`. A tree that is stored at `a`
    completes `plug`; its keys must agree with `κ` before `lo`, and the leaves outside are `rest`. -/
structure Hole (makekey : Leaf → Key) (v : Nat → Node) (root a : Nat) (C : Multiset Nat) (plug : Tree → Tree)
    (lo : Nat) (κ : Nat → Nat) (rest : Multiset Leaf) : Prop where
  rep : ∀ (v' : Nat → Node) (t : Tree) (G : Multiset Nat), (∀ x ∈ C, v' x = v x) → Rep v' t (v' a) G →
    Rep v' (rootTree (plug t)) (.branch movableRoot root) (a ::ₘ C + G)
  leaves : ∀ t : Tree, (plug t).leaves = rest + t.leaves
  wf : ∀ t : Tree, t.WF makekey lo → (∀ l ∈ t.leaves, ∀ o < lo, qpkeyBit (makekey l) o = κ o) → (plug t).WF makekey 0

namespace Hole
variable {makekey : Leaf → Key} {v v' : Nat → Node} {root a : Nat} {C : Multiset Nat} {plug : Tree → Tree}
  {lo : Nat} {κ : Nat → Nat} {rest : Multiset Leaf}

theorem top (v : Nat → Node) (root : Nat) : Hole makekey v root root 0 id 0 κ 0 where
  rep := fun v' t G _ hrep => rep_rootTree.mpr ⟨G, by simp, hrep⟩
  leaves := fun t => (zero_add _).symm
  wf := fun t ht _ => ht

theorem down {index : BitVec 64} {kids : Nat → Tree} {twigs : Nat} {G : Nat → Multiset Nat} {b0 : Nat} {κ' : Nat → Nat}
    (h : Hole makekey v root a C plug lo κ rest) (ha : v a = .branch index twigs)
    (hc : Contained twigs (branchTwigsSize index))
    (hkids : ∀ b ∈ twigBits index, Rep v (kids b) (v (twigs + branchTwigPos index b)) (G b))
    (hwf : (Tree.branch index kids).WF makekey lo)
    (hagree : ∀ l ∈ (Tree.branch index kids).leaves, ∀ o < lo, qpkeyBit (makekey l) o = κ o)
    (hb : b0 ∈ twigBits index)
    (hκ : ∃ w ∈ (kids b0).leaves, ∀ o < branchKeyOffset index + 1, κ' o = qpkeyBit (makekey w) o) :
    Hole makekey v root (twigs + branchTwigPos index b0)
      (a ::ₘ C + ((vec twigs (branchTwigsSize index)).erase (twigs + branchTwigPos index b0) +
        ∑ b ∈ (twigBits index).erase b0, G b))
      (fun t => plug (.branch index (update kids b0 t))) (branchKeyOffset index + 1) κ'
      (rest + ∑ b ∈ (twigBits index).erase b0, (kids b).leaves) := by
  have hleaves : ∀ t : Tree, (Tree.branch index (update kids b0 t)).leaves =
      t.leaves + ∑ b ∈ (twigBits index).erase b0, (kids b).leaves := by
    intro t
    rw [Tree.leaves, Tree.sum_leaves_update, Finset.sum_update_of_mem hb, Finset.sdiff_singleton_eq_erase]
  obtain ⟨w, hw, hκ⟩ := hκ
  have hwb : w ∈ (Tree.branch index kids).leaves := Tree.mem_branch hb hw
  refine ⟨fun v' t H hv' hrep => ?_, fun t => ?_, fun t ht hk => ?_⟩
  · -- the branch is still in its cell, and its other twigs are untouched
    have hva : v' a = .branch index twigs := by
      rw [← ha]
      exact hv' a (mem_add.mpr (.inl (mem_cons_self _ _)))
    have hbranch : Rep v' (.branch index (update kids b0 t)) (v' a)
        (vec twigs (branchTwigsSize index) + (H + ∑ b ∈ (twigBits index).erase b0, G b)) := by
      refine ⟨twigs, update G b0 H, hva, hc, ?_, fun b hb' => ?_⟩
      · congr 1
        rw [Finset.sum_update_of_mem hb, Finset.sdiff_singleton_eq_erase]
      · by_cases heq : b = b0
        · subst heq
          simpa using hrep
        · have hmem : b ∈ (twigBits index).erase b0 := Finset.mem_erase.mpr ⟨heq, hb'⟩
          rw [update_of_ne heq, update_of_ne heq]
          have hcell : twigs + branchTwigPos index b ∈
              (vec twigs (branchTwigsSize index)).erase (twigs + branchTwigPos index b0) := by
            rw [mem_erase_of_ne fun h' => heq (pos_inj hb' hb (Nat.add_left_cancel h'))]
            exact twig_mem_vec hb'
          rw [hv' _ (mem_add.mpr (.inr (mem_add.mpr (.inl hcell))))]
          refine (hkids b hb').congr fun x hx => hv' x ?_
          exact mem_add.mpr (.inr (mem_add.mpr (.inr (mem_sum.mpr ⟨b, hmem, hx⟩))))
    have hall := h.rep v' _ _ (fun x hx => hv' x (mem_add.mpr (.inl (mem_cons_of_mem hx)))) hbranch
    have hmem : twigs + branchTwigPos index b0 ∈ vec twigs (branchTwigsSize index) := twig_mem_vec hb
    have hvec := cons_erase hmem
    convert hall using 1
    generalize (vec twigs (branchTwigsSize index)).erase (twigs + branchTwigPos index b0) = E at hvec
    rw [← hvec]
    simp only [← singleton_add]
    abel
  · rw [h.leaves, hleaves]
    abel
  · -- the new keys agree with those of `w`, which were below this twig before
    have hkw : ∀ l ∈ t.leaves, ∀ o < branchKeyOffset index + 1, qpkeyBit (makekey l) o = qpkeyBit (makekey w) o :=
      fun l hl o ho => (hk l hl o ho).trans (hκ o ho)
    apply h.wf
    · refine Tree.wf_branch (makekey w) rfl hwf.1 hwf.2.1 hwf.2.2.1 fun b hb' => ?_
      by_cases heq : b = b0
      · rw [heq, update_self]
        exact ⟨ht, fun l hl => ⟨(hkw l hl _ (Nat.lt_succ_self _)).trans (hwf.bit hb hw),
          fun o ho => hkw l hl o (Nat.lt_succ_of_lt ho)⟩⟩
      · rw [update_of_ne heq]
        exact hwf.fitting hwb hb'
    · intro l hl o ho
      rw [hleaves] at hl
      rcases mem_add.mp hl with hl | hl
      · rw [hkw l hl o (Nat.lt_succ_of_lt (ho.trans_le hwf.1)), hagree w hwb o ho]
      · obtain ⟨b, hb', hl⟩ := mem_sum.mp hl
        exact hagree l (Tree.mem_branch (Finset.mem_of_mem_erase hb') hl) o ho

end Hole

end OqsBind.Dns.Qp
