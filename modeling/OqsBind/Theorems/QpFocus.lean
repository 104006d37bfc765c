import OqsBind.Theorems.QpCompact

/-! Going down the trie. A `Focus` is a cell with the tree that is stored there, and the rest of the trie around it. -/

namespace OqsBind.Dns.Qp
open Multiset

variable {makekey : Leaf → Key} {s s' : State} {C G F : Multiset Nat} {root a lo : Nat} {plug : Tree → Tree} {κ : Nat → Nat}
  {rest : Multiset Leaf} {t : Tree}

def leavesOf : Option Tree → Multiset Leaf
  | none => 0
  | some t => t.leaves

/-- The tree of the trie has the leaves `m`. -/
def Holds (makekey : Leaf → Key) (s : State) (m : Multiset Leaf) : Prop :=
  ∃ o F, Stands s o F ∧ Active s F ∧ (∀ t, o = some t → t.WF makekey 0) ∧ leavesOf o = m

theorem Holds.of_tree (hs : Stands s (some t) F) (ha : Active s F) (hwf : t.WF makekey 0) : Holds makekey s t.leaves :=
  ⟨some t, F, hs, ha, fun _ ht => Option.some.inj ht ▸ hwf, rfl⟩

/-- The trie holds the leaves `m`, and may be modified. -/
structure Trie (makekey : Leaf → Key) (s : State) (m : Multiset Leaf) : Prop where
  holds : Holds makekey s m
  leafCount : s.leafCount = m.card

theorem Trie.qpCompact {m : Multiset Leaf} (h : Trie makekey s m) (mode : Gc) :
    Runs (s.qpCompact mode) fun s' => Trie makekey s' m := by
  obtain ⟨⟨o, F, hs, ha, hwf, rfl⟩, hcount⟩ := h
  have hcomp : Compactable s o := ⟨fun ho => hcount.trans (ho ▸ rfl), fun t ht => (hwf t ht).fits_rootTree⟩
  refine (ha.qpCompact hs hcomp mode).mono fun s' hc => ?_
  obtain ⟨F', hs', ha'⟩ := hc.stands
  exact ⟨⟨o, F', hs', ha', hwf, rfl⟩, hc.leafCount.trans hcount⟩

theorem focus_cell_ne (h : (a ::ₘ C + G).Nodup) {x : Nat} (hx : x ∈ C ∨ x ∈ G) : x ≠ a := by
  rw [cons_add, nodup_cons] at h
  rintro rfl
  exact h.1 (mem_add.mpr hx)

/-- The tree `t` is stored at the cell `a`, in the cells `G` below it. -/
structure Focus (makekey : Leaf → Key) (s : State) (root a : Nat) (C G : Multiset Nat) (plug : Tree → Tree) (lo : Nat)
    (κ : Nat → Nat) (rest : Multiset Leaf) (t : Tree) : Prop where
  hole : Hole makekey s.cell root a C plug lo κ rest
  rep : Rep s.cell t (s.cell a) G
  active : Active s (a ::ₘ C + G)
  wf : t.WF makekey lo
  agree : ∀ l ∈ t.leaves, ∀ o < lo, qpkeyBit (makekey l) o = κ o
  root : s.rootRef = some root

theorem Focus.top (ha : Active s F) (hroot : s.rootRef = some root)
    (hrep : Rep s.cell (rootTree t) (.branch movableRoot root) F) (hwf : t.WF makekey 0) :
    ∃ G, Focus makekey s root root 0 G id 0 κ 0 t := by
  obtain ⟨G, rfl, hrep'⟩ := rep_rootTree.mp hrep
  exact ⟨G, Hole.top _ _, hrep', by simpa using ha, hwf, fun l _ o ho => absurd ho (Nat.not_lt_zero o), hroot⟩

theorem Active.makeRootMutable (h : Active s F) (hroot : s.rootRef = some root) : s.makeRootMutable = .ok (root, s) := by
  unfold State.makeRootMutable
  simp [hroot, h.cellsImmutable]

theorem Active.makeTwigsMutable (h : Active s F) (n : Nat) (index : BitVec 64) (twigs : Nat) :
    s.makeTwigsMutable n index twigs = .ok (twigs, s) := by
  unfold State.makeTwigsMutable
  simp [h.cellsImmutable]

section
variable {t' : Tree} {G' : Multiset Nat} (h : Focus makekey s root a C G plug lo κ rest t)
  (hcell : ∀ x ∈ C, s'.cell x = s.cell x) (hrep : Rep s'.cell t' (s'.cell a) G') (hroot : s'.rootRef = s.rootRef)
  (hwf : t'.WF makekey lo) (hagree : ∀ l ∈ t'.leaves, ∀ o < lo, qpkeyBit (makekey l) o = κ o)
include h hcell hrep hroot hwf hagree

/-- Another tree at the focus, in another state that has the same context. -/
theorem Focus.plug_in : Stands s' (some (plug t')) (a ::ₘ C + G') ∧ (plug t').WF makekey 0 ∧
    (plug t').leaves = rest + t'.leaves :=
  ⟨⟨root, hroot.trans h.root, h.hole.rep s'.cell t' G' hcell hrep⟩, h.hole.wf t' hwf hagree, h.hole.leaves t'⟩

/-- A vector of which nothing is left goes, once another tree stands at the focus. -/
theorem Focus.squash {ref size : Nat} (ha : Active s' (a ::ₘ C + G' + vec ref size)) (hcont : Contained ref size)
    (hpos : 0 < size) : Runs (s'.squashTwigs ref size) fun r =>
      r.1 = true ∧ Holds makekey r.2 (rest + t'.leaves) ∧ r.2.leafCount = s'.leafCount := by
  obtain ⟨hst, hwf', hleaves⟩ := h.plug_in hcell hrep hroot hwf hagree
  have hcomp : Compactable s' (some (plug t')) := ⟨nofun, fun _ ht => Option.some.inj ht ▸ hwf'.fits_rootTree⟩
  refine (ha.squashTwigs hst hcomp hcont hpos).mono fun r hr => ⟨hr.1, ?_, hr.2.leafCount⟩
  obtain ⟨F, hs, hact⟩ := hr.2.stands
  rw [← hleaves]
  exact Holds.of_tree hs hact hwf'

end

section
variable {index : BitVec 64} {kids : Nat → Tree} {twigs b : Nat} {H : Nat → Multiset Nat}

theorem Focus.branch (h : Focus makekey s root a C G plug lo κ rest (.branch index kids)) :
    ∃ twigs H, s.cell a = .branch index twigs ∧ Twigs s.cell index kids twigs H ∧ G = twigCells index twigs H := by
  obtain ⟨twigs, hcell⟩ := h.rep.branch_cell
  have hrep := h.rep
  rw [hcell] at hrep
  obtain ⟨H, hT, hG⟩ := rep_branch_iff.mp hrep
  exact ⟨twigs, H, hcell, hT, hG⟩

theorem Focus.down (h : Focus makekey s root a C (twigCells index twigs H) plug lo κ rest (.branch index kids))
    (hcell : s.cell a = .branch index twigs) (hT : Twigs s.cell index kids twigs H) (hb : b ∈ twigBits index) :
    ∃ C' plug' κ', Focus makekey s root (twigs + branchTwigPos index b) C' (H b) plug'
      (branchKeyOffset index + 1) κ' (rest + ∑ b' ∈ (twigBits index).erase b, (kids b').leaves) (kids b) := by
  have hwf := h.wf.kid hb
  obtain ⟨w, hw⟩ := hwf.exists_leaf
  have hκ : ∃ w' ∈ (kids b).leaves, ∀ o < branchKeyOffset index + 1, qpkeyBit (makekey w) o = qpkeyBit (makekey w') o :=
    ⟨w, hw, fun _ _ => rfl⟩
  have hhole := h.hole.down hcell hT.contained hT.kid h.wf h.agree hb hκ
  refine ⟨_, _, _, hhole, hT.kid b hb, ?_, hwf, ?_, h.root⟩
  · have hvec := cons_erase (twig_mem_vec hb : twigs + branchTwigPos index b ∈ vec twigs (branchTwigsSize index))
    have ha := h.active
    rw [twigCells_erase hb] at ha
    convert ha using 1
    generalize (vec twigs (branchTwigsSize index)).erase (twigs + branchTwigPos index b) = E at hvec ⊢
    rw [← hvec]
    simp only [← singleton_add]
    abel
  · intro l hl o ho
    rcases Nat.lt_succ_iff_lt_or_eq.mp ho with hlt | rfl
    · exact h.wf.agree (Tree.mem_branch hb hl) (Tree.mem_branch hb hw) hlt
    · rw [h.wf.bit hb hl, h.wf.bit hb hw]

end

end OqsBind.Dns.Qp
