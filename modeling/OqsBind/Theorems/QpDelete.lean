import OqsBind.Theorems.QpInsert

/-! Deletion and search. -/

namespace OqsBind.Dns.Qp
open Multiset State

variable {makekey : Leaf → Key} {s s' : State} {C G F : Multiset Nat} {root a lo : Nat} {plug : Tree → Tree} {κ : Nat → Nat}
  {rest leaves : Multiset Leaf} {t : Tree} {key : Key} {l : Leaf}

/-! ### Search -/

theorem getLoop_spec (hk : KeyOk key) {v : Nat → Node} : ∀ {t : Tree} {fuel a : Nat} {F : Multiset Nat}, Rep v t (v a) F →
    t.Fits fuel → getLoop v key (fuel + 1) a = .ok (t.lookup key)
  | .leaf l, fuel, a, F, hrep, _ => by
    rw [getLoop, hrep.1]
    rfl
  | .branch index kids, fuel, a, F, hrep, hfits => by
    obtain ⟨m, rfl, -, hfits⟩ := hfits
    obtain ⟨twigs, hcell⟩ := hrep.branch_cell
    rw [hcell] at hrep
    obtain ⟨G, hT, -⟩ := rep_branch_iff.mp hrep
    rw [getLoop, hcell, Tree.lookup]
    simp only
    by_cases hb : branchKeybit index key ∈ twigBits index
    · rw [if_pos ((hasTwig_iff hk index).mpr hb), if_pos hb]
      exact getLoop_spec hk (hT.kid _ hb) (hfits _ hb)
    · rw [if_neg fun h => hb ((hasTwig_iff hk index).mp h), if_neg hb]

/-- What a search of leaves by key may return. -/
def Finds (makekey : Leaf → Key) (m : Multiset Leaf) (key : Key) (r : Result × Option Leaf) : Prop :=
  (r = (.notfound, none) ∧ ∀ l ∈ m, ¬SameKey key (makekey l)) ∨ ∃ l ∈ m, SameKey key (makekey l) ∧ r = (.success, some l)

theorem lookup_absent (hwf : t.WF makekey lo) (h : ∀ l, t.lookup key = some l → ¬SameKey key (makekey l)) :
    ∀ l ∈ t.leaves, ¬SameKey key (makekey l) := fun l hl hsame => h l (Tree.lookup_of_mem hwf hl hsame) hsame

theorem getkey_spec (hk : KeyOk key) {v : Nat → Node} {o : Option Tree} {r : Option Nat}
    (hs : match o with
      | none => r = none
      | some t => ∃ root F, r = some root ∧ Rep v (rootTree t) (.branch movableRoot root) F)
    (hwf : ∀ t, o = some t → t.WF makekey 0) :
    ∃ res, getkey makekey v r key = .ok res ∧ Finds makekey (leavesOf o) key res := by
  cases o with
  | none =>
    subst hs
    exact ⟨_, rfl, .inl ⟨rfl, fun l hl => absurd hl (notMem_zero l)⟩⟩
  | some t =>
    obtain ⟨root, F, rfl, hrep⟩ := hs
    obtain ⟨G, -, hrept⟩ := rep_rootTree.mp hrep
    have hwft := hwf t rfl
    have hloop := getLoop_spec hk hrept (hwft.fits (n := QP_MAXKEY + 1) (by omega))
    unfold getkey
    rw [show maxDepth = QP_MAXKEY + 1 + 1 from rfl]
    simp only
    rw [hloop]
    cases hl : t.lookup key with
    | none => exact ⟨_, rfl, .inl ⟨rfl, lookup_absent hwft fun l h => by rw [hl] at h; cases h⟩⟩
    | some l =>
      show ∃ res, (if qpkeyCompare key (makekey l) ≠ none then _ else _) = _ ∧ _
      by_cases hcmp : qpkeyCompare key (makekey l) = none
      · rw [if_neg fun h => h hcmp]
        exact ⟨_, rfl, .inr ⟨l, Tree.mem_of_lookup hl, qpkeyCompare_eq_none.mp hcmp, rfl⟩⟩
      · rw [if_pos hcmp]
        refine ⟨_, rfl, .inl ⟨rfl, lookup_absent hwft fun l' h hsame => ?_⟩⟩
        rw [hl, Option.some.injEq] at h
        subst h
        exact hcmp (qpkeyCompare_eq_none.mpr hsame)

/-! ### The descent -/

/-- The leaf that a deletion has found: the root, or a twig of a branch. -/
def Found (makekey : Leaf → Key) (s : State) (root : Nat) (l : Leaf) (key : Key) (leaves : Multiset Leaf) : Option Nat → Prop
  | none => ∃ G κ, Focus makekey s root root 0 G id 0 κ 0 (.leaf l) ∧ leaves = {l}
  | some a => ∃ C G plug lo κ rest index kids, Focus makekey s root a C G plug lo κ rest (.branch index kids) ∧
      branchKeybit index key ∈ twigBits index ∧ kids (branchKeybit index key) = .leaf l ∧
      leaves = rest + (Tree.branch index kids).leaves

theorem deleteDescend_spec (hk : KeyOk key) : ∀ {t : Tree} {fuel a : Nat} {parent : Option Nat} {C G : Multiset Nat}
      {plug : Tree → Tree} {lo : Nat} {κ : Nat → Nat} {rest : Multiset Leaf},
    Focus makekey s root a C G plug lo κ rest t → t.Fits fuel →
    (∀ l, t = .leaf l → Found makekey s root l key (rest + t.leaves) parent) →
    ∃ found, deleteDescend key (fuel + 1) s parent a = .ok (found, s) ∧ t.lookup key = found.map Prod.snd ∧
      ∀ parent l, found = some (parent, l) → Found makekey s root l key (rest + t.leaves) parent
  | .leaf l, fuel, a, parent, C, G, plug, lo, κ, rest, hf, _, hpar => by
    unfold deleteDescend
    rw [hf.rep.1]
    refine ⟨_, rfl, rfl, fun parent' l' hl => ?_⟩
    cases hl
    exact hpar l rfl
  | .branch index kids, fuel, a, parent, C, G, plug, lo, κ, rest, hf, hfits, _ => by
    obtain ⟨m, rfl, -, hfits⟩ := hfits
    obtain ⟨twigs, H, hcell, hT, rfl⟩ := hf.branch
    unfold deleteDescend
    rw [hcell, Tree.lookup]
    simp only
    by_cases hb : branchKeybit index key ∈ twigBits index
    · obtain ⟨C', plug', κ', hf'⟩ := hf.down hcell hT hb
      have hleaves : rest + ∑ b' ∈ (twigBits index).erase (branchKeybit index key), (kids b').leaves +
          (kids (branchKeybit index key)).leaves = rest + (Tree.branch index kids).leaves := by
        rw [Tree.branch_leaves_erase hb]
        abel
      have hfound : ∀ l, kids (branchKeybit index key) = .leaf l → Found makekey s root l key _ (some a) := fun l hl =>
        ⟨C, _, plug, lo, κ, rest, index, kids, hf, hb, hl, hleaves⟩
      have hspec := deleteDescend_spec hk hf' (hfits _ hb) hfound
      rw [hleaves] at hspec
      rw [if_pos ((hasTwig_iff hk index).mpr hb), if_pos hb, hf.active.makeTwigsMutable]
      exact hspec
    · rw [if_neg fun hhas => hb ((hasTwig_iff hk index).mp hhas), if_neg hb]
      exact ⟨none, rfl, rfl, fun parent' l' h => by cases h⟩

/-! ### The twig -/

/-- A leaf has left the trie. -/
structure Removed (makekey : Leaf → Key) (s : State) (leaves : Multiset Leaf) (s' : State) : Prop where
  holds : Holds makekey s' leaves
  leafCount : s'.leafCount = s.leafCount

section
variable {index : BitVec 64} {kids : Nat → Tree} {twigs bit : Nat} {H : Nat → Multiset Nat}

theorem Twigs.shrink (hT : Twigs s.cell index kids twigs H) (hb : bit ∈ twigBits index) {v : Nat → Node}
    (hlt : ∀ j < branchTwigPos index bit, v (twigs + j) = s.cell (twigs + j))
    (hge : ∀ j, branchTwigPos index bit ≤ j → j < branchTwigsSize (index &&& ~~~(1#64 <<< bit)) →
      v (twigs + j) = s.cell (twigs + (j + 1)))
    (hkeep : ∀ b ∈ twigBits index, ∀ x ∈ H b, v x = s.cell x) :
    Twigs v (index &&& ~~~(1#64 <<< bit)) kids twigs H := by
  have hr := bit_range hb
  have hsize := shrink_size hb
  refine ⟨?_, fun b hb' => ?_⟩
  · have hc := hT.contained
    unfold Contained at hc ⊢
    omega
  · have hold : b ∈ twigBits index := by
      rw [shrink_bits] at hb'
      exact Finset.mem_of_mem_erase hb'
    have hne := ne_of_mem_of_not_mem hb' shrink_absent
    have hcell : v (twigs + branchTwigPos (index &&& ~~~(1#64 <<< bit)) b) = s.cell (twigs + branchTwigPos index b) := by
      rcases Nat.lt_or_gt_of_ne hne with hlt' | hgt
      · have hpos : _ = branchTwigPos (index &&& ~~~(1#64 <<< bit)) b := grow_pos_le hr (bit_range hb') hlt'.le
        rw [shrink_grow hb] at hpos
        rw [← hpos]
        exact hlt _ (pos_lt_pos hold hb hlt')
      · have hpos := grow_pos_gt hr shrink_absent hb' hgt
        rw [shrink_grow hb] at hpos
        have := pos_lt_pos hb hold hgt
        rw [hpos, hge _ (by omega) (pos_lt_size hb')]
    rw [hcell]
    exact (hT.kid b hold).congr (hkeep b hold)

section
variable (hf : Focus makekey s root a C (twigCells index twigs H) plug lo κ rest (.branch index kids))
  (hT : Twigs s.cell index kids twigs H) (hb : bit ∈ twigBits index) (hl : kids bit = .leaf l)
  (hleaves : rest + (Tree.branch index kids).leaves = l ::ₘ leaves)
include hf hT hb hl hleaves

theorem Focus.deletePair (hsize : branchTwigsSize index = 2) :
    Runs ((s.setCell a (s.cell (twigs + if branchTwigPos index bit = 0 then 1 else 0))).squashTwigs twigs 2) fun r =>
      Removed makekey s leaves r.2 := by
  -- the other twig
  obtain ⟨other, hne, hbits⟩ : ∃ other, bit ≠ other ∧ twigBits index = {bit, other} := by
    have hcard : (twigBits index).card = 2 := (branchTwigsSize_eq index).symm.trans hsize
    obtain ⟨other, ho⟩ := Finset.card_eq_one.mp ((Finset.card_erase_of_mem hb).trans (by rw [hcard]))
    have hmem : other ∈ (twigBits index).erase bit := ho ▸ Finset.mem_singleton_self other
    exact ⟨other, (Finset.ne_of_mem_erase hmem).symm, by rw [← Finset.insert_erase hb, ho]⟩
  have ho : other ∈ twigBits index := hbits ▸ Finset.mem_insert_of_mem (Finset.mem_singleton_self other)
  have hpos : (if branchTwigPos index bit = 0 then 1 else 0) = branchTwigPos index other := by
    have h1 := pos_lt_size hb
    have h2 := pos_lt_size ho
    have h3 : branchTwigPos index bit ≠ branchTwigPos index other := fun heq => hne (pos_inj hb ho heq)
    split_ifs <;> omega
  rw [hpos]
  have hHbit : H bit = 0 := by
    have hleaf := hT.kid bit hb
    rw [hl] at hleaf
    exact hleaf.2
  obtain ⟨ha1, hc1, hs1⟩ := hf.active.setCell (s.cell (twigs + branchTwigPos index other)) (by simp : a ∈ _)
  generalize s.setCell a (s.cell (twigs + branchTwigPos index other)) = s1 at *
  have hkeep : ∀ x, x ∈ C ∨ x ∈ twigCells index twigs H → s1.cell x = s.cell x := fun x hx => by
    rw [hc1, if_neg (focus_cell_ne hf.active.nodup hx)]
  have hrep1 : Rep s1.cell (kids other) (s1.cell a) (H other) := by
    rw [hc1, if_pos rfl]
    exact (hT.kid other ho).congr fun x hx => hkeep x (.inr (kid_mem_twigCells ho hx))
  rw [show a ::ₘ C + twigCells index twigs H = a ::ₘ C + H other + vec twigs 2 by
    unfold twigCells
    rw [hsize, hbits, Finset.sum_pair hne, hHbit]
    abel] at ha1
  refine (hf.squash (fun x hx => hkeep x (.inl hx)) hrep1 hs1.rootRef ((hf.wf.kid ho).mono (Nat.le_succ_of_le hf.wf.1))
    (fun l' hl' => hf.agree l' (Tree.mem_branch ho hl')) ha1 (hsize ▸ hT.contained) Nat.two_pos).mono fun r hr => ?_
  rw [Tree.leaves, hbits, Finset.sum_pair hne, hl, Tree.leaves, singleton_add, add_cons] at hleaves
  exact ⟨(cons_inj_right l).mp hleaves ▸ hr.2.1, hr.2.2.trans hs1.leafCount⟩

theorem Focus.deleteShrink (hsize : 2 < branchTwigsSize index) :
    Runs (((s.setCell a (.branch (index &&& ~~~(1#64 <<< bit)) twigs)).moveTwigs
        (twigs + branchTwigPos index bit) (twigs + branchTwigPos index bit + 1)
        (branchTwigsSize index - branchTwigPos index bit - 1)).squashTwigs (twigs + branchTwigsSize index - 1) 1) fun r =>
      Removed makekey s leaves r.2 := by
  have hsucc := shrink_size hb
  have hposlt := pos_lt_size hb
  have hcard : 2 < (twigBits index).card := (branchTwigsSize_eq index) ▸ hsize
  have hHbit : H bit = 0 := by
    have hleaf := hT.kid bit hb
    rw [hl] at hleaf
    exact hleaf.2
  -- the branch
  obtain ⟨ha1, hc1, hs1⟩ := hf.active.setCell (.branch (index &&& ~~~(1#64 <<< bit)) twigs) (by simp : a ∈ _)
  generalize s.setCell a (.branch (index &&& ~~~(1#64 <<< bit)) twigs) = s1 at *
  have hkeep : ∀ x, x ∈ C ∨ x ∈ twigCells index twigs H → s1.cell x = s.cell x := fun x hx => by
    rw [hc1, if_neg (focus_cell_ne hf.active.nodup hx)]
  have hvec : ∀ x ∈ vec twigs (branchTwigsSize index), x ∈ twigCells index twigs H := fun x hx =>
    mem_add.mpr (.inl hx)
  have hmem : ∀ j < branchTwigsSize index, twigs + j ∈ vec twigs (branchTwigsSize index) := fun j hj =>
    mem_vec.mpr ⟨Nat.le_add_right .., by omega⟩
  have htwigs : ∀ j < branchTwigsSize index, s1.cell (twigs + j) = s.cell (twigs + j) := fun j hj =>
    hkeep _ (.inr (hvec _ (hmem j hj)))
  -- the twigs behind
  generalize hpos : branchTwigPos index bit = pos at *
  obtain ⟨k, hk⟩ : ∃ k, branchTwigsSize (index &&& ~~~(1#64 <<< bit)) = pos + k := ⟨_, (Nat.add_sub_cancel' (by omega)).symm⟩
  have hlast : twigs + branchTwigsSize index - 1 = twigs + (pos + k) := by omega
  have hlen : branchTwigsSize index - pos - 1 = k := by omega
  rw [hlast, hlen]
  have hns : (s1.twigs (twigs + pos + 1) k).length = k := length_twigs
  have hsub : ∀ x ∈ vec (twigs + pos) k, ∃ j < branchTwigsSize index, pos ≤ j ∧ j < pos + k ∧ x = twigs + j := fun x hx => by
    obtain ⟨h1, h2⟩ := mem_vec.mp hx
    exact ⟨x - twigs, by omega, by omega, by omega, by omega⟩
  have hc2 : Contained (twigs + pos) (s1.twigs (twigs + pos + 1) k).length := by
    have hc := hT.contained
    unfold Contained at hc ⊢
    rw [hT.contained.cell hposlt]
    omega
  have hfill := ha1.writeTwigs hc2 fun x hx => by
    obtain ⟨j, hj, -, -, rfl⟩ := hsub x (hns ▸ hx)
    exact mem_add.mpr (.inr (hvec _ (hmem j hj)))
  have hmoved : ∀ j < k, (s1.moveTwigs (twigs + pos) (twigs + pos + 1) k).cell (twigs + (pos + j)) =
      s.cell (twigs + (pos + j + 1)) := by
    intro j hj
    rw [← Nat.add_assoc twigs pos j, moveTwigs, hfill.inside j _ (twigs_getElem? hj), ← htwigs _ (by omega)]
    congr 1
    omega
  have hkept : ∀ x, x ∉ vec (twigs + pos) k → (s1.moveTwigs (twigs + pos) (twigs + pos + 1) k).cell x = s1.cell x :=
    fun x hx => hfill.outside x (hns.symm ▸ hx)
  have hfill : Filled s1 _ _ _ (s1.moveTwigs (twigs + pos) (twigs + pos + 1) k) := hfill
  generalize s1.moveTwigs (twigs + pos) (twigs + pos + 1) k = s2 at *
  -- the trie without the leaf
  have hdisj : ∀ x, x ∈ C ∨ (∃ b ∈ twigBits index, x ∈ H b) → s2.cell x = s.cell x := by
    intro x hx
    have hnot : x ∉ vec twigs (branchTwigsSize index) := by
      have hnodup := hf.active.nodup
      rw [twigCells, add_comm (vec _ _), ← add_assoc] at hnodup
      refine disjoint_left.mp (nodup_add.mp hnodup).2.2 ?_
      rcases hx with hx | ⟨b, hb', hx⟩
      · simp [hx]
      · simp [mem_sum.mpr ⟨b, hb', hx⟩]
    have hx' : x ∈ C ∨ x ∈ twigCells index twigs H := by
      rcases hx with hx | ⟨b, hb', hx⟩
      · exact .inl hx
      · exact .inr (kid_mem_twigCells hb' hx)
    rw [hkept x fun hmem' => hnot ?_, hkeep x hx']
    obtain ⟨j, hj, -, -, rfl⟩ := hsub x hmem'
    exact hmem j hj
  have hT2 : Twigs s2.cell (index &&& ~~~(1#64 <<< bit)) kids twigs H := by
    refine hT.shrink hb (fun j hj => ?_) (fun j hj hj' => ?_) fun b hb' x hx => hdisj x (.inr ⟨b, hb', hx⟩)
    · rw [hkept _ fun hmem => ?_, htwigs j (by omega)]
      have := (mem_vec.mp hmem).1
      omega
    · have := hmoved (j - pos) (by omega)
      rwa [show pos + (j - pos) = j by omega] at this
  have hcella : s2.cell a = .branch (index &&& ~~~(1#64 <<< bit)) twigs := by
    rw [hkept a fun hmem' => ?_, hc1, if_pos rfl]
    obtain ⟨j, hj, -, -, heq⟩ := hsub a hmem'
    exact focus_cell_ne hf.active.nodup (.inr (hvec _ (hmem j hj))) heq.symm
  have hrep2 := rep_branch_iff.mpr ⟨_, hT2, rfl⟩
  rw [← hcella] at hrep2
  have hleaf : (Tree.branch index kids).leaves = l ::ₘ (Tree.branch (index &&& ~~~(1#64 <<< bit)) kids).leaves :=
    Tree.shrink_leaves hb hl
  have ha2 := hfill.active
  rw [show a ::ₘ C + twigCells index twigs H =
      a ::ₘ C + twigCells (index &&& ~~~(1#64 <<< bit)) twigs H + vec (twigs + (pos + k)) 1 by
    unfold twigCells
    rw [hsucc, hk, vec_succ, shrink_bits, ← Finset.add_sum_erase _ H hb, hHbit]
    abel] at ha2
  have hsame := hs1.trans hfill.same
  refine (hf.squash (fun x hx => hdisj x (.inl hx)) hrep2 hsame.rootRef (Tree.shrink_wf hb hcard hf.wf)
    (fun l' hl' => hf.agree l' (hleaf ▸ mem_cons_of_mem hl')) ha2 (refCell_lt _) Nat.one_pos).mono fun r hr => ?_
  rw [hleaf, add_cons] at hleaves
  exact ⟨(cons_inj_right l).mp hleaves ▸ hr.2.1, hr.2.2.trans hsame.leafCount⟩

theorem Focus.deleteTwig : Runs (s.deleteTwig a index twigs bit) (Removed makekey s leaves) := by
  have hbit : bit ≠ 0 := by
    have := (bit_range hb).1
    unfold SHIFT_NOBYTE at this
    omega
  have hsize : 2 ≤ branchTwigsSize index := by
    rw [branchTwigsSize_eq]
    exact hf.wf.2.2.1
  unfold State.deleteTwig
  rw [insist_pos hbit]
  refine Checked.ite (fun htwo => ?_) fun hne => ?_
  · exact (hf.deletePair hT hb hl hleaves htwo).bind fun r hr => hr
  · exact (hf.deleteShrink hT hb hl hleaves (Nat.lt_of_le_of_ne hsize (Ne.symm hne))).bind fun r hr => hr

end

end

theorem Tree.WF.two_leaves {index : BitVec 64} {kids : Nat → Tree} (h : (Tree.branch index kids).WF makekey lo) :
    2 ≤ (Tree.branch index kids).leaves.card := by
  have hone : ∀ b ∈ twigBits index, 1 ≤ (kids b).leaves.card := fun b hb => by
    obtain ⟨l, hl⟩ := (h.kid hb).exists_leaf
    exact card_pos_iff_exists_mem.mpr ⟨l, hl⟩
  rw [Tree.leaves, card_sum]
  calc 2 ≤ (twigBits index).card := h.2.2.1
    _ = ∑ _b ∈ twigBits index, 1 := by rw [Finset.card_eq_sum_ones]
    _ ≤ ∑ b ∈ twigBits index, (kids b).leaves.card := Finset.sum_le_sum hone

/-! ### The operation -/

/-- The end of `dns_qp_deletekey`, once the leaf has been found. -/
def deleteFound (s : State) (key : Key) (root : Nat) (parent : Option Nat) (l : Leaf) : Except Fault (Result × Option Leaf × State) :=
  let s := s.detachLeaf l
  let s := { s with leafCount := s.leafCount - 1 }
  if s.leafCount = 0 then do
    insist .shape (parent = none)
    let (_, s) ← s.freeTwigs root 1
    return (.success, some l, { s with rootRef := none })
  else
    match parent with
    | none => .error .shape
    | some n =>
      match s.cell n with
      | .branch index ref => do
        let s ← s.deleteTwig n index ref (branchKeybit index key)
        return (.success, some l, s)
      | _ => .error .shape

theorem deletekey_eq {root : Nat} (h : s.rootRef = some root) : s.deletekey makekey key =
    s.makeRootMutable >>= fun r => deleteDescend key maxDepth r.2 none r.1 >>= fun d =>
      match d.1 with
      | none => .ok (.notfound, none, d.2)
      | some (parent, l) =>
        if qpkeyCompare key (makekey l) ≠ none then .ok (.notfound, none, d.2) else deleteFound d.2 key r.1 parent l := by
  unfold deletekey
  rw [h]
  rfl

theorem Found.delete {parent : Option Nat} (h : Found makekey s root l key leaves parent)
    (hcount : s.leafCount = leaves.card) (hl : l ∈ leaves) : Runs (deleteFound s key root parent l) fun r =>
      r.1 = .success ∧ r.2.1 = some l ∧ Trie makekey r.2.2 (leaves.erase l) := by
  unfold deleteFound
  simp only
  -- what has changed so far
  obtain ⟨s1, hs1⟩ : ∃ s1 : State, s1 = { s.detachLeaf l with leafCount := (s.detachLeaf l).leafCount - 1 } := ⟨_, rfl⟩
  rw [← hs1]
  have hcount1 : s1.leafCount = s.leafCount - 1 := by rw [hs1]; rfl
  have hleft : s1.leafCount = (leaves.erase l).card := by rw [hcount1, card_erase_of_mem hl, hcount]; rfl
  cases parent with
  | none =>
    obtain ⟨G, κ, hf, rfl⟩ := h
    have ha1 : Active s1 (0 + vec root 1) := by
      have ha := hf.active
      rw [hf.rep.2] at ha
      rw [hs1, zero_add]
      exact (ha.setAttached _).setTrie _ _ _
    have herase : ({l} : Multiset Leaf).erase l = 0 := by simp
    rw [herase] at hleft ⊢
    have hzero : (s.detachLeaf l).leafCount - 1 = 0 := hcount1.symm.trans hleft
    rw [if_pos hzero]
    refine (ha1.freeTwigs (refCell_lt root) Nat.one_pos).bind fun r hr => ⟨rfl, rfl, ?_, hr.2.same.leafCount.trans hleft⟩
    exact ⟨none, 0, ⟨rfl, rfl⟩, hr.2.active.setTrie _ _ _, (fun t ht => by cases ht), rfl⟩
  | some a =>
    obtain ⟨C, G, plug, lo, κ, rest, index, kids, hf, hb, hkid, hleaves⟩ := h
    -- the branch keeps another leaf
    have htwo := hf.wf.two_leaves
    have hcard := congrArg card hleaves
    rw [card_add] at hcard
    have hne : (s.detachLeaf l).leafCount - 1 ≠ 0 := by
      show s.leafCount - 1 ≠ 0
      omega
    rw [if_neg hne]
    have hf1 : Focus makekey s1 root a C G plug lo κ rest (.branch index kids) := by
      rw [hs1]
      exact { hf with active := (hf.active.setAttached _).setTrie _ _ _ }
    obtain ⟨twigs, H, hcell, hT, rfl⟩ := hf1.branch
    simp only
    rw [hcell]
    refine (hf1.deleteTwig hT hb hkid (hleaves.symm.trans (cons_erase hl).symm)).bind fun s2 h2 => ?_
    exact ⟨rfl, rfl, h2.holds, h2.leafCount.trans hleft⟩

/-- `dns_qp_deletekey` removes the leaf of the key, if there is one, and nothing else. -/
theorem Trie.deletekey {m : Multiset Leaf} (h : Trie makekey s m) (hk : KeyOk key) :
    Runs (s.deletekey makekey key) fun r => Finds makekey m key (r.1, r.2.1) ∧
      Trie makekey r.2.2 (match r.2.1 with | none => m | some l => m.erase l) := by
  obtain ⟨⟨o, F, hs, ha, hwf, rfl⟩, hcount⟩ := id h
  cases o with
  | none =>
    unfold State.deletekey
    rw [hs.1]
    exact ⟨.inl ⟨rfl, fun l hl => absurd hl (notMem_zero l)⟩, h⟩
  | some t =>
    have hwft := hwf t rfl
    obtain ⟨root, hroot, hrep⟩ := hs
    obtain ⟨G1, hf1⟩ := Focus.top (κ := fun _ => 0) ha hroot hrep hwft
    have hpar : ∀ l, t = .leaf l → Found makekey s root l key (0 + t.leaves) none := by
      rintro l rfl
      exact ⟨G1, _, hf1, zero_add _⟩
    obtain ⟨found, hrun, hlook, hfound⟩ := deleteDescend_spec hk hf1 (hwft.fits (n := QP_MAXKEY + 1) (by omega)) hpar
    rw [zero_add] at hfound
    rw [deletekey_eq hroot, ha.makeRootMutable hroot]
    show Checked _ (deleteDescend key (QP_MAXKEY + 1 + 1) s none root >>= _) _
    rw [hrun]
    cases found with
    | none =>
      refine ⟨.inl ⟨rfl, lookup_absent hwft fun l hl => ?_⟩, h⟩
      rw [hlook] at hl
      cases hl
    | some f =>
      obtain ⟨parent, l⟩ := f
      have hlook : t.lookup key = some l := hlook
      refine Checked.ite (fun hne => ?_) fun heq => ?_
      · refine ⟨.inl ⟨rfl, lookup_absent hwft fun l' hl hsame => ?_⟩, h⟩
        rw [hlook, Option.some.injEq] at hl
        subst hl
        exact hne (qpkeyCompare_eq_none.mpr hsame)
      · rw [not_not] at heq
        have hmem : l ∈ t.leaves := Tree.mem_of_lookup hlook
        refine ((hfound parent l rfl).delete hcount hmem).mono fun r hr => ?_
        obtain ⟨h1, h2, h3⟩ := hr
        rw [h1, h2]
        exact ⟨.inr ⟨l, hmem, qpkeyCompare_eq_none.mp heq, rfl⟩, h3⟩

end OqsBind.Dns.Qp
