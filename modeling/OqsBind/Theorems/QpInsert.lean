import OqsBind.Theorems.QpFocus
import OqsBind.Theorems.QpKeyOrder

/-! Insertion. -/

namespace OqsBind.Dns.Qp
open List Function State

variable {makekey : Leaf → Key} {s s' : State} {C G F : Multiset Nat} {root a lo : Nat} {plug : Tree → Tree} {κ : Nat → Nat}
  {rest leaves : Multiset Leaf} {t : Tree} {key : Key} {new old : Leaf} {offset : Nat}

/-! ### The first descent -/

theorem hasTwig_iff (hk : KeyOk key) (index : BitVec 64) :
    branchHasTwig index (branchKeybit index key) = true ↔ branchKeybit index key ∈ twigBits index :=
  branchHasTwig_iff (hk.bit _)

theorem insertSearch_spec (hk : KeyOk key) : ∀ {t : Tree} {fuel a : Nat} {F : Multiset Nat}, Rep s.cell t (s.cell a) F →
    t.Fits fuel → ∃ l, s.insertSearch key (fuel + 1) a = .ok l ∧ Tree.Reaches key t l
  | .leaf l, fuel, a, F, hrep, _ => by
    refine ⟨l, ?_, .here l⟩
    rw [insertSearch, hrep.1]
  | .branch index kids, fuel, a, F, hrep, hfits => by
    obtain ⟨m, rfl, hpos, hfits⟩ := hfits
    obtain ⟨twigs, hcell⟩ := hrep.branch_cell
    rw [hcell] at hrep
    obtain ⟨G, hT, -⟩ := rep_branch_iff.mp hrep
    -- the twig of the key, or else the first one
    obtain ⟨b, hb, hkey, hpick⟩ : ∃ b ∈ twigBits index, (branchKeybit index key ∈ twigBits index → b = branchKeybit index key) ∧
        (if branchHasTwig index (branchKeybit index key) then branchTwigPos index (branchKeybit index key) else 0) =
          branchTwigPos index b := by
      by_cases hmem : branchKeybit index key ∈ twigBits index
      · exact ⟨_, hmem, fun _ => rfl, if_pos ((hasTwig_iff hk index).mpr hmem)⟩
      · obtain ⟨b, hb, hp⟩ := exists_pos hpos
        refine ⟨b, hb, fun h => absurd h hmem, ?_⟩
        rw [if_neg fun h => hmem ((hasTwig_iff hk index).mp h), hp]
    obtain ⟨l, hl, hr⟩ := insertSearch_spec hk (hT.kid b hb) (hfits b hb)
    refine ⟨l, ?_, .down hb hkey hr⟩
    simpa [insertSearch, hcell, hpick] using hl

/-! ### The second descent -/

/-- The place for a new leaf: the tree below the cell holds the old leaf, and no branch before the offset. -/
def Place (makekey : Leaf → Key) (s : State) (a : Nat) (new old : Leaf) (offset : Nat) (leaves : Multiset Leaf) : Prop :=
  ∃ root C G plug lo κ rest t, Focus makekey s root a C G plug lo κ rest t ∧ lo ≤ offset ∧
    Tree.Reaches (makekey new) t old ∧ rest + t.leaves = leaves ∧
    match t with
    | .leaf _ => True
    | .branch index _ => offset ≤ branchKeyOffset index

theorem insertDescend_spec (hk : KeyOk (makekey new)) (hagree : ∀ o < offset, qpkeyBit (makekey new) o = qpkeyBit (makekey old) o) :
    ∀ {t : Tree} {fuel a : Nat} {C G : Multiset Nat} {plug : Tree → Tree} {lo : Nat} {κ : Nat → Nat} {rest : Multiset Leaf},
      Focus makekey s root a C G plug lo κ rest t → t.Fits fuel → lo ≤ offset → Tree.Reaches (makekey new) t old →
      ∃ n, insertDescend (makekey new) offset (fuel + 1) s a = .ok (n, s) ∧ Place makekey s n new old offset (rest + t.leaves)
  | .leaf l, fuel, a, C, G, plug, lo, κ, rest, hf, _, hlo, hr => by
    unfold insertDescend
    rw [hf.rep.1]
    exact ⟨a, rfl, root, C, G, plug, lo, κ, rest, _, hf, hlo, hr, rfl, trivial⟩
  | .branch index kids, fuel, a, C, G, plug, lo, κ, rest, hf, hfits, hlo, hr => by
    obtain ⟨m, rfl, -, hfits⟩ := hfits
    obtain ⟨twigs, H, hcell, hT, rfl⟩ := hf.branch
    unfold insertDescend
    rw [hcell]
    by_cases hle : offset ≤ branchKeyOffset index
    · exact ⟨a, if_pos hle, root, C, _, plug, lo, κ, rest, _, hf, hlo, hr, rfl, hle⟩
    · obtain ⟨hb, hr'⟩ := hr.step hf.wf hagree (Nat.not_le.mp hle)
      obtain ⟨C', plug', κ', hf'⟩ := hf.down hcell hT hb
      obtain ⟨n, hrun, hplace⟩ := insertDescend_spec hk hagree hf' (hfits _ hb) (Nat.not_le.mp hle) hr'
      simp only
      rw [if_neg hle, hf.active.makeTwigsMutable]
      refine ⟨n, ?_, ?_⟩
      · show insist .shape (branchHasTwig index (branchKeybit index (makekey new))) >>= _ = _
        rw [insist_pos ((hasTwig_iff hk index).mpr hb)]
        exact hrun
      · have hleaves : rest + ∑ b' ∈ (twigBits index).erase (branchKeybit index (makekey new)), (kids b').leaves +
            (kids (branchKeybit index (makekey new))).leaves = rest + (Tree.branch index kids).leaves := by
          rw [Tree.branch_leaves_erase hb]
          abel
        rwa [hleaves] at hplace

/-! ### The new leaf -/

/-- The trie has one more leaf. -/
structure Inserted (makekey : Leaf → Key) (s : State) (new : Leaf) (leaves : Multiset Leaf) (s' : State) : Prop where
  holds : Holds makekey s' (new ::ₘ leaves)
  leafCount : s'.leafCount = s.leafCount + 1

theorem Inserted.done {n : Nat} {att : Leaf → Int} (h : Holds makekey s' (new ::ₘ leaves)) (hn : n = s.leafCount + 1) :
    Inserted makekey s new leaves { s' with attached := att, leafCount := n } := by
  obtain ⟨o, F, hs, ha, hwf⟩ := h
  exact ⟨⟨o, F, hs.congr rfl fun _ _ => rfl, (ha.setAttached att).setTrie _ _ _, hwf⟩, hn⟩

/-- The difference between the new key and the one it is compared with. -/
structure Differ (makekey : Leaf → Key) (new old : Leaf) (offset : Nat) : Prop where
  newOk : KeyOk (makekey new)
  oldOk : KeyOk (makekey old)
  bound : offset < QP_MAXKEY
  agree : ∀ o < offset, qpkeyBit (makekey new) o = qpkeyBit (makekey old) o
  differ : qpkeyBit (makekey new) offset ≠ qpkeyBit (makekey old) offset

section
variable (hf : Focus makekey s root a C G plug lo κ rest t) (hd : Differ makekey new old offset) (hlo : lo ≤ offset)
include hf hd hlo

theorem Focus.agree_new (hold : old ∈ t.leaves) : ∀ l ∈ new ::ₘ t.leaves, ∀ o < lo, qpkeyBit (makekey l) o = κ o := by
  intro l hl o hlt
  rcases Multiset.mem_cons.mp hl with rfl | hl
  · rw [hd.agree o (Nat.lt_of_lt_of_le hlt hlo)]
    exact hf.agree old hold o hlt
  · exact hf.agree l hl o hlt

theorem Focus.insertNewbranch (hold : old ∈ t.leaves) (hbelow : t.Below offset) :
    Runs (s.insertNewbranch a new offset (qpkeyBit (makekey new) offset) (qpkeyBit (makekey old) offset)) fun r =>
      r.1 = .success ∧ Inserted makekey s new (rest + t.leaves) r.2 := by
  have hn := hd.newOk.bit offset
  have ho := hd.oldOk.bit offset
  have hne := hd.differ
  have hleaves : (Tree.newBranch offset _ _ new t).leaves = new ::ₘ t.leaves := Tree.newBranch_leaves hn ho hne
  have hwf := Tree.newBranch_wf hd.bound rfl rfl hne hd.newOk hd.oldOk hd.agree hf.wf hold hlo hbelow
  have hagree := hf.agree_new hd hlo hold
  generalize qpkeyBit (makekey new) offset = newBit at *
  generalize qpkeyBit (makekey old) offset = oldBit at *
  refine (hf.active.allocTwigs Nat.two_pos (by decide)).bind fun r hr => ?_
  obtain ⟨newRef, s1⟩ := r
  simp only at hr ⊢
  have hcella : s1.cell a = s.cell a := (hr.live hf.active (by simp)).1
  rw [hcella]
  -- the two cells
  have hpos_new : newRef + branchTwigPos (newIndex offset newBit oldBit) newBit = newRef + if newBit > oldBit then 1 else 0 := by
    rw [newIndex_pos_new hn ho]
  have hpos_old : newRef + branchTwigPos (newIndex offset newBit oldBit) oldBit = newRef + if oldBit > newBit then 1 else 0 := by
    rw [newIndex_pos_old hn ho]
  have hpos_ne : newRef + (if newBit > oldBit then 1 else 0) ≠ newRef + if oldBit > newBit then 1 else 0 := by
    split_ifs <;> omega
  have hmem : ∀ p : Prop, [Decidable p] → newRef + (if p then 1 else 0) ∈ vec newRef 2 := fun p _ =>
    mem_vec.mpr ⟨Nat.le_add_right .., by split_ifs <;> omega⟩
  have hmem_new := hmem (newBit > oldBit)
  have hmem_old := hmem (oldBit > newBit)
  generalize newRef + (if newBit > oldBit then 1 else 0) = xn at *
  generalize newRef + (if oldBit > newBit then 1 else 0) = xo at *
  have hane : ∀ x ∈ vec newRef 2, x ≠ a := fun x hx heq => (hr.live hf.active (by simp)).2 (heq ▸ hx)
  -- the branch, the old node and the new leaf are stored
  obtain ⟨ha2, hc2, hs2⟩ := hr.active.setCell (.branch (newIndex offset newBit oldBit) newRef) (by simp : a ∈ _)
  obtain ⟨ha3, hc3, hs3⟩ := ha2.setCell (s.cell a) (Multiset.mem_add.mpr (.inr hmem_old))
  obtain ⟨ha4, hc4, hs4⟩ := ha3.setCell (.leaf new) (Multiset.mem_add.mpr (.inr hmem_new))
  -- what the cells hold now
  have hcell := fun x => (hc4 x).trans (by rw [hc3, hc2])
  have hsame := ((hr.same.trans hs2).trans hs3).trans hs4
  have hholds : Holds makekey (((s1.setCell a (.branch (newIndex offset newBit oldBit) newRef)).setCell xo (s.cell a)).setCell
      xn (.leaf new)) (new ::ₘ (rest + t.leaves)) := by
    generalize ((s1.setCell a (.branch (newIndex offset newBit oldBit) newRef)).setCell xo (s.cell a)).setCell xn (.leaf new) =
      s4 at ha4 hcell hsame ⊢
    have hcell_old : s4.cell xo = s.cell a := by rw [hcell, if_neg hpos_ne.symm, if_pos rfl]
    have hcell_a : s4.cell a = .branch (newIndex offset newBit oldBit) newRef := by
      rw [hcell, if_neg (hane _ hmem_new).symm, if_neg (hane _ hmem_old).symm, if_pos rfl]
    have hkept : ∀ x, x ∈ C ∨ x ∈ G → s4.cell x = s.cell x := by
      intro x hx
      obtain ⟨heq, hnot⟩ := hr.live hf.active (show x ∈ _ by rcases hx with hx | hx <;> simp [hx])
      have hne_new : x ≠ xn := fun h => hnot (h ▸ hmem_new)
      have hne_old : x ≠ xo := fun h => hnot (h ▸ hmem_old)
      rw [hcell, if_neg hne_new, if_neg hne_old, if_neg (focus_cell_ne hf.active.nodup hx), heq]
    have hT : Twigs s4.cell (newIndex offset newBit oldBit) (update (fun _ => t) newBit (.leaf new)) newRef
        (update (fun _ => G) newBit 0) := by
      refine ⟨?_, fun b hb => ?_⟩
      · rw [newIndex_size hn ho hne]
        exact hr.contained
      · rw [newIndex_bits hn ho] at hb
        rcases Finset.mem_insert.mp hb with rfl | hb
        · rw [update_self, update_self, hpos_new, hcell, if_pos rfl]
          exact ⟨rfl, rfl⟩
        · rw [Finset.mem_singleton.mp hb, update_of_ne hne.symm, update_of_ne hne.symm, hpos_old, hcell_old]
          exact hf.rep.congr fun x hx => hkept x (.inr hx)
    have hcells : twigCells (newIndex offset newBit oldBit) newRef (update (fun _ => G) newBit 0) = vec newRef 2 + G := by
      unfold twigCells
      rw [newIndex_size hn ho hne, newIndex_bits hn ho, Finset.sum_pair hne, update_self,
        update_of_ne hne.symm, zero_add]
    have hrep : Rep s4.cell (Tree.newBranch offset newBit oldBit new t) (s4.cell a) (vec newRef 2 + G) := by
      rw [hcell_a, ← hcells]
      exact rep_branch_iff.mpr ⟨_, hT, rfl⟩
    obtain ⟨hst, hwf', hleaves'⟩ := hf.plug_in (fun x hx => hkept x (.inl hx)) hrep hsame.rootRef hwf (hleaves.symm ▸ hagree)
    rw [← Multiset.add_cons, ← hleaves, ← hleaves']
    refine Holds.of_tree hst ?_ hwf'
    rwa [show a ::ₘ C + (vec newRef 2 + G) = a ::ₘ C + G + vec newRef 2 by abel]
  exact ⟨rfl, Inserted.done hholds (congrArg (· + 1) hsame.leafCount)⟩

end

/-! ### A larger vector -/

/-- The twigs of a branch with one more at `pos`. -/
def grownTwigs (s : State) (ref size pos : Nat) (n : Node) : List Node := s.twigs ref pos ++ n :: s.twigs (ref + pos) (size - pos)

section
variable {ref size pos j : Nat} {n : Node}

theorem length_grownTwigs (h : pos ≤ size) : (grownTwigs s ref size pos n).length = size + 1 := by
  simp [grownTwigs, length_twigs]
  omega

theorem grownTwigs_lt (h : j < pos) : (grownTwigs s ref size pos n)[j]? = some (s.cell (ref + j)) := by
  rw [grownTwigs, getElem?_append_left (by rwa [length_twigs]), twigs_getElem? h]

theorem grownTwigs_self : (grownTwigs s ref size pos n)[pos]? = some n := by
  rw [grownTwigs, getElem?_append_right (by rw [length_twigs]), length_twigs, Nat.sub_self]
  rfl

theorem grownTwigs_gt (h : pos ≤ j) (hj : j < size) : (grownTwigs s ref size pos n)[j + 1]? = some (s.cell (ref + j)) := by
  rw [grownTwigs, getElem?_append_right (by rw [length_twigs]; omega), length_twigs,
    show j + 1 - pos = j - pos + 1 by omega, getElem?_cons_succ, twigs_getElem? (by omega)]
  congr 2
  omega

theorem grow_moves {L : Multiset Nat} {newRef : Nat} (h : Inv s L) (he : (s.usage (refChunk newRef)).existing = true)
    (hc : Contained newRef (size + 1)) (hpos : pos ≤ size) (hold : ∀ j < size, ref + j ∉ vec newRef (size + 1)) :
    ((s.moveTwigs newRef ref pos).setCell (newRef + pos) n).moveTwigs (newRef + pos + 1) (ref + pos) (size - pos) =
      s.writeTwigs newRef (grownTwigs s ref size pos n) := by
  have hlen : (s.twigs ref pos).length = pos := length_twigs
  have hlen' : (s.twigs ref pos ++ [n]).length = pos + 1 := by rw [length_append, hlen]; rfl
  have hsub : ∀ m ≤ size + 1, Contained newRef m := fun m hm => (Nat.add_le_add_left hm _).trans hc
  have hfirst : (s.moveTwigs newRef ref pos).setCell (newRef + pos) n = s.writeTwigs newRef (s.twigs ref pos ++ [n]) := by
    have happ := writeTwigs_append s newRef (s.twigs ref pos) [n]
      (hsub _ (by rw [hlen]; exact Nat.succ_le_succ hpos))
    rwa [hlen] at happ
  have htwigs : (s.writeTwigs newRef (s.twigs ref pos ++ [n])).twigs (ref + pos) (size - pos) =
      s.twigs (ref + pos) (size - pos) := by
    refine twigs_congr fun j hj => h.cell_write_of_not_mem he (hsub _ (by rw [hlen']; exact Nat.succ_le_succ hpos)) fun hmem => ?_
    have := hold (pos + j) (by omega)
    refine this (mem_vec.mpr ?_)
    have := mem_vec.mp hmem
    omega
  have happ := writeTwigs_append s newRef (s.twigs ref pos ++ [n])
    (s.twigs (ref + pos) (size - pos)) (hsub _ (by rw [length_twigs]; omega))
  rw [hlen', ← Nat.add_assoc, append_assoc] at happ
  unfold moveTwigs at hfirst ⊢
  rw [hfirst, htwigs, happ]
  rfl

end

section
variable {index : BitVec 64} {kids : Nat → Tree} {twigs bit : Nat} {G : Nat → Multiset Nat} {v : Nat → Node}

theorem Twigs.grow (hT : Twigs s.cell index kids twigs G) (hb : TwigBit bit) (hnew : bit ∉ twigBits index)
    {newRef : Nat} (hc : Contained newRef (branchTwigsSize index + 1))
    (hcell : ∀ j m, (grownTwigs s twigs (branchTwigsSize index) (branchTwigPos (index ||| (1#64 <<< bit)) bit) (.leaf new))[j]? =
      some m → v (newRef + j) = m)
    (hkeep : ∀ b ∈ twigBits index, ∀ x ∈ G b, v x = s.cell x) :
    Twigs v (index ||| (1#64 <<< bit)) (update kids bit (.leaf new)) newRef (update G bit 0) := by
  refine ⟨?_, fun b hb' => ?_⟩
  · rw [grow_size hb hnew]
    exact hc
  · have hmem := hb'
    rw [grow_bits hb] at hb'
    have hself : bit ∈ twigBits (index ||| (1#64 <<< bit)) := by
      rw [grow_bits hb]
      exact Finset.mem_insert_self _ _
    rcases Finset.mem_insert.mp hb' with rfl | hold
    · rw [update_self, update_self, hcell _ _ grownTwigs_self]
      exact ⟨rfl, rfl⟩
    · have hne := ne_of_mem_of_not_mem hold hnew
      have hcellb : v (newRef + branchTwigPos (index ||| (1#64 <<< bit)) b) = s.cell (twigs + branchTwigPos index b) := by
        rcases Nat.lt_or_gt_of_ne hne with hlt | hgt
        · have hpos := pos_lt_pos hmem hself hlt
          rw [grow_pos_le hb (bit_range hold) hlt.le] at hpos ⊢
          exact hcell _ _ (grownTwigs_lt hpos)
        · have hpos := pos_lt_pos hself hmem hgt
          rw [grow_pos_gt hb hnew hold hgt] at hpos ⊢
          exact hcell _ _ (grownTwigs_gt (Nat.lt_succ_iff.mp hpos) (pos_lt_size hold))
      rw [update_of_ne hne, update_of_ne hne, hcellb]
      exact (hT.kid b hold).congr (hkeep b hold)

theorem twigCells_grow (hb : TwigBit bit) (hnew : bit ∉ twigBits index) (newRef : Nat) :
    twigCells (index ||| (1#64 <<< bit)) newRef (update G bit 0) =
      vec newRef (branchTwigsSize index + 1) + ∑ b ∈ twigBits index, G b := by
  unfold twigCells
  rw [grow_size hb hnew, grow_bits hb, Finset.sum_insert hnew, update_self, zero_add, Finset.sum_update_of_notMem hnew]

theorem Focus.insertGrowbranch {oldRef : Nat} {H : Multiset Nat}
    (hf : Focus makekey s root a C H plug lo κ rest (.branch index kids)) (hcell : s.cell a = .branch index oldRef)
    (hd : Differ makekey new old (branchKeyOffset index)) (hr : Tree.Reaches (makekey new) (.branch index kids) old) :
    Runs (s.insertGrowbranch a index oldRef new (qpkeyBit (makekey new) (branchKeyOffset index))) fun r =>
      r.1 = .success ∧ Inserted makekey s new (rest + (Tree.branch index kids).leaves) r.2 := by
  have hb := hd.newOk.bit (branchKeyOffset index)
  have hnew : qpkeyBit (makekey new) (branchKeyOffset index) ∉ twigBits index := hr.no_twig hf.wf hd.differ
  have hwf := Tree.grow_wf hd.newOk rfl hnew hr.mem hd.agree hf.wf
  have hleaves : (Tree.branch (index ||| (1#64 <<< qpkeyBit (makekey new) (branchKeyOffset index)))
      (update kids (qpkeyBit (makekey new) (branchKeyOffset index)) (.leaf new))).leaves =
      new ::ₘ (Tree.branch index kids).leaves := Tree.grow_leaves hb hnew
  have hagree := hf.agree_new hd hf.wf.1 hr.mem
  generalize qpkeyBit (makekey new) (branchKeyOffset index) = bit at *
  have hrep := hf.rep
  rw [hcell] at hrep
  obtain ⟨G, hT, rfl⟩ := rep_branch_iff.mp hrep
  have hsize : 0 < branchTwigsSize index := by
    rw [branchTwigsSize_eq]
    exact Nat.lt_of_lt_of_le Nat.two_pos hf.wf.2.2.1
  have hpos : branchTwigPos (index ||| (1#64 <<< bit)) bit ≤ branchTwigsSize index := by
    rw [grow_pos_le hb hb le_rfl]
    exact new_pos_le hb
  have hle : branchTwigsSize index + 1 ≤ QP_CHUNK_SIZE := by
    have := size_le index
    unfold SHIFT_OFFSET at this
    unfold QP_CHUNK_SIZE
    omega
  unfold State.insertGrowbranch
  have habsent : ¬branchHasTwig index bit = true := fun h => hnew ((branchHasTwig_iff hb).mp h)
  rw [insist_pos habsent]
  refine (hf.active.allocTwigs (Nat.succ_pos _) hle).bind fun r h1 => ?_
  obtain ⟨newRef, s1⟩ := r
  simp only at h1 ⊢
  have hlive : ∀ x, x ∈ C ∨ x ∈ twigCells index oldRef G → s1.cell x = s.cell x ∧ x ∉ vec newRef (branchTwigsSize index + 1) :=
    fun x hx => h1.live hf.active (by rcases hx with hx | hx <;> simp [hx])
  have hanot := (h1.live hf.active (show a ∈ _ by simp)).2
  -- the branch
  obtain ⟨ha2, hc2, hs2⟩ := h1.active.setCell (.branch (index ||| (1#64 <<< bit)) newRef) (by simp : a ∈ _)
  generalize s1.setCell a (.branch (index ||| (1#64 <<< bit)) newRef) = s2 at *
  have hkept2 : ∀ x, x ∈ C ∨ x ∈ twigCells index oldRef G → s2.cell x = s.cell x := fun x hx => by
    rw [hc2, if_neg (focus_cell_ne hf.active.nodup hx), (hlive x hx).1]
  have hT2 : Twigs s2.cell index kids oldRef G := hT.congr fun x hx => hkept2 x (.inr hx)
  -- the larger vector
  have he := (ha2.chunk_of_vec h1.contained (Nat.succ_pos _)).1
  rw [grow_moves ha2.toInv he h1.contained hpos fun j hj => (hlive _ (.inr (Multiset.mem_add.mpr (.inl
    (mem_vec.mpr ⟨Nat.le_add_right .., by omega⟩))))).2]
  generalize hns : grownTwigs s2 oldRef (branchTwigsSize index) (branchTwigPos (index ||| (1#64 <<< bit)) bit) (.leaf new) = ns
  have hlen : ns.length = branchTwigsSize index + 1 := hns ▸ length_grownTwigs hpos
  have hfill : Filled s2 _ newRef ns (s2.writeTwigs newRef ns) :=
    ha2.writeTwigs (hlen ▸ h1.contained) fun x hx => Multiset.mem_add.mpr (.inr (by rwa [hlen] at hx))
  have hsame := (h1.same.trans hs2).trans hfill.same
  generalize s2.writeTwigs newRef ns = s5 at *
  have hkept : ∀ x, x ∈ C ∨ x ∈ twigCells index oldRef G → s5.cell x = s.cell x := fun x hx =>
    (hfill.outside x (hlen.symm ▸ (hlive x hx).2)).trans (hkept2 x hx)
  have hT5 := hT2.grow hb hnew h1.contained (hns ▸ hfill.inside) fun b hb' x hx =>
    hfill.outside x (hlen.symm ▸ (hlive x (.inr (kid_mem_twigCells hb' hx))).2)
  have hcella5 : s5.cell a = .branch (index ||| (1#64 <<< bit)) newRef := by
    rw [hfill.outside a (hlen.symm ▸ hanot), hc2, if_pos rfl]
  have hrep5 := rep_branch_iff.mpr ⟨_, hT5, rfl⟩
  rw [← hcella5] at hrep5
  have ha5 := hfill.active
  rw [show a ::ₘ C + twigCells index oldRef G + vec newRef (branchTwigsSize index + 1) =
      a ::ₘ C + twigCells (index ||| (1#64 <<< bit)) newRef (update G bit 0) + vec oldRef (branchTwigsSize index) by
    rw [twigCells_grow hb hnew]
    unfold twigCells
    abel] at ha5
  -- the old vector goes
  refine (hf.squash (fun x hx => hkept x (.inl hx)) hrep5 hsame.rootRef hwf (hleaves.symm ▸ hagree) ha5 hT.contained
    hsize).bind fun r hsquash => ?_
  obtain ⟨destroyed, s6⟩ := r
  obtain ⟨rfl, hholds, hcount⟩ := hsquash
  rw [hleaves, Multiset.add_cons] at hholds
  exact ⟨rfl, Inserted.done hholds (congrArg (· + 1) (hcount.trans hsame.leafCount))⟩

end

/-! ### The operation -/

theorem Place.insert (h : Place makekey s a new old offset leaves) (hd : Differ makekey new old offset) :
    Runs (match s.cell a with
      | .branch index oldRef =>
        if offset = branchKeyOffset index then s.insertGrowbranch a index oldRef new (qpkeyBit (makekey new) offset)
        else s.insertNewbranch a new offset (qpkeyBit (makekey new) offset) (qpkeyBit (makekey old) offset)
      | _ => s.insertNewbranch a new offset (qpkeyBit (makekey new) offset) (qpkeyBit (makekey old) offset))
      fun r => r.1 = .success ∧ Inserted makekey s new leaves r.2 := by
  obtain ⟨root, C, G, plug, lo, κ, rest, t, hf, hlo, hreach, rfl, hstop⟩ := h
  cases t with
  | leaf l =>
    rw [hf.rep.1]
    exact hf.insertNewbranch hd hlo hreach.mem trivial
  | branch index kids =>
    obtain ⟨twigs, hcell⟩ := hf.rep.branch_cell
    rw [hcell]
    refine Checked.ite (fun heq => ?_) fun hne => ?_
    · subst heq
      exact hf.insertGrowbranch hcell hd hreach
    · exact hf.insertNewbranch hd hlo hreach.mem (Nat.lt_of_le_of_ne hstop hne)

/-- Two keys that name the same entry. -/
def SameKey (key key' : Key) : Prop := ∀ offset, qpkeyBit key offset = qpkeyBit key' offset

theorem differ_of_compare (hok : ∀ l, KeyOk (makekey l)) (h : qpkeyCompare (makekey new) (makekey old) = some offset) :
    Differ makekey new old offset := by
  obtain ⟨hne, hagree⟩ := qpkeyCompare_eq_some.mp h
  refine ⟨hok new, hok old, ?_, hagree, hne⟩
  by_contra hge
  refine hne ?_
  rw [qpkeyBit_end ((hok new).length.le.trans (Nat.not_lt.mp hge)), qpkeyBit_end ((hok old).length.le.trans (Nat.not_lt.mp hge))]

theorem insert_empty {s : State} (ha : Active s 0) (hcount : s.leafCount = 0) (new : Leaf) :
    Runs (s.insert makekey new) fun r => r.1 = .success ∧ Inserted makekey s new 0 r.2 := by
  unfold State.insert
  rw [if_pos hcount]
  refine (ha.allocTwigs Nat.one_pos (by decide)).bind fun r hr => ?_
  obtain ⟨newRef, s1⟩ := r
  simp only at hr ⊢
  obtain ⟨ha2, hc2, hs2⟩ := hr.active.setCell (x := newRef) (.leaf new) (by simp [vec_one])
  have hcell : (s1.setCell newRef (.leaf new)).cell newRef = .leaf new := by rw [hc2, if_pos rfl]
  refine ⟨rfl, ⟨some (.leaf new), vec newRef 1, ⟨newRef, rfl, rep_rootTree.mpr ⟨0, vec_one newRef, hcell, rfl⟩⟩, ?_,
    fun t ht => by cases ht; trivial, rfl⟩, congrArg (· + 1) hr.same.leafCount⟩
  rw [zero_add] at ha2
  exact (ha2.setAttached _).setTrie _ _ _

/-- `dns_qp_insert` refuses a key that is present, and adds any other. -/
theorem Trie.insert {m : Multiset Leaf} (h : Trie makekey s m) (hok : ∀ l, KeyOk (makekey l)) (new : Leaf) :
    Runs (s.insert makekey new) fun r =>
      (r.1 = .exists_ ∧ r.2 = s ∧ ∃ l ∈ m, SameKey (makekey new) (makekey l)) ∨
        (r.1 = .success ∧ Trie makekey r.2 (new ::ₘ m) ∧ ∀ l ∈ m, ¬SameKey (makekey new) (makekey l)) := by
  obtain ⟨⟨o, F, hs, ha, hwf, rfl⟩, hcount⟩ := h
  have hdone : ∀ r : Result × State, r.1 = .success ∧ Inserted makekey s new (leavesOf o) r.2 →
      r.1 = .success ∧ Trie makekey r.2 (new ::ₘ leavesOf o) := by
    rintro r ⟨hr, hins⟩
    refine ⟨hr, hins.holds, ?_⟩
    rw [hins.leafCount, hcount, Multiset.card_cons]
  cases o with
  | none =>
    obtain ⟨-, rfl⟩ := hs
    refine (insert_empty ha hcount new).mono fun r hr => .inr ?_
    obtain ⟨h1, h2⟩ := hdone r hr
    exact ⟨h1, h2, fun l hl => absurd hl (Multiset.notMem_zero l)⟩
  | some t =>
    have hwft := hwf t rfl
    have hne : s.leafCount ≠ 0 := fun h0 => by
      obtain ⟨l, hl⟩ := hwft.exists_leaf
      rw [h0, eq_comm, Multiset.card_eq_zero] at hcount
      exact absurd (hcount ▸ hl : l ∈ (0 : Multiset Leaf)) (Multiset.notMem_zero l)
    obtain ⟨root, hroot, hrep⟩ := hs
    obtain ⟨G, -, hrept⟩ := rep_rootTree.mp hrep
    have hfits := hwft.fits (n := QP_MAXKEY + 1) (by omega)
    obtain ⟨old, hsearch, hreach⟩ := insertSearch_spec (hok new) hrept hfits
    unfold State.insert
    rw [if_neg hne, hroot]
    have hfound : Runs (s.insertSearch (makekey new) maxDepth root) (old = ·) := by
      rw [show maxDepth = QP_MAXKEY + 1 + 1 from rfl, hsearch]
      rfl
    refine hfound.bind fun l hl => ?_
    subst hl
    cases hcmp : qpkeyCompare (makekey new) (makekey old) with
    | none => exact .inl ⟨rfl, rfl, old, hreach.mem, qpkeyCompare_eq_none.mp hcmp⟩
    | some offset =>
      have hd := differ_of_compare hok hcmp
      have hfresh : ∀ l ∈ leavesOf (some t), ¬SameKey (makekey new) (makekey l) := by
        intro l hl hsame
        have heq := hreach.eq_of_key hwft hl hsame
        exact hd.differ (heq ▸ hsame offset)
      obtain ⟨G1, hf1⟩ := Focus.top (κ := fun _ => 0) ha hroot hrep hwft
      obtain ⟨n, hrun, hplace⟩ := insertDescend_spec (hok new) hd.agree hf1 hfits (Nat.zero_le _) hreach
      rw [zero_add] at hplace
      show Checked _ (s.makeRootMutable >>= _) _
      rw [ha.makeRootMutable hroot]
      show Checked _ (insertDescend (makekey new) offset maxDepth s root >>= _) _
      rw [show maxDepth = QP_MAXKEY + 1 + 1 from rfl, hrun]
      refine (hplace.insert hd).mono fun r hr => .inr ?_
      obtain ⟨h1, h2⟩ := hdone r hr
      exact ⟨h1, h2, hfresh⟩

end OqsBind.Dns.Qp
