import OqsBind.Theorems.QpRecycle

/-! Compaction moves a trie without changing the tree that it stands for. -/

namespace OqsBind.Dns.Qp
open List Function State

variable {s s' : State} {L C F : Multiset Nat}

/-! ### Depth -/

namespace Tree

/-- A descent below the branches of the tree ends within `n` steps. -/
def Fits : Tree → Nat → Prop
  | leaf _, _ => True
  | branch index kids, n => ∃ m, n = m + 1 ∧ 0 < branchTwigsSize index ∧ ∀ b ∈ twigBits index, (kids b).Fits m

theorem WF.fits {makekey : Leaf → Key} : ∀ {t : Tree} {lo n : Nat}, WF makekey lo t → QP_MAXKEY ≤ lo + n → t.Fits n
  | leaf _, _, _, _, _ => trivial
  | branch index kids, lo, n, ⟨hlo, hoff, hcard, _, _, hkids⟩, hn => by
    refine ⟨n - 1, by omega, ?_, fun b hb => (hkids b hb).fits (by omega)⟩
    rw [branchTwigsSize_eq]
    omega

theorem WF.fits_rootTree {makekey : Leaf → Key} {t : Tree} (h : WF makekey 0 t) : (rootTree t).Fits maxDepth := by
  refine ⟨QP_MAXKEY + 1, rfl, ?_, fun b _ => h.fits (by omega)⟩
  rw [movableRoot_size]
  exact Nat.one_pos

end Tree

/-! ### Cells that are written -/

/-- The node `n` has been stored at `x`. -/
structure Stored (s : State) (L : Multiset Nat) (x : Nat) (n : Node) (s' : State) : Prop where
  active : Active s' L
  cell : ∀ y, s'.cell y = if y = x then n else s.cell y
  same : Same s s'

theorem Active.setCell (h : Active s L) {x : Nat} (n : Node) (hx : x ∈ L) : Stored s L x n (s.setCell x n) :=
  ⟨h.write _ _, h.toInv.cell_set (h.live x hx).1 n, ⟨rfl, rfl⟩⟩

/-- The nodes `ns` have been stored from `ref` on. -/
structure Filled (s : State) (L : Multiset Nat) (ref : Nat) (ns : List Node) (s' : State) : Prop where
  active : Active s' L
  inside : ∀ j m, ns[j]? = some m → s'.cell (ref + j) = m
  outside : ∀ x, x ∉ vec ref ns.length → s'.cell x = s.cell x
  same : Same s s'

theorem Active.writeTwigs (h : Active s L) {ref : Nat} {ns : List Node} (hc : Contained ref ns.length)
    (hold : ∀ x ∈ vec ref ns.length, x ∈ L) : Filled s L ref ns (s.writeTwigs ref ns) := by
  rcases eq_or_ne ns [] with rfl | hne
  · rw [writeTwigs_nil]
    exact ⟨h, nofun, fun _ _ => rfl, Same.refl s⟩
  · have hpos : 0 < ns.length := length_pos_iff.mpr hne
    have he := (h.live ref (hold ref (mem_vec.mpr ⟨le_rfl, by omega⟩))).1
    exact ⟨h.write _ _, fun j m hj => h.cell_write_of_lt he hc hj, fun x hx => h.cell_write_of_not_mem he hc hx, ⟨rfl, rfl⟩⟩

/-! ### Vectors of twigs -/

/-- The vector at `twigs` holds the children of a branch, with the cells `G` below. -/
structure Twigs (v : Nat → Node) (index : BitVec 64) (kids : Nat → Tree) (twigs : Nat) (G : Nat → Multiset Nat) : Prop where
  contained : Contained twigs (branchTwigsSize index)
  kid : ∀ b ∈ twigBits index, Rep v (kids b) (v (twigs + branchTwigPos index b)) (G b)

def twigCells (index : BitVec 64) (twigs : Nat) (G : Nat → Multiset Nat) : Multiset Nat :=
  vec twigs (branchTwigsSize index) + ∑ b ∈ twigBits index, G b

section
variable {v v' : Nat → Node} {index : BitVec 64} {kids : Nat → Tree} {twigs b : Nat} {G : Nat → Multiset Nat}

theorem rep_branch_iff : Rep v (.branch index kids) (.branch index twigs) F ↔
    ∃ G, Twigs v index kids twigs G ∧ F = twigCells index twigs G := by
  constructor
  · rintro ⟨twigs', G, hn, hc, hF, hkids⟩
    cases hn
    exact ⟨G, ⟨hc, hkids⟩, hF⟩
  · rintro ⟨G, h, hF⟩
    exact ⟨twigs, G, rfl, h.contained, hF, h.kid⟩

theorem Rep.branch_cell {n : Node} (h : Rep v (.branch index kids) n F) : ∃ twigs, n = .branch index twigs := by
  obtain ⟨twigs, -, hn, -⟩ := h
  exact ⟨twigs, hn⟩

section
variable (hb : b ∈ twigBits index)
include hb

theorem twig_mem_twigCells : twigs + branchTwigPos index b ∈ twigCells index twigs G :=
  Multiset.mem_add.mpr (.inl (twig_mem_vec hb))

theorem kid_mem_twigCells {x : Nat} (hx : x ∈ G b) : x ∈ twigCells index twigs G :=
  Multiset.mem_add.mpr (.inr (Multiset.mem_sum.mpr ⟨b, hb, hx⟩))

theorem twigCells_erase : twigCells index twigs G =
    vec twigs (branchTwigsSize index) + ∑ b' ∈ (twigBits index).erase b, G b' + G b := by
  rw [twigCells, ← Finset.sum_erase_add _ _ hb, add_assoc]

theorem twigCells_update (H : Multiset Nat) : twigCells index twigs (update G b H) =
    vec twigs (branchTwigsSize index) + ∑ b' ∈ (twigBits index).erase b, G b' + H := by
  rw [twigCells_erase hb, update_self]
  congr 2
  apply Finset.sum_congr rfl
  intro b' hb'
  rw [update_of_ne (Finset.ne_of_mem_erase hb')]

end

theorem Twigs.move {twigs' : Nat} (h : Twigs v index kids twigs G) (hc : Contained twigs' (branchTwigsSize index))
    (hcopy : ∀ j < branchTwigsSize index, v' (twigs' + j) = v (twigs + j))
    (hkeep : ∀ b ∈ twigBits index, ∀ x ∈ G b, v' x = v x) : Twigs v' index kids twigs' G := by
  refine ⟨hc, fun b hb => ?_⟩
  rw [hcopy _ (pos_lt_size hb)]
  exact (h.kid b hb).congr (hkeep b hb)

theorem Twigs.congr (h : Twigs v index kids twigs G) (hv : ∀ x ∈ twigCells index twigs G, v' x = v x) :
    Twigs v' index kids twigs G := by
  refine h.move h.contained (fun j hj => ?_) fun b hb x hx => hv x (kid_mem_twigCells hb hx)
  exact hv _ (Multiset.mem_add.mpr (.inl (mem_vec.mpr ⟨Nat.le_add_right .., by omega⟩)))

end

/-! ### Moving a tree -/

/-- The tree `t` now stands at the node `n`. -/
structure Moved (s : State) (C : Multiset Nat) (t : Tree) (n : Node) (F : Multiset Nat) (s' : State) : Prop where
  active : Active s' (C + F)
  rep : Rep s'.cell t n F
  cell : ∀ x ∈ C, s'.cell x = s.cell x
  same : Same s s'

section
variable {index : BitVec 64} {kids : Nat → Tree} {twigs b : Nat} {G : Nat → Multiset Nat}

theorem Twigs.evacuate (h : Twigs s.cell index kids twigs G) (ha : Active s (C + twigCells index twigs G))
    (hpos : 0 < branchTwigsSize index) :
    Runs (s.evacuate index twigs) fun r => Twigs r.2.cell index kids r.1 G ∧
      Moved s C (.branch index kids) (.branch index r.1) (twigCells index r.1 G) r.2 := by
  have hL : ∀ new, C + twigCells index new G = C + ∑ b ∈ twigBits index, G b + vec new (branchTwigsSize index) := by
    intro new
    unfold twigCells
    abel
  rw [hL] at ha
  refine (ha.evacuate h.contained hpos).mono fun r hr => ?_
  have hkids : ∀ b ∈ twigBits index, ∀ x ∈ G b, r.2.cell x = s.cell x := fun b hb x hx =>
    hr.cell x (Multiset.mem_add.mpr (.inr (Multiset.mem_sum.mpr ⟨b, hb, hx⟩)))
  have hT := h.move hr.contained hr.copy hkids
  refine ⟨hT, ?_, rep_branch_iff.mpr ⟨G, hT, rfl⟩, fun x hx => hr.cell x (Multiset.mem_add.mpr (.inl hx)), hr.same⟩
  rw [hL]
  exact hr.active

theorem Twigs.setTwig (ha : Active s (C + twigCells index twigs G)) (hb : b ∈ twigBits index)
    (hc : Contained twigs (branchTwigsSize index))
    (hkids : ∀ b' ∈ twigBits index, b' ≠ b → Rep s.cell (kids b') (s.cell (twigs + branchTwigPos index b')) (G b'))
    {n : Node} (hrep : Rep s.cell (kids b) n (G b)) :
    Twigs (s.setCell (twigs + branchTwigPos index b) n).cell index kids twigs G ∧
      Moved s C (.branch index kids) (.branch index twigs) (twigCells index twigs G)
        (s.setCell (twigs + branchTwigPos index b) n) := by
  have hset := ha.setCell n (Multiset.mem_add.mpr (.inr (twig_mem_twigCells hb)))
  obtain ⟨-, hT, hdisj⟩ := Multiset.nodup_add.mp ha.nodup
  -- the cell is not below any child
  have hkid : ∀ b' ∈ twigBits index, ∀ x ∈ G b', x ≠ twigs + branchTwigPos index b := by
    rintro b' hb' x hx rfl
    exact Multiset.disjoint_left.mp (Multiset.nodup_add.mp hT).2.2 (twig_mem_vec hb) (Multiset.mem_sum.mpr ⟨b', hb', hx⟩)
  have hT' : Twigs (s.setCell (twigs + branchTwigPos index b) n).cell index kids twigs G := by
    refine ⟨hc, fun b' hb' => ?_⟩
    rw [hset.cell]
    by_cases heq : b' = b
    · subst heq
      rw [if_pos rfl]
      exact hrep.congr fun x hx => by rw [hset.cell, if_neg (hkid b' hb' x hx)]
    · rw [if_neg fun h' => heq (pos_inj hb' hb (Nat.add_left_cancel h'))]
      exact (hkids b' hb' heq).congr fun x hx => by rw [hset.cell, if_neg (hkid b' hb' x hx)]
  refine ⟨hT', hset.active, rep_branch_iff.mpr ⟨G, hT', rfl⟩, fun x hx => ?_, hset.same⟩
  rw [hset.cell, if_neg]
  rintro rfl
  exact Multiset.disjoint_left.mp hdisj hx (twig_mem_twigCells hb)

end

/-! ### The recursion -/

/-- The state of the loop of `compact_recursive`. -/
structure Compacting (s : State) (C : Multiset Nat) (index : BitVec 64) (kids : Nat → Tree) (a : Nat × Bool × State)
    (G : Nat → Multiset Nat) : Prop where
  twigs : Twigs a.2.2.cell index kids a.1 G
  moved : Moved s C (.branch index kids) (.branch index a.1) (twigCells index a.1 G) a.2.2
  mutable : a.2.1 = false

/-- What is assumed of the recursive call. -/
def Compacts (rec : State → BitVec 64 → Nat → Except Fault (Nat × State)) (t : Tree) : Prop :=
  ∀ (s : State) (C F : Multiset Nat) (index : BitVec 64) (twigs : Nat), Active s (C + F) →
    Rep s.cell t (.branch index twigs) F → Runs (rec s index twigs) fun r => ∃ F', Moved s C t (.branch index r.1) F' r.2

section
variable {rec : State → BitVec 64 → Nat → Except Fault (Nat × State)} {index : BitVec 64} {kids : Nat → Tree}
  {parentTwigs pos : Nat} {a : Nat × Bool × State} {G : Nat → Multiset Nat}

theorem Compacting.step (hrec : ∀ b ∈ twigBits index, Compacts rec (kids b)) (hpos : pos < branchTwigsSize index)
    (h : Compacting s C index kids a G) :
    Runs (compactTwig rec index parentTwigs a pos) fun a' => ∃ G', Compacting s C index kids a' G' := by
  obtain ⟨twigsRef, imm, s1⟩ := a
  obtain ⟨hT, hm, rfl⟩ := h
  simp only at hT hm
  obtain ⟨b, hb, rfl⟩ := exists_pos hpos
  unfold compactTwig
  simp only
  cases hcell : s1.cell (twigsRef + branchTwigPos index b) with
  | leaf | readerMulti | readerBase => exact ⟨G, hT, hm, rfl⟩
  | branch i old =>
    have hkid := hT.kid b hb
    rw [hcell] at hkid
    -- all other cells belong to the context of the recursive call
    have ha : Active s1 (C + (vec twigsRef (branchTwigsSize index) + ∑ b' ∈ (twigBits index).erase b, G b') + G b) := by
      rw [add_assoc, ← twigCells_erase hb]
      exact hm.active
    refine (hrec b hb s1 _ (G b) i old ha hkid).bind fun r hr => ?_
    obtain ⟨new, s2⟩ := r
    obtain ⟨F', hr⟩ := hr
    have hcellT : ∀ b' ∈ twigBits index,
        s2.cell (twigsRef + branchTwigPos index b') = s1.cell (twigsRef + branchTwigPos index b') := fun b' hb' =>
      hr.cell _ (Multiset.mem_add.mpr (.inr (Multiset.mem_add.mpr (.inl (twig_mem_vec hb')))))
    have hcellK : ∀ b' ∈ twigBits index, b' ≠ b → ∀ x ∈ G b', s2.cell x = s1.cell x := fun b' hb' hne x hx =>
      hr.cell x (Multiset.mem_add.mpr (.inr (Multiset.mem_add.mpr (.inr
        (Multiset.mem_sum.mpr ⟨b', Finset.mem_erase.mpr ⟨hne, hb'⟩, hx⟩)))))
    have ha2 : Active s2 (C + twigCells index twigsRef (update G b F')) := by
      rw [twigCells_update hb, ← add_assoc]
      exact hr.active
    have hrep2 : Rep s2.cell (kids b) (.branch i new) (update G b F' b) := by
      simpa using hr.rep
    have hother2 : ∀ b' ∈ twigBits index, b' ≠ b →
        Rep s2.cell (kids b') (s2.cell (twigsRef + branchTwigPos index b')) (update G b F' b') := by
      intro b' hb' hne
      rw [update_of_ne hne, hcellT b' hb']
      exact (hT.kid b' hb').congr (hcellK b' hb' hne)
    have hC : ∀ x ∈ C, s2.cell x = s.cell x := fun x hx =>
      (hr.cell x (Multiset.mem_add.mpr (.inl hx))).trans (hm.cell x hx)
    have hsame := hm.same.trans hr.same
    refine Checked.ite (fun heq => ?_) fun _ => ?_
    · -- the child has not moved
      have hT2 : Twigs s2.cell index kids twigsRef (update G b F') := by
        refine ⟨hT.contained, fun b' hb' => ?_⟩
        by_cases hbb : b' = b
        · subst hbb
          rw [hcellT b' hb', hcell, heq]
          exact hrep2
        · exact hother2 b' hb' hbb
      exact ⟨_, hT2, ⟨ha2, rep_branch_iff.mpr ⟨_, hT2, rfl⟩, hC, hsame⟩, rfl⟩
    · obtain ⟨hT4, hm4⟩ := Twigs.setTwig ha2 hb hT.contained hother2 hrep2
      exact ⟨_, hT4, ⟨hm4.active, hm4.rep, fun x hx => (hm4.cell x hx).trans (hC x hx), hsame.trans hm4.same⟩, rfl⟩

end

theorem compactRecursive_spec : ∀ {fuel : Nat} {t : Tree}, t.Fits fuel → Compacts (compactRecursive fuel) t
  | fuel, .leaf l, _ => by
    intro s C F index twigs _ hrep
    cases hrep.1
  | 0, .branch i kids, hfits => by
    obtain ⟨m, hm, -⟩ := hfits
    cases hm
  | fuel + 1, .branch i kids, hfits => by
    intro s C F index twigs ha hrep
    obtain ⟨m, hm, hpos, hfits⟩ := hfits
    cases hm
    obtain ⟨tw, hn⟩ := hrep.branch_cell
    cases hn
    obtain ⟨G, hT, rfl⟩ := rep_branch_iff.mp hrep
    have hstart : Moved s C (.branch i kids) (.branch i twigs) (twigCells i twigs G) s :=
      ⟨ha, hrep, fun _ _ => rfl, Same.refl s⟩
    have hkids : ∀ twigsRef s1, Twigs s1.cell i kids twigsRef G →
        Moved s C (.branch i kids) (.branch i twigsRef) (twigCells i twigsRef G) s1 → Runs
          ((range (branchTwigsSize i)).foldlM (compactTwig (compactRecursive fuel) i twigs)
            (twigsRef, s1.cellsImmutable twigsRef, s1))
          fun a => ∃ G', Compacting s C i kids a G' := by
      intro twigsRef s1 hT1 hm1
      have hstep : ∀ j l a, ((∀ j' ∈ j :: l, j' < branchTwigsSize i) ∧ ∃ G', Compacting s C i kids a G') →
          Runs (compactTwig (compactRecursive fuel) i twigs a j) fun a' =>
            (∀ j' ∈ l, j' < branchTwigsSize i) ∧ ∃ G', Compacting s C i kids a' G' := by
        rintro j l a ⟨hlt, G', hc⟩
        refine (hc.step (fun b hb => compactRecursive_spec (hfits b hb)) (hlt j mem_cons_self)).mono fun a' ha' => ?_
        exact ⟨fun j' hj' => hlt j' (mem_cons_of_mem _ hj'), ha'⟩
      have hloop := Checked.foldlM (I := fun l a =>
        (∀ j ∈ l, j < branchTwigsSize i) ∧ ∃ G', Compacting s C i kids a G') hstep
        (l := range (branchTwigsSize i)) (a := (twigsRef, s1.cellsImmutable twigsRef, s1))
      exact (hloop ⟨fun j hj => mem_range.mp hj, G, hT1, hm1, hm1.active.cellsImmutable _⟩).mono fun a ha' => ha'.2
    refine Checked.ite (fun _ => ?_) fun _ => ?_
    · refine (hT.evacuate ha hpos).bind fun r hr => (hkids r.1 r.2 hr.1 hr.2).bind fun a ha' => ?_
      obtain ⟨G', hc⟩ := ha'
      exact ⟨_, hc.moved⟩
    · refine (hkids twigs s hT hstart).bind fun a ha' => ?_
      obtain ⟨G', hc⟩ := ha'
      exact ⟨_, hc.moved⟩

/-! ### The whole trie -/

/-- The state stores the tree `o` of its trie, if it has one, in the cells `F`. -/
def Stands (s : State) (o : Option Tree) (F : Multiset Nat) : Prop :=
  match o with
  | none => s.rootRef = none ∧ F = 0
  | some t => ∃ root, s.rootRef = some root ∧ Rep s.cell (rootTree t) (.branch movableRoot root) F

theorem Stands.congr {o : Option Tree} (h : Stands s o F) (hroot : s'.rootRef = s.rootRef)
    (hcell : ∀ x ∈ F, s'.cell x = s.cell x) : Stands s' o F := by
  cases o with
  | none => exact ⟨hroot.trans h.1, h.2⟩
  | some t =>
    obtain ⟨root, hr, hrep⟩ := h
    exact ⟨root, hroot.trans hr, hrep.congr hcell⟩

/-- The trie may have moved. -/
structure Compacted (s : State) (o : Option Tree) (s' : State) : Prop where
  stands : ∃ F, Stands s' o F ∧ Active s' F
  leafCount : s'.leafCount = s.leafCount

theorem Compacted.trans {o : Option Tree} {s'' : State} (h : Compacted s o s') (h' : Compacted s' o s'') :
    Compacted s o s'' :=
  ⟨h'.stands, h'.leafCount.trans h.leafCount⟩

theorem Compacted.of_cells {o : Option Tree} (hs : Stands s o F) (ha : Active s' F) (hcell : ∀ x ∈ F, s'.cell x = s.cell x)
    (hsame : Same s s') : Compacted s o s' :=
  ⟨⟨F, hs.congr hsame.rootRef hcell, ha⟩, hsame.leafCount⟩

/-- What `compact` needs to know of the trie. -/
structure Compactable (s : State) (o : Option Tree) : Prop where
  empty : o = none → s.leafCount = 0
  fits : ∀ t, o = some t → (rootTree t).Fits maxDepth

theorem Compactable.congr {o : Option Tree} (h : Compactable s o) (hcount : s'.leafCount = s.leafCount) : Compactable s' o :=
  ⟨fun ho => hcount.trans (h.empty ho), h.fits⟩

section
variable {o : Option Tree}

theorem Reset.compacted (hr : Reset s F s') (ha : Active s F) (hs : Stands s o F) : Compacted s o s' :=
  Compacted.of_cells hs hr.active (fun x hx => (hr.used x (ha.live x hx).1 (ha.live x hx).2).2.2) hr.same

/-- The end of `compact`, after the bump chunk has been looked at. -/
def compactTrie (s : State) : Except Fault State :=
  if s.leafCount > 0 then
    match s.rootRef with
    | none => .error .shape
    | some root => do
      let (new, s) ← compactRecursive maxDepth s movableRoot root
      return { s with rootRef := some new }
  else .ok s

theorem compactTrie_spec (ha : Active s F) (hs : Stands s o F) (hc : Compactable s o) :
    Runs (compactTrie s) (Compacted s o) := by
  refine Checked.ite (fun hpos => ?_) fun hzero => ?_
  · cases o with
    | none =>
      rw [hc.empty rfl] at hpos
      exact absurd hpos (Nat.lt_irrefl 0)
    | some t =>
      obtain ⟨root, hroot, hrep⟩ := hs
      rw [hroot]
      rw [← zero_add F] at ha
      refine (compactRecursive_spec (hc.fits t rfl) s 0 F movableRoot root ha hrep).bind fun r hr => ?_
      obtain ⟨F', hm⟩ := hr
      have ha' := hm.active
      rw [zero_add] at ha'
      exact ⟨⟨F', ⟨r.1, rfl, hm.rep⟩, ha'.setTrie _ _ _⟩, hm.same.leafCount⟩
  · exact Compacted.of_cells hs ha (fun _ _ => rfl) (Same.refl s)

theorem compact_eq (s : State) : s.compact =
    (if (s.usage s.bump).free > QP_MAX_FREE then s.allocReset else .ok s) >>= fun s =>
      compactTrie s >>= fun s => .ok { s with compactAll := false } := by
  have hrest : ∀ s : State, (do
      let s ← if s.leafCount > 0 then
          match s.rootRef with
          | none => .error .shape
          | some root => do
            let (new, s) ← compactRecursive maxDepth s movableRoot root
            pure { s with rootRef := some new }
        else .ok s
      return { s with compactAll := false } : Except Fault State) =
      compactTrie s >>= fun s => .ok { s with compactAll := false } := by
    intro s
    unfold compactTrie
    by_cases hpos : s.leafCount > 0
    · rw [if_pos hpos, if_pos hpos]
      cases s.rootRef with
      | none => rfl
      | some root =>
        show (compactRecursive maxDepth s movableRoot root >>= _) =
          (compactRecursive maxDepth s movableRoot root >>= _) >>= _
        cases compactRecursive maxDepth s movableRoot root <;> rfl
    · rw [if_neg hpos, if_neg hpos]
      rfl
  unfold compact
  by_cases hfree : (s.usage s.bump).free > QP_MAX_FREE
  · rw [if_pos hfree, if_pos hfree]
    exact congrArg _ (funext hrest)
  · rw [if_neg hfree, if_neg hfree]
    exact hrest s

section
variable (ha : Active s F) (hs : Stands s o F)
include ha hs

theorem Active.compact (hc : Compactable s o) : Runs s.compact (Compacted s o) := by
  rw [compact_eq]
  have hreset : Runs (if (s.usage s.bump).free > QP_MAX_FREE then s.allocReset else .ok s) (Compacted s o) := by
    refine Checked.ite (fun _ => ?_) fun _ => ?_
    · exact ha.toInv.allocReset.mono fun s1 h1 => h1.compacted ha hs
    · exact Compacted.of_cells hs ha (fun _ _ => rfl) (Same.refl s)
  refine hreset.bind fun s1 h1 => ?_
  obtain ⟨F1, hs1, ha1⟩ := h1.stands
  refine (compactTrie_spec ha1 hs1 (hc.congr h1.leafCount)).bind fun s2 h2 => ?_
  obtain ⟨F2, hs2, ha2⟩ := h2.stands
  exact h1.trans (h2.trans ⟨⟨F2, hs2.congr rfl fun _ _ => rfl, ha2.setTrie _ _ _⟩, rfl⟩)

theorem Active.recycled_compacted : Runs s.recycle (Compacted s o) :=
  ha.recycle.mono fun _ h => Compacted.of_cells hs h.active h.cell h.same

theorem Active.collect (hc : Compactable s o) : Runs (s.compact >>= State.recycle) (Compacted s o) := by
  refine (ha.compact hs hc).bind fun s1 h1 => ?_
  obtain ⟨F1, hs1, ha1⟩ := h1.stands
  exact (ha1.recycled_compacted hs1).mono fun _ h2 => h1.trans h2

theorem Active.qpCompact (hc : Compactable s o) (mode : Gc) : Runs (s.qpCompact mode) (Compacted s o) := by
  refine Checked.ite (fun _ => ?_) fun _ => Checked.ite (fun _ => ?_) fun _ => ?_
  · exact Compacted.of_cells hs ha (fun _ _ => rfl) (Same.refl s)
  · refine ha.toInv.allocReset.bind fun s1 h1 => ?_
    have hc1 := h1.compacted ha hs
    obtain ⟨F1, hs1, ha1⟩ := hc1.stands
    have ha2 : Active { s1 with compactAll := true } F1 := ha1.setTrie _ _ _
    have hs2 : Stands { s1 with compactAll := true } o F1 := hs1.congr rfl fun _ _ => rfl
    refine (ha2.collect hs2 (hc.congr hc1.leafCount)).mono fun s3 h3 => hc1.trans ?_
    exact ⟨h3.stands, h3.leafCount⟩
  · exact ha.collect hs hc

end

/-- Cells are freed, and the trie may move. -/
theorem Active.squashTwigs {ref size : Nat} (ha : Active s (F + vec ref size)) (hs : Stands s o F)
    (hc : Compactable s o) (hcont : Contained ref size) (hpos : 0 < size) :
    Runs (s.squashTwigs ref size) fun r => r.1 = true ∧ Compacted s o r.2 := by
  refine (ha.freeTwigs hcont hpos).bind fun r hr => ?_
  obtain ⟨destroyed, s1⟩ := r
  obtain ⟨rfl, hr⟩ := hr
  have hfreed := Compacted.of_cells hs hr.active
    (fun x hx => hr.cell x (Multiset.disjoint_left.mp (Multiset.nodup_add.mp ha.nodup).2.2 hx)) hr.same
  obtain ⟨F1, hs1, ha1⟩ := hfreed.stands
  refine Checked.ite (fun _ => ?_) fun _ => ⟨rfl, hfreed⟩
  refine (ha1.compact hs1 (hc.congr hfreed.leafCount)).bind fun s2 h2 => ?_
  obtain ⟨F2, hs2, ha2⟩ := h2.stands
  refine (ha2.recycled_compacted hs2).bind fun s3 h3 => ?_
  have h13 := hfreed.trans (h2.trans h3)
  split_ifs
  · obtain ⟨F3, hs3, ha3⟩ := h13.stands
    exact ⟨rfl, ⟨F3, hs3.congr rfl fun _ _ => rfl, ha3.setTrie _ _ _⟩, h13.leafCount⟩
  · exact ⟨rfl, h13⟩

end

end OqsBind.Dns.Qp
