import OqsBind.Dns.QpAncestor
import OqsBind.Theorems.QpMap

/-! The search for the closest ancestor, on trees: where the descent by a key ends, and what it has noted on the way. Every
    leaf whose key is the start of the search key is noted or found; what is noted is such a leaf, unless it was noted at the
    offset 0. -/

namespace OqsBind.Dns.Qp
open List

/-! ### Keys that end -/

/-- Two separators in a row come only where a key ends. -/
def Sealed (key : Key) : Prop :=
  ∀ o, qpkeyBit key o = SHIFT_NOBYTE → qpkeyBit key (o + 1) = SHIFT_NOBYTE → key.length ≤ o + 1

/-- What is common to the keys of names: they end with a separator. -/
structure NameKey (key : Key) : Prop where
  last : ∃ k, key.length = k + 1 ∧ qpkeyBit key k = SHIFT_NOBYTE
  sealed : Sealed key

/-- The keys agree before the offset `n`. -/
def Agree (n : Nat) (a b : Key) : Prop := ∀ o < n, qpkeyBit a o = qpkeyBit b o

/-- `key` is the start of the search key. -/
def Covers (key search : Key) : Prop := Agree key.length key search

section
variable {a b c : Key} {n m : Nat}

theorem Agree.symm (h : Agree n a b) : Agree n b a := fun o ho => (h o ho).symm

theorem Agree.trans (h : Agree n a b) (h' : Agree n b c) : Agree n a c := fun o ho => (h o ho).trans (h' o ho)

theorem Agree.mono (h : Agree n a b) (hle : m ≤ n) : Agree m a b := fun o ho => h o (ho.trans_le hle)

theorem Agree.succ (h : Agree n a b) (hn : qpkeyBit a n = qpkeyBit b n) : Agree (n + 1) a b := fun o ho => by
  rcases Nat.lt_succ_iff_lt_or_eq.mp ho with hlt | rfl
  · exact h o hlt
  · exact hn

theorem NameKey.length_pos (h : NameKey a) : 0 < a.length := by
  obtain ⟨k, hk, -⟩ := h.last
  omega

theorem NameKey.length_le (ha : NameKey a) (hb : Sealed b) (h : Agree a.length a b)
    (hend : qpkeyBit b a.length = SHIFT_NOBYTE) : b.length ≤ a.length := by
  obtain ⟨k, hk, hlast⟩ := ha.last
  rw [hk] at h hend ⊢
  exact hb k ((h k (Nat.lt_succ_self k)).symm.trans hlast) hend

theorem NameKey.same (ha : NameKey a) (hb : Sealed b) (h : Agree (a.length + 1) a b) : SameKey a b := by
  have hend : qpkeyBit b a.length = SHIFT_NOBYTE := by
    rw [← h _ (Nat.lt_succ_self _)]
    exact qpkeyBit_end le_rfl
  have hlen := ha.length_le hb (h.mono (Nat.le_succ _)) hend
  intro o
  rcases Nat.lt_or_ge o a.length with hlt | hge
  · exact h o (hlt.trans (Nat.lt_succ_self _))
  · rw [qpkeyBit_end hge, qpkeyBit_end (hlen.trans hge)]

theorem Covers.compare (hcov : Covers a c) (ha : NameKey a) (hc : Sealed c) :
    SameKey c a ∨ qpkeyCompare c a = some a.length := by
  by_cases hend : qpkeyBit c a.length = SHIFT_NOBYTE
  · refine .inl fun o => (ha.same hc (hcov.succ ?_) o).symm
    rw [qpkeyBit_end le_rfl, hend]
  · refine .inr (qpkeyCompare_eq_some.mpr ⟨?_, fun j hj => (hcov j hj).symm⟩)
    rwa [show qpkeyBit a a.length = SHIFT_NOBYTE from qpkeyBit_end le_rfl]

end

/-! ### Descent -/

/-- What is noted at a branch: its leaf for `SHIFT_NOBYTE`, where a label of the search key begins. -/
def Tree.note (search : Key) (index : BitVec 64) (kids : Nat → Tree) (labels : List (Nat × Leaf)) : List (Nat × Leaf) :=
  match kids SHIFT_NOBYTE with
  | .branch _ _ => labels
  | .leaf l =>
    if branchKeybit index search ≠ SHIFT_NOBYTE ∧ SHIFT_NOBYTE ∈ twigBits index ∧
        bitBefore search (branchKeyOffset index) = SHIFT_NOBYTE then
      (branchKeyOffset index, l) :: labels
    else labels

/-- The descent from a tree, with what is noted already, ends at a leaf with what is noted then. -/
inductive Descends (search : Key) : Tree → List (Nat × Leaf) → Leaf → List (Nat × Leaf) → Prop
  | here (l : Leaf) (labels : List (Nat × Leaf)) : Descends search (.leaf l) labels l labels
  | follow {index : BitVec 64} {kids : Nat → Tree} {labels labels' : List (Nat × Leaf)} {l : Leaf}
      (hb : branchKeybit index search ∈ twigBits index)
      (h : Descends search (kids (branchKeybit index search)) (Tree.note search index kids labels) l labels') :
      Descends search (.branch index kids) labels l labels'
  | stray {index : BitVec 64} {kids : Nat → Tree} {labels labels' : List (Nat × Leaf)} {l : Leaf} {b : Nat}
      (hb : branchKeybit index search ∉ twigBits index) (hnil : Tree.note search index kids labels = [])
      (hany : b ∈ twigBits index) (h : Descends search (kids b) [] l labels') :
      Descends search (.branch index kids) labels l labels'
  | stop {index : BitVec 64} {kids : Nat → Tree} {labels rest : List (Nat × Leaf)} {o : Nat} {l : Leaf}
      (hb : branchKeybit index search ∉ twigBits index) (hnote : Tree.note search index kids labels = (o, l) :: rest) :
      Descends search (.branch index kids) labels l ((o, l) :: rest)

section
variable {makekey : Leaf → Key} {search : Key} {t : Tree} {labels labels' : List (Nat × Leaf)} {l x y : Leaf} {lo : Nat}
  {index : BitVec 64} {kids : Nat → Tree}

/-- The leaf is noted at the branch. -/
structure Notable (search : Key) (index : BitVec 64) (kids : Nat → Tree) (y : Leaf) : Prop where
  leaf : kids SHIFT_NOBYTE = .leaf y
  bit : branchKeybit index search ≠ SHIFT_NOBYTE
  has : SHIFT_NOBYTE ∈ twigBits index
  before : bitBefore search (branchKeyOffset index) = SHIFT_NOBYTE

theorem Notable.kid (h : Notable search index kids y) : y ∈ (kids SHIFT_NOBYTE).leaves := by
  rw [h.leaf]
  exact Multiset.mem_singleton_self y

theorem Notable.mem (h : Notable search index kids y) : y ∈ (Tree.branch index kids).leaves := Tree.mem_branch h.has h.kid

theorem Notable.note (h : Notable search index kids y) (labels : List (Nat × Leaf)) :
    Tree.note search index kids labels = (branchKeyOffset index, y) :: labels := by
  unfold Tree.note
  rw [h.leaf]
  exact if_pos ⟨h.bit, h.has, h.before⟩

theorem Tree.note_cases (search : Key) (index : BitVec 64) (kids : Nat → Tree) (labels : List (Nat × Leaf)) :
    Tree.note search index kids labels = labels ∨
      ∃ y, Notable search index kids y ∧ Tree.note search index kids labels = (branchKeyOffset index, y) :: labels := by
  unfold Tree.note
  rcases hleaf : kids SHIFT_NOBYTE with y | ⟨index', kids'⟩
  · dsimp only
    split
    · next h => exact .inr ⟨y, ⟨hleaf, h.1, h.2.1, h.2.2⟩, rfl⟩
    · exact .inl rfl
  · exact .inl rfl

theorem Tree.note_suffix (search : Key) (index : BitVec 64) (kids : Nat → Tree) (labels : List (Nat × Leaf)) :
    labels <:+ Tree.note search index kids labels := by
  rcases Tree.note_cases search index kids labels with h | ⟨y, -, h⟩ <;> rw [h]
  exact suffix_cons _ _

theorem Descends.suffix (h : Descends search t labels x labels') : labels <:+ labels' := by
  induction h with
  | here l labels => exact suffix_rfl
  | @follow index kids labels labels' l hb _ ih => exact (Tree.note_suffix search index kids labels).trans ih
  | @stray index kids labels labels' l b hb hnil hany _ ih =>
    have := Tree.note_suffix search index kids labels
    rw [hnil, suffix_nil] at this
    rw [this]
    exact nil_suffix
  | @stop index kids labels rest o l hb hnote => exact hnote ▸ Tree.note_suffix search index kids labels

theorem Descends.note_suffix (h : Descends search (.branch index kids) labels x labels') :
    Tree.note search index kids labels <:+ labels' := by
  cases h with
  | follow hb hdown => exact hdown.suffix
  | stray hb hnil => exact hnil ▸ nil_suffix
  | stop hb hnote => exact hnote ▸ suffix_rfl

theorem Descends.mem (h : Descends search t labels x labels') : x ∈ t.leaves ∨ ∃ o, labels.head? = some (o, x) := by
  have hnote : ∀ {index kids labels x}, (∃ o, (Tree.note search index kids labels).head? = some (o, x)) →
      x ∈ (Tree.branch index kids).leaves ∨ ∃ o, labels.head? = some (o, x) := by
    intro index kids labels x heq
    rcases Tree.note_cases search index kids labels with h | ⟨y, hy, h⟩ <;> rw [h] at heq
    · exact .inr heq
    · obtain ⟨o, heq⟩ := heq
      cases heq
      exact .inl hy.mem
  induction h with
  | here l labels => exact .inl (Multiset.mem_singleton_self l)
  | follow hb _ ih => exact ih.elim (fun hx => .inl (Tree.mem_branch hb hx)) hnote
  | stray hb hnil hany _ ih => exact .inl (Tree.mem_branch hany (ih.resolve_right fun ⟨_, heq⟩ => nomatch heq))
  | stop hb heq => exact hnote ⟨_, by rw [heq]; rfl⟩

/-! ### What is noted -/

theorem Descends.noted_mem (h : Descends search t labels x labels') : ∀ {lo : Nat}, t.WF makekey lo →
    ∀ p ∈ labels', p ∈ labels ∨ lo ≤ p.1 ∧ p.2 ∈ t.leaves := by
  have hnote : ∀ {index kids labels lo}, (Tree.branch index kids).WF makekey lo →
      ∀ p ∈ Tree.note search index kids labels, p ∈ labels ∨ lo ≤ p.1 ∧ p.2 ∈ (Tree.branch index kids).leaves := by
    intro index kids labels lo hwf p hp
    rcases Tree.note_cases search index kids labels with heq | ⟨y, hy, heq⟩ <;> rw [heq] at hp
    · exact .inl hp
    · rcases mem_cons.mp hp with rfl | hp
      · exact .inr ⟨hwf.1, hy.mem⟩
      · exact .inl hp
  induction h with
  | here l labels => exact fun _ p hp => .inl hp
  | follow hb _ ih =>
    intro lo hwf p hp
    rcases ih (hwf.kid hb) p hp with hp | ⟨hle, hp⟩
    · exact hnote hwf p hp
    · exact .inr ⟨hwf.1.trans (Nat.le_of_succ_le hle), Tree.mem_branch hb hp⟩
  | stray hb hnil hany _ ih =>
    intro lo hwf p hp
    rcases ih (hwf.kid hany) p hp with hp | ⟨hle, hp⟩
    · cases hp
    · exact .inr ⟨hwf.1.trans (Nat.le_of_succ_le hle), Tree.mem_branch hany hp⟩
  | stop hb heq => exact fun hwf p hp => hnote hwf p (heq ▸ hp)

/-- A note at the offset 0 is made at the root: it is the only leaf whose key begins with a separator. -/
theorem Descends.noted_zero (h : Descends search t [] x labels') (hwf : t.WF makekey 0) :
    (0, y) ∈ labels' ↔ ∃ index kids, t = .branch index kids ∧ branchKeyOffset index = 0 ∧ Notable search index kids y := by
  constructor
  · have hbelow : ∀ {lo t labels}, Descends search t labels x labels' → t.WF makekey (lo + 1) → (0, y) ∈ labels' →
        (0, y) ∈ labels := fun hdown hwf hp =>
      (hdown.noted_mem hwf _ hp).resolve_right fun hle => Nat.not_succ_le_zero _ hle.1
    have hnote : ∀ {index kids}, (0, y) ∈ Tree.note search index kids [] →
        branchKeyOffset index = 0 ∧ Notable search index kids y := by
      intro index kids hp
      rcases Tree.note_cases search index kids [] with heq | ⟨y', hy, heq⟩ <;> rw [heq] at hp
      · cases hp
      · obtain ⟨hoffset, rfl⟩ := Prod.mk.inj (mem_singleton.mp hp)
        exact ⟨hoffset.symm, hy⟩
    intro hp
    cases h with
    | here => cases hp
    | follow hb hdown => exact ⟨_, _, rfl, hnote (hbelow hdown (hwf.kid hb) hp)⟩
    | stray hb hnil hany hdown => cases hbelow hdown (hwf.kid hany) hp
    | stop hb heq => exact ⟨_, _, rfl, hnote (heq ▸ hp)⟩
  · rintro ⟨index, kids, rfl, hoffset, hy⟩
    refine h.note_suffix.subset ?_
    rw [hy.note, hoffset]
    exact .head _

/-- A leaf noted at an offset: a label of the search key begins there, and the leaf's key has a separator. -/
structure Noted (makekey : Leaf → Key) (search : Key) (p : Nat × Leaf) : Prop where
  begins : qpkeyBit search p.1 ≠ SHIFT_NOBYTE
  before : bitBefore search p.1 = SHIFT_NOBYTE
  bit : qpkeyBit (makekey p.2) p.1 = SHIFT_NOBYTE

/-- What holds of the notes above a tree whose keys begin to differ at `lo`: later notes come first, and keys agree up to
    where they were noted. -/
structure Notes (makekey : Leaf → Key) (search : Key) (labels : List (Nat × Leaf)) : Prop where
  noted : ∀ p ∈ labels, Noted makekey search p
  order : labels.Pairwise fun p q => q.1 < p.1 ∧ Agree q.1 (makekey p.2) (makekey q.2)

/-- The notes, seen from a leaf below. -/
def NotesAt (makekey : Leaf → Key) (lo : Nat) (z : Leaf) (labels : List (Nat × Leaf)) : Prop :=
  ∀ p ∈ labels, p.1 < lo ∧ Agree p.1 (makekey z) (makekey p.2)

theorem Notes.nil : Notes makekey search [] := ⟨fun _ hp => (nomatch hp), Pairwise.nil⟩

theorem NotesAt.nil {z : Leaf} : NotesAt makekey lo z [] := fun _ hp => (nomatch hp)

theorem Notes.note (h : Notes makekey search labels) (hwf : (Tree.branch index kids).WF makekey lo)
    (hat : ∀ z ∈ (Tree.branch index kids).leaves, NotesAt makekey lo z labels) :
    Notes makekey search (Tree.note search index kids labels) ∧
      ∀ z ∈ (Tree.branch index kids).leaves,
        NotesAt makekey (branchKeyOffset index + 1) z (Tree.note search index kids labels) := by
  have hold : ∀ z ∈ (Tree.branch index kids).leaves, NotesAt makekey (branchKeyOffset index + 1) z labels := fun z hz p hp =>
    ⟨Nat.lt_succ_of_lt ((hat z hz p hp).1.trans_le hwf.1), (hat z hz p hp).2⟩
  rcases Tree.note_cases search index kids labels with heq | ⟨y, hy, heq⟩ <;> rw [heq]
  · exact ⟨h, hold⟩
  · refine ⟨⟨forall_mem_cons.mpr ⟨⟨hy.bit, hy.before, hwf.bit hy.has hy.kid⟩, h.noted⟩, ?_⟩, fun z hz => ?_⟩
    · refine pairwise_cons.mpr ⟨fun p hp => ?_, h.order⟩
      exact ⟨(hat y hy.mem p hp).1.trans_le hwf.1, (hat y hy.mem p hp).2⟩
    · exact forall_mem_cons.mpr ⟨⟨Nat.lt_succ_self _, fun o ho => hwf.agree hz hy.mem ho⟩, hold z hz⟩

theorem Descends.notes (h : Descends search t labels x labels') : ∀ {lo : Nat}, t.WF makekey lo →
    Notes makekey search labels → (∀ z ∈ t.leaves, NotesAt makekey lo z labels) →
    Notes makekey search labels' ∧ ∀ p ∈ labels', Agree p.1 (makekey x) (makekey p.2) := by
  induction h with
  | here l labels =>
    intro lo _ hnotes hat
    exact ⟨hnotes, fun p hp => (hat l (Multiset.mem_singleton_self l) p hp).2⟩
  | @follow index kids labels labels' l hb _ ih =>
    intro lo hwf hnotes hat
    obtain ⟨hnotes', hat'⟩ := hnotes.note hwf hat
    exact ih (hwf.kid hb) hnotes' fun z hz => hat' z (Tree.mem_branch hb hz)
  | @stray index kids labels labels' l b hb hnil hany _ ih =>
    intro lo hwf hnotes hat
    exact ih (hwf.kid hany) .nil fun z _ => .nil
  | @stop index kids labels rest o l hb hnote =>
    intro lo hwf hnotes hat
    obtain ⟨hnotes', -⟩ := hnotes.note hwf hat
    rw [hnote] at hnotes'
    refine ⟨hnotes', fun p hp => ?_⟩
    rcases mem_cons.mp hp with rfl | hp
    · exact fun o _ => rfl
    · exact ((pairwise_cons.mp hnotes'.order).1 p hp).2

/-! ### Leaves that cover the search key -/

theorem Tree.WF.eq_leaf (hwf : t.WF makekey lo) (hl : l ∈ t.leaves)
    (h : ∀ z ∈ t.leaves, SameKey (makekey l) (makekey z)) : t = .leaf l := by
  cases t with
  | leaf l' => rw [Multiset.mem_singleton.mp hl]
  | branch index kids =>
    obtain ⟨b, hb, b', hb', hne⟩ := Finset.one_lt_card.mp (Nat.lt_of_lt_of_le Nat.one_lt_two hwf.2.2.1)
    have hall : ∀ b ∈ twigBits index, qpkeyBit (makekey l) (branchKeyOffset index) = b := by
      intro b hb
      obtain ⟨z, hz⟩ := (hwf.kid hb).exists_leaf
      exact (h z (Tree.mem_branch hb hz) _).trans (hwf.bit hb hz)
    exact absurd ((hall b hb).symm.trans (hall b' hb')) hne

/-- At a branch the search key goes the way of a leaf that covers it, or the branch is at the end of that leaf's key and notes
    the leaf. -/
theorem Tree.note_cover (hkeys : ∀ z, NameKey (makekey z)) (hwf : (Tree.branch index kids).WF makekey lo) {A : Leaf}
    (hA : A ∈ (Tree.branch index kids).leaves) (hcov : Covers (makekey A) search) (labels : List (Nat × Leaf)) :
    branchKeybit index search ∈ twigBits index ∧ A ∈ (kids (branchKeybit index search)).leaves ∨
      branchKeyOffset index = (makekey A).length ∧
        Tree.note search index kids labels = ((makekey A).length, A) :: labels := by
  obtain ⟨b, hb, hAb⟩ := Tree.mem_leaves_branch.mp hA
  by_cases hne : branchKeybit index search = b
  · exact .inl (hne ▸ ⟨hb, hAb⟩)
  have hAbit := hwf.bit hb hAb
  have hge : (makekey A).length ≤ branchKeyOffset index := by
    by_contra hlt
    exact hne ((hcov _ (not_le.mp hlt)).symm.trans hAbit)
  obtain rfl : b = SHIFT_NOBYTE := by
    rw [← hAbit]
    exact qpkeyBit_end hge
  have hoffset : branchKeyOffset index = (makekey A).length := by
    by_contra hother
    -- otherwise all leaves here have the key of `A`
    have hsame : ∀ z ∈ (Tree.branch index kids).leaves, SameKey (makekey A) (makekey z) := fun z hz =>
      (hkeys A).same (hkeys z).sealed fun o ho => hwf.agree hA hz (by omega)
    cases Tree.WF.eq_leaf hwf hA hsame
  have hleaf : kids SHIFT_NOBYTE = .leaf A := by
    refine Tree.WF.eq_leaf (hwf.kid hb) hAb fun z hz => (hkeys A).same (hkeys z).sealed (Agree.succ (fun o ho => ?_) ?_)
    · exact hwf.agree hA (Tree.mem_branch hb hz) (hoffset ▸ ho)
    · rw [← hoffset, hAbit, hwf.bit hb hz]
  have hbefore : bitBefore search (branchKeyOffset index) = SHIFT_NOBYTE := by
    obtain ⟨k, hk, hlast⟩ := (hkeys A).last
    rw [hoffset, hk]
    exact (hcov k (by omega)).symm.trans hlast
  exact .inr ⟨hoffset, hoffset ▸ Notable.note ⟨hleaf, hne, hb, hbefore⟩ labels⟩

/-- A leaf that covers the search key is found, or noted where its key ends; then the leaf that is found goes on as the
    search key does. -/
theorem Descends.covers (hkeys : ∀ z, NameKey (makekey z)) (h : Descends search t labels x labels') {A : Leaf}
    (hcov : Covers (makekey A) search) : ∀ {lo : Nat}, t.WF makekey lo → A ∈ t.leaves →
    x = A ∨ ((makekey A).length, A) ∈ labels' ∧ Agree ((makekey A).length + 1) (makekey x) search := by
  induction h with
  | here l labels => exact fun _ hA => .inl (Multiset.mem_singleton.mp hA).symm
  | @follow index kids labels labels' l hb hdown ih =>
    intro lo hwf hA
    rcases Tree.note_cover hkeys hwf hA hcov labels with ⟨-, hAk⟩ | ⟨hoffset, hnote⟩
    · exact ih (hwf.kid hb) hAk
    · rw [hnote] at hdown
      rcases hdown.mem with hx | ⟨o, hhead⟩
      · refine .inr ⟨hdown.suffix.subset (.head _), Agree.succ (Agree.trans (fun o ho => ?_) hcov) ?_⟩
        · exact hwf.agree (Tree.mem_branch hb hx) hA (hoffset ▸ ho)
        · rw [← hoffset]
          exact hwf.bit hb hx
      · cases hhead
        exact .inl rfl
  | @stray index kids labels labels' l b hb hnil hany _ ih =>
    intro lo hwf hA
    rcases Tree.note_cover hkeys hwf hA hcov labels with ⟨hb', -⟩ | ⟨-, hnote⟩
    · exact absurd hb' hb
    · cases hnil.symm.trans hnote
  | @stop index kids labels rest o l hb hnote =>
    intro lo hwf hA
    rcases Tree.note_cover hkeys hwf hA hcov labels with ⟨hb', -⟩ | ⟨-, hnote'⟩
    · exact absurd hb' hb
    · cases hnote.symm.trans hnote'
      exact .inl rfl

/-! ### Where the descent ends -/

/-- Up to the offset `n` the descent among the leaves `S` stays with the leaf `z`: where another key parts from that of `z`,
    the search key goes with `z`. -/
def StaysWith (makekey : Leaf → Key) (S : Leaf → Prop) (search : Key) (z : Leaf) (n : Nat) : Prop :=
  ∀ k, S k → ∀ o < n, qpkeyCompare (makekey z) (makekey k) = some o → qpkeyBit search o = qpkeyBit (makekey z) o

/-- The descent comes to the leaf `z`, or passes where `z` alone has a separator and a label of the search key begins. -/
inductive Near (makekey : Leaf → Key) (S : Leaf → Prop) (search : Key) (z : Leaf) : Prop
  | reached (h : ∀ n, StaysWith makekey S search z n)
  | passed (o : Nat) (h : StaysWith makekey S search z o) (noted : Noted makekey search (o, z))
      (parts : ∃ k, S k ∧ qpkeyCompare (makekey z) (makekey k) = some o)
      (alone : ∀ k, S k → Agree (o + 1) (makekey z) (makekey k) → k = z)

section
variable {z k : Leaf} (hwf : (Tree.branch index kids).WF makekey lo)
include hwf

theorem Tree.WF.compare_of_bit (hz : z ∈ (Tree.branch index kids).leaves) (hk : k ∈ (Tree.branch index kids).leaves)
    (hne : qpkeyBit (makekey z) (branchKeyOffset index) ≠ qpkeyBit (makekey k) (branchKeyOffset index)) :
    qpkeyCompare (makekey z) (makekey k) = some (branchKeyOffset index) :=
  qpkeyCompare_eq_some.mpr ⟨hne, fun _ ho => hwf.agree hz hk ho⟩

theorem Tree.WF.le_of_compare (hz : z ∈ (Tree.branch index kids).leaves) (hk : k ∈ (Tree.branch index kids).leaves) {o : Nat}
    (hcmp : qpkeyCompare (makekey z) (makekey k) = some o) : branchKeyOffset index ≤ o := by
  by_contra hlt
  exact (qpkeyCompare_eq_some.mp hcmp).1 (hwf.agree hz hk (not_le.mp hlt))

theorem Tree.WF.mem_kid (hk : k ∈ (Tree.branch index kids).leaves) :
    qpkeyBit (makekey k) (branchKeyOffset index) ∈ twigBits index ∧
      k ∈ (kids (qpkeyBit (makekey k) (branchKeyOffset index))).leaves := by
  obtain ⟨b, hb, hkb⟩ := Tree.mem_leaves_branch.mp hk
  rw [hwf.bit hb hkb]
  exact ⟨hb, hkb⟩

theorem Tree.WF.exists_apart (z : Leaf) : ∃ k ∈ (Tree.branch index kids).leaves,
    qpkeyBit (makekey z) (branchKeyOffset index) ≠ qpkeyBit (makekey k) (branchKeyOffset index) := by
  obtain ⟨b, hb, hne⟩ := Finset.exists_mem_ne (Nat.lt_of_lt_of_le Nat.one_lt_two hwf.2.2.1)
    (qpkeyBit (makekey z) (branchKeyOffset index))
  obtain ⟨k, hk⟩ := (hwf.kid hb).exists_leaf
  exact ⟨k, Tree.mem_branch hb hk, by rw [hwf.bit hb hk]; exact hne.symm⟩

/-- On the way of the search key, the other twigs do not count. -/
theorem near_kid (hb : branchKeybit index search ∈ twigBits index) (hz : z ∈ (kids (branchKeybit index search)).leaves) :
    Near makekey (· ∈ (Tree.branch index kids).leaves) search z ↔
      Near makekey (· ∈ (kids (branchKeybit index search)).leaves) search z := by
  have hzt := Tree.mem_branch hb hz
  have hbit := hwf.bit hb hz
  have hin : ∀ k ∈ (Tree.branch index kids).leaves,
      qpkeyBit (makekey z) (branchKeyOffset index) = qpkeyBit (makekey k) (branchKeyOffset index) →
        k ∈ (kids (branchKeybit index search)).leaves := fun k hk heq => by
    rw [← hbit, heq]
    exact (hwf.mem_kid hk).2
  have hstays : ∀ n, StaysWith makekey (· ∈ (Tree.branch index kids).leaves) search z n ↔
      StaysWith makekey (· ∈ (kids (branchKeybit index search)).leaves) search z n := fun n => by
    refine ⟨fun h k hk => h k (Tree.mem_branch hb hk), fun h k hk o ho hcmp => ?_⟩
    by_cases heq : qpkeyBit (makekey z) (branchKeyOffset index) = qpkeyBit (makekey k) (branchKeyOffset index)
    · exact h k (hin k hk heq) o ho hcmp
    · cases (hwf.compare_of_bit hzt hk heq).symm.trans hcmp
      exact hbit.symm
  constructor
  · rintro (h | ⟨o, h, hnoted, ⟨k, hk, hcmp⟩, halone⟩)
    · exact .reached fun n => (hstays n).mp (h n)
    · refine .passed o ((hstays o).mp h) hnoted ⟨k, hin k hk ?_, hcmp⟩ fun k hk => halone k (Tree.mem_branch hb hk)
      by_contra hne
      cases (hwf.compare_of_bit hzt hk hne).symm.trans hcmp
      exact hnoted.begins (hbit.symm.trans hnoted.bit)
  · rintro (h | ⟨o, h, hnoted, ⟨k, hk, hcmp⟩, halone⟩)
    · exact .reached fun n => (hstays n).mpr (h n)
    · refine .passed o ((hstays o).mpr h) hnoted ⟨k, Tree.mem_branch hb hk, hcmp⟩ fun k' hk' hagree => ?_
      refine halone k' (hin k' hk' (hagree _ (Nat.lt_succ_of_le ?_))) hagree
      exact hwf.le_of_compare hzt (Tree.mem_branch hb hk) hcmp

/-- Aside of the way, a leaf counts if it is noted here. -/
theorem near_aside (hz : z ∈ (Tree.branch index kids).leaves)
    (hne : qpkeyBit (makekey z) (branchKeyOffset index) ≠ branchKeybit index search) :
    Near makekey (· ∈ (Tree.branch index kids).leaves) search z ↔ Notable search index kids z := by
  obtain ⟨apart, hapart, hbit⟩ := hwf.exists_apart z
  have hcmp := hwf.compare_of_bit hz hapart hbit
  constructor
  · rintro (h | ⟨o, h, hnoted, ⟨k, hk, hcmpk⟩, halone⟩)
    · exact absurd (h _ apart hapart _ (Nat.lt_succ_self _) hcmp).symm hne
    · obtain rfl : o = branchKeyOffset index := by
        refine le_antisymm (not_lt.mp fun hlt => ?_) (hwf.le_of_compare hz hk hcmpk)
        exact hne (h apart hapart _ hlt hcmp).symm
      obtain ⟨hhas, hkid⟩ := hwf.mem_kid hz
      rw [show qpkeyBit (makekey z) (branchKeyOffset index) = SHIFT_NOBYTE from hnoted.bit] at hhas hkid
      refine ⟨Tree.WF.eq_leaf (hwf.kid hhas) hkid fun k hk o => ?_, hnoted.begins, hhas, hnoted.before⟩
      have hkt := Tree.mem_branch hhas hk
      rw [halone k hkt (Agree.succ (fun o ho => hwf.agree hz hkt ho) (hnoted.bit.trans (hwf.bit hhas hk).symm))]
  · intro hy
    refine .passed (branchKeyOffset index) (fun k hk o ho hcmpk => absurd (hwf.le_of_compare hz hk hcmpk) (not_le.mpr ho))
      ⟨hy.bit, hy.before, hwf.bit hy.has hy.kid⟩ ⟨apart, hapart, hcmp⟩ fun k hk hagree => ?_
    have hkid := (hwf.mem_kid hk).2
    rw [← hagree _ (Nat.lt_succ_self _), hwf.bit hy.has hy.kid, hy.leaf] at hkid
    exact Multiset.mem_singleton.mp hkid

/-- A leaf that is noted here is near. -/
theorem Notable.near (hy : Notable search index kids y) :
    ∃ z ∈ (Tree.branch index kids).leaves, Near makekey (· ∈ (Tree.branch index kids).leaves) search z :=
  ⟨y, hy.mem, (near_aside hwf hy.mem (hwf.bit hy.has hy.kid ▸ hy.bit.symm)).mpr hy⟩

/-- Where nothing is noted, what is near is on the way. -/
theorem Near.on_way (hnote : Tree.note search index kids labels = labels) (hz : z ∈ (Tree.branch index kids).leaves)
    (hnear : Near makekey (· ∈ (Tree.branch index kids).leaves) search z) :
    qpkeyBit (makekey z) (branchKeyOffset index) = branchKeybit index search := by
  by_contra hne
  have := congrArg length (hnote.symm.trans (((near_aside hwf hz hne).mp hnear).note labels))
  simp at this

end

/-- With notes from above, the descent ends among the leaves below if and only if it comes near one of them. -/
theorem Descends.inside (h : Descends search t labels x labels') : ∀ {lo : Nat}, t.WF makekey lo → labels ≠ [] →
    (∀ p ∈ labels, p.2 ∉ t.leaves) → (x ∈ t.leaves ↔ ∃ z ∈ t.leaves, Near makekey (· ∈ t.leaves) search z) := by
  induction h with
  | here l labels =>
    intro lo _ _ _
    refine iff_of_true (Multiset.mem_singleton_self l) ⟨l, Multiset.mem_singleton_self l, .reached fun n k hk o _ hcmp => ?_⟩
    rw [Multiset.mem_singleton.mp hk] at hcmp
    exact absurd rfl (qpkeyCompare_eq_some.mp hcmp).1
  | @follow index kids labels labels' l hb hdown ih =>
    intro lo hwf hne hout
    rcases Tree.note_cases search index kids labels with hnote | ⟨y, hy, hnote⟩ <;> rw [hnote] at hdown ih
    · have hout' : ∀ p ∈ labels, p.2 ∉ (kids (branchKeybit index search)).leaves := fun p hp hin =>
        hout p hp (Tree.mem_branch hb hin)
      have hin : l ∈ (Tree.branch index kids).leaves ↔ l ∈ (kids (branchKeybit index search)).leaves := by
        refine ⟨fun hl => hdown.mem.resolve_right fun ⟨o, hhead⟩ => ?_, Tree.mem_branch hb⟩
        exact hout _ (mem_of_head? hhead) hl
      rw [hin, ih (hwf.kid hb) hne hout']
      refine ⟨fun ⟨z, hz, hnear⟩ => ⟨z, Tree.mem_branch hb hz, (near_kid hwf hb hz).mpr hnear⟩, fun ⟨z, hz, hnear⟩ => ?_⟩
      have hzk := (hwf.mem_kid hz).2
      rw [Near.on_way hwf hnote hz hnear] at hzk
      exact ⟨z, hzk, (near_kid hwf hb hzk).mp hnear⟩
    · refine iff_of_true ?_ (hy.near hwf)
      rcases hdown.mem with hl | ⟨o, hhead⟩
      · exact Tree.mem_branch hb hl
      · cases hhead
        exact hy.mem
  | @stray index kids labels labels' l b hb hnil hany _ ih =>
    intro lo hwf hne hout
    have hsuffix := Tree.note_suffix search index kids labels
    rw [hnil, suffix_nil] at hsuffix
    exact absurd hsuffix hne
  | @stop index kids labels rest o l hb hstop =>
    intro lo hwf hne hout
    rcases Tree.note_cases search index kids labels with hnote | ⟨y, hy, hnote⟩
    · refine iff_of_false (hout (o, l) ?_) fun ⟨z, hz, hnear⟩ => hb ?_
      · rw [← hnote, hstop]
        exact .head _
      · rw [← Near.on_way hwf hnote hz hnear]
        exact (hwf.mem_kid hz).1
    · cases hstop.symm.trans hnote
      exact iff_of_true hy.mem (hy.near hwf)

/-! ### The decision -/

/-- The end of `dns_qp_findname_ancestor`: a leaf, and whether it has the key that was searched for. -/
def decideAncestor (makekey : Leaf → Key) (search : Key) (x : Leaf) (labels : List (Nat × Leaf)) : Option (Bool × Leaf) :=
  match qpkeyCompare search (makekey x) with
  | none => some (true, x)
  | some offset =>
    if offset = (makekey x).length then some (false, x)
    else (labels.find? (·.1 < offset)).map fun p => (false, p.2)

/-- A leaf that covers the search key and has the longest key of those that do. -/
structure Closest (makekey : Leaf → Key) (m : Multiset Leaf) (search : Key) (A : Leaf) : Prop where
  mem : A ∈ m
  covers : Covers (makekey A) search
  longest : ∀ B ∈ m, Covers (makekey B) search → (makekey B).length ≤ (makekey A).length

theorem Notes.first (h : Notes makekey search labels) {d : Nat} {p q : Nat × Leaf} (hfind : labels.find? (·.1 < d) = some p)
    (hq : q ∈ labels) (hqd : q.1 < d) : q.1 ≤ p.1 := by
  obtain ⟨-, as, bs, rfl, has⟩ := find?_eq_some_iff_append.mp hfind
  rcases mem_append.mp hq with hq | hq
  · have := has q hq
    simp only [Bool.not_eq_true', decide_eq_false_iff_not] at this
    exact absurd hqd this
  · rcases mem_cons.mp hq with rfl | hq
    · exact le_rfl
    · exact ((pairwise_cons.mp (pairwise_append.mp h.order).2.1).1 q hq).1.le

/-- A leaf noted past the offset 0, before the leaf that was found differs from the search key, covers it. -/
theorem Noted.covers (hkeys : ∀ z, NameKey (makekey z)) (hs : Sealed search) {o : Nat} {y : Leaf}
    (h : Noted makekey search (o + 1, y)) (hagree : Agree (o + 1) (makekey y) search) :
    (makekey y).length = o + 1 ∧ Covers (makekey y) search := by
  have hlast : qpkeyBit (makekey y) o = SHIFT_NOBYTE := (hagree o (Nat.lt_succ_self o)).trans h.before
  have hle : (makekey y).length ≤ o + 1 := (hkeys y).sealed o hlast h.bit
  have hlen : (makekey y).length = o + 1 := by
    by_contra hne
    have hlt : (makekey y).length < o + 1 := Nat.lt_of_le_of_ne hle hne
    have hend : qpkeyBit search (makekey y).length = SHIFT_NOBYTE := by
      rw [← hagree _ hlt]
      exact qpkeyBit_end le_rfl
    have hslen := (hkeys y).length_le hs (hagree.mono hle) hend
    exact h.begins (qpkeyBit_end (hslen.trans hle))
  exact ⟨hlen, fun o' ho' => hagree o' (hlen ▸ ho')⟩

/-- The leaf `y` is noted although its key begins with a separator and the search key does not, and the leaf that is found
    does not rule it out. -/
structure Stray (makekey : Leaf → Key) (S : Leaf → Prop) (search : Key) (y : Leaf) : Prop where
  begins : qpkeyBit search 0 ≠ SHIFT_NOBYTE
  mem : S y
  only : ∀ z, S z → (qpkeyBit (makekey z) 0 = SHIFT_NOBYTE ↔ z = y)
  found : ∃ z, S z ∧ qpkeyBit (makekey z) 0 = qpkeyBit search 0 ∧ Near makekey S search z

/-- It is noted at the root, if some key begins as the search key does. -/
theorem notable_root (hwf : t.WF makekey 0) (hbegins : qpkeyBit search 0 ≠ SHIFT_NOBYTE) (hy : y ∈ t.leaves)
    (honly : ∀ z ∈ t.leaves, qpkeyBit (makekey z) 0 = SHIFT_NOBYTE ↔ z = y) {z : Leaf} (hz : z ∈ t.leaves)
    (hz0 : qpkeyBit (makekey z) 0 = qpkeyBit search 0) :
    ∃ index kids, t = .branch index kids ∧ branchKeyOffset index = 0 ∧ Notable search index kids y := by
  have hy0 : qpkeyBit (makekey y) 0 = SHIFT_NOBYTE := (honly y hy).mpr rfl
  cases t with
  | leaf l =>
    rw [Multiset.mem_singleton.mp hz, ← Multiset.mem_singleton.mp hy, hy0] at hz0
    exact absurd hz0.symm hbegins
  | branch index kids =>
    have hoffset : branchKeyOffset index = 0 := by
      by_contra hpos
      have := hwf.agree hz hy (Nat.pos_of_ne_zero hpos)
      rw [hz0, hy0] at this
      exact hbegins this
    obtain ⟨hhas, hyk⟩ := hwf.mem_kid hy
    rw [hoffset, hy0] at hhas hyk
    have hleaf : kids SHIFT_NOBYTE = .leaf y := by
      refine Tree.WF.eq_leaf (hwf.kid hhas) hyk fun z hz => ?_
      rw [(honly z (Tree.mem_branch hhas hz)).mp (hoffset ▸ hwf.bit hhas hz)]
      exact fun _ => rfl
    exact ⟨index, kids, rfl, hoffset, hleaf, by rwa [branchKeybit, hoffset], hhas, by rw [hoffset]; rfl⟩

/-- Where the only key that begins with a separator is noted at the root, the descent ends at a key that begins as the
    search key does, if and only if it comes near one. -/
theorem Descends.found_iff (h : Descends search t [] x labels') (hwf : t.WF makekey 0)
    (hbegins : qpkeyBit search 0 ≠ SHIFT_NOBYTE) (hy : y ∈ t.leaves)
    (honly : ∀ z ∈ t.leaves, qpkeyBit (makekey z) 0 = SHIFT_NOBYTE ↔ z = y) :
    qpkeyBit (makekey x) 0 = qpkeyBit search 0 ↔
      ∃ z ∈ t.leaves, qpkeyBit (makekey z) 0 = qpkeyBit search 0 ∧ Near makekey (· ∈ t.leaves) search z := by
  have hx : x ∈ t.leaves := h.mem.resolve_right fun ⟨_, hnil⟩ => by cases hnil
  by_cases hex : ∃ z ∈ t.leaves, qpkeyBit (makekey z) 0 = qpkeyBit search 0
  · obtain ⟨z, hz, hz0⟩ := hex
    obtain ⟨index, kids, rfl, hoffset, hnotable⟩ := notable_root hwf hbegins hy honly hz hz0
    have hsearch : branchKeybit index search = qpkeyBit search 0 := by rw [branchKeybit, hoffset]
    have hb : branchKeybit index search ∈ twigBits index := by
      have := (hwf.mem_kid hz).1
      rwa [hoffset, hz0, ← hsearch] at this
    have hkid : ∀ {k}, k ∈ (Tree.branch index kids).leaves →
        (qpkeyBit (makekey k) 0 = qpkeyBit search 0 ↔ k ∈ (kids (branchKeybit index search)).leaves) := fun hk => by
      rw [← hsearch, ← hoffset]
      refine ⟨fun heq => ?_, fun hkk => hwf.bit hb hkk⟩
      rw [← heq]
      exact (hwf.mem_kid hk).2
    rw [hkid hx]
    cases h with
    | follow _ hdown =>
      rw [hnotable.note] at hdown
      rw [hdown.inside (hwf.kid hb) (cons_ne_nil _ _) fun p hp hin => ?_]
      · refine exists_congr fun z => ⟨fun ⟨hz, hnear⟩ => ?_, fun ⟨hz, hz0, hnear⟩ => ?_⟩
        · have hzt := Tree.mem_branch hb hz
          exact ⟨hzt, (hkid hzt).mpr hz, (near_kid hwf hb hz).mpr hnear⟩
        · exact ⟨(hkid hz).mp hz0, (near_kid hwf hb ((hkid hz).mp hz0)).mp hnear⟩
      · rw [mem_singleton.mp hp] at hin
        rw [← hkid hy, (honly y hy).mpr rfl] at hin
        exact hbegins hin.symm
    | stray hnot => exact absurd hb hnot
    | stop hnot => exact absurd hb hnot
  · exact iff_of_false (fun hx0 => hex ⟨x, hx, hx0⟩) fun ⟨z, hz, hz0, _⟩ => hex ⟨z, hz, hz0⟩

section
variable (hkeys : ∀ z, NameKey (makekey z)) (hs : Sealed search) (hwf : t.WF makekey 0)
  (h : Descends search t [] x labels')
include hwf h

theorem Descends.top : Notes makekey search labels' ∧ (∀ p ∈ labels', Agree p.1 (makekey x) (makekey p.2)) ∧ x ∈ t.leaves := by
  obtain ⟨hnotes, hagree⟩ := h.notes hwf .nil fun z _ => .nil
  exact ⟨hnotes, hagree, h.mem.resolve_right fun ⟨_, hnil⟩ => nomatch hnil⟩

include hkeys hs

/-- What is chosen from the notes covers the search key, unless it was noted at the offset 0. -/
theorem Descends.chosen {d : Nat} (hcmp : qpkeyCompare search (makekey x) = some d) {p : Nat × Leaf}
    (hfind : labels'.find? (·.1 < d) = some p) :
    p.1 = 0 ∨ p.2 ∈ t.leaves ∧ (makekey p.2).length = p.1 ∧ Covers (makekey p.2) search := by
  obtain ⟨hnotes, hagree, -⟩ := h.top hwf
  have hp := mem_of_find?_eq_some hfind
  have hlt : p.1 < d := by simpa using find?_some hfind
  have hxs : Agree d (makekey x) search := fun o ho => ((qpkeyCompare_eq_some.mp hcmp).2 o ho).symm
  obtain ⟨o, y⟩ := p
  cases o with
  | zero => exact .inl rfl
  | succ o =>
    have hys : Agree (o + 1) (makekey y) search := (hagree _ hp).symm.trans (hxs.mono hlt.le)
    refine .inr ⟨?_, (hnotes.noted _ hp).covers hkeys hs hys⟩
    exact ((h.noted_mem hwf _ hp).resolve_left not_mem_nil).2

theorem Descends.closest (hex : ∃ B ∈ t.leaves, Covers (makekey B) search) :
    ∃ A, Closest makekey t.leaves search A ∧
      decideAncestor makekey search x labels' = some ((qpkeyCompare search (makekey A)).isNone, A) := by
  obtain ⟨hnotes, hagree, hx⟩ := h.top hwf
  have hcovered := fun B hB (hcov : Covers (makekey B) search) => h.covers hkeys hcov hwf (A := B) hB
  unfold decideAncestor
  rcases hcmp : qpkeyCompare search (makekey x) with _ | d
  · -- the key itself
    have hsame := qpkeyCompare_eq_none.mp hcmp
    refine ⟨x, ⟨hx, fun o _ => (hsame o).symm, fun B hB hcov => ?_⟩, by simp [hcmp]⟩
    by_contra hlt
    have hlt := not_le.mp hlt
    refine hlt.not_ge ((hkeys x).length_le (hkeys B).sealed (fun o ho => ?_) ?_)
    · rw [← hsame, hcov o (ho.trans hlt)]
    · rw [hcov _ hlt, hsame]
      exact qpkeyBit_end le_rfl
  · obtain ⟨hdiff, hbefore⟩ := qpkeyCompare_eq_some.mp hcmp
    have hlt : ∀ B, Agree ((makekey B).length + 1) (makekey x) search → (makekey B).length < d := by
      intro B hB
      by_contra hge
      exact hdiff (hB d (by omega)).symm
    dsimp only
    by_cases hd : d = (makekey x).length
    · -- an ancestor, at the end of the descent
      rw [if_pos hd]
      refine ⟨x, ⟨hx, fun o ho => (hbefore o (hd ▸ ho)).symm, fun B hB hcov => ?_⟩, by simp [hcmp]⟩
      rcases hcovered B hB hcov with rfl | ⟨-, hB⟩
      · exact le_rfl
      · exact hd ▸ (hlt B hB).le
    · rw [if_neg hd]
      have hnoted : ∀ B ∈ t.leaves, Covers (makekey B) search → ((makekey B).length, B) ∈ labels' ∧ (makekey B).length < d := by
        intro B hB hcov
        rcases hcovered B hB hcov with rfl | ⟨hmem, hB⟩
        · rcases hcov.compare (hkeys x) hs with hsame | hsome
          · exact absurd (hsame d) hdiff
          · rw [hcmp] at hsome
            exact absurd (Option.some.inj hsome) hd
        · exact ⟨hmem, hlt B hB⟩
      obtain ⟨B, hB, hcov⟩ := hex
      obtain ⟨hmem, hBd⟩ := hnoted B hB hcov
      obtain ⟨p, hp⟩ : ∃ p, labels'.find? (·.1 < d) = some p :=
        Option.isSome_iff_exists.mp (find?_isSome.mpr ⟨_, hmem, by simpa using hBd⟩)
      rw [hp]
      rcases h.chosen hkeys hs hwf hcmp hp with hzero | ⟨hpt, hlen, hpcov⟩
      · have := hnotes.first hp hmem hBd
        have := (hkeys B).length_pos
        omega
      · refine ⟨p.2, ⟨hpt, hpcov, fun C hC hcovC => ?_⟩, ?_⟩
        · obtain ⟨hmemC, hCd⟩ := hnoted C hC hcovC
          exact hlen ▸ hnotes.first hp hmemC hCd
        · have hnoted := hnotes.noted p (mem_of_find?_eq_some hp)
          rcases hpcov.compare (hkeys p.2) hs with hsame | hsome
          · exact absurd ((hsame p.1).trans hnoted.bit) hnoted.begins
          · rw [hsome]
            rfl

/-- Without a leaf that covers the search key, a leaf is chosen only when it was noted at the offset 0. -/
theorem Descends.unrelated (hnone : ∀ B ∈ t.leaves, ¬ Covers (makekey B) search) (r : Bool × Leaf) :
    decideAncestor makekey search x labels' = some r ↔ ∃ y, r = (false, y) ∧ Stray makekey (· ∈ t.leaves) search y := by
  obtain ⟨hnotes, hagree, hx⟩ := h.top hwf
  have hxs := hnone x hx
  unfold decideAncestor
  rcases hcmp : qpkeyCompare search (makekey x) with _ | d
  · exact absurd (fun o _ => (qpkeyCompare_eq_none.mp hcmp o).symm) hxs
  · obtain ⟨hdiff, hbefore⟩ := qpkeyCompare_eq_some.mp hcmp
    have hd : d ≠ (makekey x).length := fun hd => hxs fun o ho => (hbefore o (hd ▸ ho)).symm
    dsimp only
    rw [if_neg hd, Option.map_eq_some_iff]
    constructor
    · rintro ⟨p, hp, rfl⟩
      have hmem := mem_of_find?_eq_some hp
      have hlt : p.1 < d := by simpa using find?_some hp
      rcases h.chosen hkeys hs hwf hcmp hp with hzero | ⟨hpt, -, hpcov⟩
      · obtain ⟨o, y⟩ := p
        obtain rfl : o = 0 := hzero
        obtain ⟨index, kids, rfl, hoffset, hy⟩ := (h.noted_zero hwf).mp hmem
        have honly : ∀ z ∈ (Tree.branch index kids).leaves, qpkeyBit (makekey z) 0 = SHIFT_NOBYTE ↔ z = y := by
          refine fun z hz => ⟨fun hz0 => ?_, ?_⟩
          · have hzk := (hwf.mem_kid hz).2
            rw [hoffset, hz0, hy.leaf] at hzk
            exact Multiset.mem_singleton.mp hzk
          · rintro rfl
            exact (hnotes.noted _ hmem).bit
        have hbegins := (hnotes.noted _ hmem).begins
        exact ⟨y, rfl, hbegins, hy.mem, honly, (h.found_iff hwf hbegins hy.mem honly).mp (hbefore 0 hlt).symm⟩
      · exact absurd hpcov (hnone _ hpt)
    · rintro ⟨y, rfl, hbegins, hmem, honly, hfound⟩
      replace hfound := (h.found_iff hwf hbegins hmem honly).mpr hfound
      have hzero : (0, y) ∈ labels' := (h.noted_zero hwf).mpr (notable_root hwf hbegins hmem honly hx hfound)
      have hpos : 0 < d := by
        refine Nat.pos_of_ne_zero ?_
        rintro rfl
        exact hdiff hfound.symm
      obtain ⟨p, hp⟩ : ∃ p, labels'.find? (·.1 < d) = some p :=
        Option.isSome_iff_exists.mp (find?_isSome.mpr ⟨_, hzero, by simpa using hpos⟩)
      refine ⟨p, hp, ?_⟩
      rcases h.chosen hkeys hs hwf hcmp hp with hp0 | ⟨hpt, -, hpcov⟩
      · have hpm := mem_of_find?_eq_some hp
        have hbit := (hnotes.noted p hpm).bit
        rw [hp0] at hbit
        rw [(honly _ ((h.noted_mem hwf p hpm).resolve_left not_mem_nil).2).mp hbit]
      · exact absurd hpcov (hnone _ hpt)

end

end

/-! ### The loop -/

/-- How many labels begin in a key, where a separator came before it or not. -/
def countLabels : Bool → Key → Nat
  | _, [] => 0
  | start, bit :: key => (if start = true ∧ bit ≠ SHIFT_NOBYTE then 1 else 0) + countLabels (bit = SHIFT_NOBYTE) key

/-- A label begins at the offset. -/
def Begins (start : Bool) (key : Key) (o : Nat) : Prop :=
  qpkeyBit key o ≠ SHIFT_NOBYTE ∧ (if o = 0 then start = true else qpkeyBit key (o - 1) = SHIFT_NOBYTE)

theorem Begins.tail {start : Bool} {bit : Nat} {key : Key} {o : Nat} (h : Begins start (bit :: key) o) (hpos : 0 < o) :
    Begins (bit = SHIFT_NOBYTE) key (o - 1) := by
  obtain ⟨o, rfl⟩ := Nat.exists_eq_succ_of_ne_zero hpos.ne'
  refine ⟨h.1, ?_⟩
  have hbefore := h.2
  cases o with
  | zero =>
    have hbit : bit = SHIFT_NOBYTE := hbefore
    exact decide_eq_true hbit
  | succ o => exact hbefore

theorem length_le_countLabels : ∀ {key : Key} {start : Bool} {os : List Nat}, os.Pairwise (· < ·) →
    (∀ o ∈ os, Begins start key o) → os.length ≤ countLabels start key
  | [], start, os, _, hb => by
    rcases os with _ | ⟨o, os⟩
    · exact le_rfl
    · exact absurd (qpkeyBit_end (Nat.zero_le o)) (hb o (.head _)).1
  | bit :: key, start, os, hos, hb => by
    have hshift : ∀ {os : List Nat}, os.Pairwise (· < ·) → (∀ o ∈ os, 0 < o ∧ Begins start (bit :: key) o) →
        os.length ≤ countLabels (bit = SHIFT_NOBYTE) key := by
      intro os hos hb
      rw [← length_map (f := (· - 1))]
      refine length_le_countLabels ?_ ?_
      · rw [pairwise_map]
        refine hos.imp_of_mem fun ha _ hlt => ?_
        have := (hb _ ha).1
        omega
      · intro o ho
        obtain ⟨o', ho', rfl⟩ := mem_map.mp ho
        exact (hb o' ho').2.tail (hb o' ho').1
    rcases os with _ | ⟨o, os⟩
    · exact Nat.zero_le _
    · obtain ⟨hlt, htail⟩ := pairwise_cons.mp hos
      rcases Nat.eq_zero_or_pos o with rfl | hpos
      · obtain ⟨hbit, hstart⟩ := hb 0 (.head _)
        have hrest := hshift htail fun o' ho' => ⟨hlt o' ho', hb o' (.tail _ ho')⟩
        rw [countLabels, if_pos ⟨by simpa using hstart, hbit⟩, length_cons]
        omega
      · refine (hshift hos fun o' ho' => ⟨?_, hb o' ho'⟩).trans (Nat.le_add_left _ _)
        rcases mem_cons.mp ho' with rfl | ho'
        · exact hpos
        · exact hpos.trans (hlt o' ho')

section
variable {makekey : Leaf → Key} {search : Key} {v : Nat → Node}

theorem Notes.length_le {labels : List (Nat × Leaf)} (h : Notes makekey search labels) :
    labels.length ≤ countLabels true search := by
  rw [← length_map (f := Prod.fst), ← length_reverse]
  refine length_le_countLabels ?_ fun o ho => ?_
  · rw [pairwise_reverse, pairwise_map]
    exact h.order.imp fun hpq => hpq.1
  · obtain ⟨p, hp, rfl⟩ := mem_map.mp (mem_reverse.mp ho)
    obtain ⟨hbegins, hbefore, -⟩ := h.noted p hp
    refine ⟨hbegins, ?_⟩
    obtain ⟨o, l⟩ := p
    cases o with
    | zero => rfl
    | succ o => exact hbefore

/-- The array `label` refers to the leaves that are noted. -/
def Refers (v : Nat → Node) (p : Nat × Nat) (q : Nat × Leaf) : Prop := p.1 = q.1 ∧ v p.2 = .leaf q.2

theorem nobyte_pos {index : BitVec 64} (h : SHIFT_NOBYTE ∈ twigBits index) : branchTwigPos index SHIFT_NOBYTE = 0 := by
  simpa [pos_eq h] using fun _ hx => Nat.not_lt.mpr (bit_range hx).1

/-- What is noted at a branch is the same in the array. -/
theorem refers_note {index : BitVec 64} {kids : Nat → Tree} {twigs : Nat} {G : Nat → Multiset Nat} {labels : List (Nat × Nat)}
    {L : List (Nat × Leaf)} (search : Key) (hT : Twigs v index kids twigs G) (hlabels : Forall₂ (Refers v) labels L) :
    ∃ labels1, (if qpkeyBit search (branchKeyOffset index) ≠ SHIFT_NOBYTE ∧ branchHasTwig index SHIFT_NOBYTE = true ∧
        bitBefore search (branchKeyOffset index) = SHIFT_NOBYTE ∧ (v twigs).isBranch = false then
          (branchKeyOffset index, twigs) :: labels else labels) = labels1 ∧
      Forall₂ (Refers v) labels1 (Tree.note search index kids L) := by
  have hnobyte : branchHasTwig index SHIFT_NOBYTE = true ↔ SHIFT_NOBYTE ∈ twigBits index :=
    branchHasTwig_iff (by decide)
  have hkid : SHIFT_NOBYTE ∈ twigBits index → Rep v (kids SHIFT_NOBYTE) (v twigs) (G SHIFT_NOBYTE) := fun hmem => by
    simpa [nobyte_pos hmem] using hT.kid _ hmem
  refine ⟨_, rfl, ?_⟩
  split
  · next hcond =>
    have hmem := hnobyte.mp hcond.2.1
    rcases hleaf : kids SHIFT_NOBYTE with y | ⟨index', kids'⟩
    · rw [Notable.note ⟨hleaf, hcond.1, hmem, hcond.2.2.1⟩]
      exact .cons ⟨rfl, (hleaf ▸ hkid hmem).1⟩ hlabels
    · obtain ⟨twigs', hcell⟩ := (hleaf ▸ hkid hmem).branch_cell
      rw [hcell] at hcond
      cases hcond.2.2.2
  · next hcond =>
    rcases Tree.note_cases search index kids L with heq | ⟨y, hy, -⟩
    · rwa [heq]
    · have hcell := hkid hy.has
      rw [hy.leaf] at hcell
      exact absurd ⟨hy.bit, hnobyte.mpr hy.has, hy.before, by rw [hcell.1]; rfl⟩ hcond

/-- The loop is a descent in the tree that the cells hold. -/
theorem ancestorLoop_spec (hk : KeyOk search) (hcount : countLabels true search ≤ NAME_MAXLABELS) :
    ∀ {t : Tree} {fuel a lo : Nat} {F : Multiset Nat} {labels : List (Nat × Nat)} {L : List (Nat × Leaf)},
      Rep v t (v a) F → t.Fits fuel → t.WF makekey lo → Notes makekey search L →
      (∀ z ∈ t.leaves, NotesAt makekey lo z L) → Forall₂ (Refers v) labels L →
      ∃ n labels' x L', ancestorLoop v search (fuel + 1) a labels = .ok (n, labels') ∧ v n = .leaf x ∧
        Descends search t L x L' ∧ Forall₂ (Refers v) labels' L'
  | .leaf l, fuel, a, lo, F, labels, L, hrep, _, _, _, _, hlabels => by
    refine ⟨a, labels, l, L, ?_, hrep.1, .here l L, hlabels⟩
    rw [ancestorLoop, hrep.1]
  | .branch index kids, fuel, a, lo, F, labels, L, hrep, hfits, hwf, hnotes, hat, hlabels => by
    obtain ⟨m, rfl, hpos, hfits⟩ := hfits
    obtain ⟨twigs, hcell⟩ := hrep.branch_cell
    rw [hcell] at hrep
    obtain ⟨G, hT, -⟩ := rep_branch_iff.mp hrep
    obtain ⟨hnotes', hat'⟩ := hnotes.note hwf hat
    obtain ⟨labels1, hlabels1, hrefers⟩ := refers_note search hT hlabels
    have hbit : qpkeyBit search (branchKeyOffset index) = branchKeybit index search := rfl
    have hbound := hrefers.length_eq.trans_le (hnotes'.length_le.trans hcount)
    rw [ancestorLoop, hcell]
    dsimp only
    rw [hlabels1, insist_pos hbound, hbit]
    by_cases hb : branchKeybit index search ∈ twigBits index
    · obtain ⟨n, labels', x, L', hrun, hx, hdown, hrefers'⟩ := ancestorLoop_spec hk hcount (hT.kid _ hb) (hfits _ hb)
        (hwf.kid hb) hnotes' (fun z hz => hat' z (Tree.mem_branch hb hz)) hrefers
      rw [if_pos ((hasTwig_iff hk index).mpr hb)]
      exact ⟨n, labels', x, L', hrun, hx, .follow hb hdown, hrefers'⟩
    · rw [if_neg (fun h => hb ((hasTwig_iff hk index).mp h))]
      rcases hnote : Tree.note search index kids L with _ | ⟨⟨o, y⟩, rest⟩
      · rw [hnote] at hrefers
        cases hrefers
        obtain ⟨b, hany, hp⟩ := exists_pos hpos
        have hkid := hT.kid b hany
        rw [hp] at hkid
        obtain ⟨n, labels', x, L', hrun, hx, hdown, hrefers'⟩ := ancestorLoop_spec hk hcount hkid (hfits _ hany)
          (hwf.kid hany) .nil (fun z _ => .nil) .nil
        exact ⟨n, labels', x, L', hrun, hx, .stray hb hnote hany hdown, hrefers'⟩
      · rw [hnote] at hrefers
        obtain ⟨⟨o', ref⟩, rest', ⟨ho, hy⟩, hrest, rfl⟩ := forall₂_cons_right_iff.mp hrefers
        exact ⟨ref, _, y, (o, y) :: rest, rfl, hy, .stop hb hnote, hrefers⟩

theorem lastLabel_spec {labels : List (Nat × Nat)} {L : List (Nat × Leaf)} (h : Forall₂ (Refers v) labels L) (d : Nat) :
    match L.find? (·.1 < d) with
    | none => lastLabel d labels = none
    | some p => ∃ ref, lastLabel d labels = some ref ∧ v ref = .leaf p.2 := by
  induction h with
  | nil => rfl
  | @cons p q labels L hpq _ ih =>
    rw [find?_cons, lastLabel, hpq.1]
    by_cases hlt : q.1 < d
    · simp only [hlt, decide_true, if_true]
      exact ⟨p.2, rfl, hpq.2⟩
    · simpa [hlt] using ih

/-- The result that belongs to a leaf. -/
def resultOf (noexact : Bool) : Option (Bool × Leaf) → FindResult × Option Leaf
  | none => (.notfound, none)
  | some (exact, l) => (if exact = true ∧ noexact = false then .success else .partialmatch, some l)

/-- The key that `dns_qp_findname_ancestor` searches for. -/
def searchKey (name : Name) (noexact : Bool) : Key :=
  let key := qpkeyFromname name
  if noexact then key.take (qpkeyTrimLabel key key.length) else key

theorem findnameAncestor_spec {t : Tree} {root : Nat} {F : Multiset Nat} (name : Name) (noexact : Bool)
    (hk : KeyOk (searchKey name noexact)) (hcount : countLabels true (searchKey name noexact) ≤ NAME_MAXLABELS)
    (hrep : Rep v (rootTree t) (.branch movableRoot root) F) (hwf : t.WF makekey 0) :
    ∃ x L, Descends (searchKey name noexact) t [] x L ∧
      findnameAncestor makekey v (some root) name noexact =
        .ok (resultOf noexact (decideAncestor makekey (searchKey name noexact) x L)) := by
  obtain ⟨G, -, hrept⟩ := rep_rootTree.mp hrep
  obtain ⟨n, labels, x, L, hrun, hx, hdown, hrefers⟩ := ancestorLoop_spec hk hcount hrept
    (hwf.fits (n := QP_MAXKEY + 1) (by omega)) hwf .nil (fun z _ => .nil) Forall₂.nil
  refine ⟨x, L, hdown, ?_⟩
  have hleaf : ∀ {n : Nat} {x : Leaf}, v n = .leaf x → leafAt v n = .ok x := fun hx => by
    unfold leafAt
    rw [hx]
  unfold findnameAncestor
  dsimp only
  rw [show (if noexact = true then (qpkeyFromname name).take (qpkeyTrimLabel (qpkeyFromname name) (qpkeyFromname name).length)
    else qpkeyFromname name) = searchKey name noexact from rfl, show State.maxDepth = QP_MAXKEY + 1 + 1 from rfl, hrun]
  simp only [bind, Except.bind, hleaf hx]
  unfold decideAncestor
  rcases qpkeyCompare (searchKey name noexact) (makekey x) with _ | d
  · cases noexact <;> rfl
  · dsimp only
    by_cases hd : d = (makekey x).length
    · rw [if_pos hd, if_pos hd]
      rfl
    · rw [if_neg hd, if_neg hd]
      have hlast := lastLabel_spec hrefers d
      rcases hfind : L.find? (·.1 < d) with _ | p
      · rw [hfind] at hlast ⊢
        rw [hlast]
        rfl
      · rw [hfind] at hlast ⊢
        obtain ⟨ref, href, hp⟩ := hlast
        simp only [href, hleaf hp]
        rfl

end

end OqsBind.Dns.Qp
