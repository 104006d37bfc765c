import OqsBind.Theorems.RadixTree

/-! Insertion into radix trees. The place of a new prefix is found by a walk down and up again (`Spot`); what is put there
    keeps the tree well formed and changes the table at the bits of that prefix only. -/

namespace OqsBind.Isc.Radix
open List Radix.Frame

/-! ### Frames -/

/-- `NodeOk`, seen from one of the sides. -/
structure FrameOk (f : Frame) (t : Tree) : Prop where
  pfx : ∀ p, f.node.pfx = some p → p.Ok ∧ p.bitlen = f.node.bit
  glue : f.node.pfx = none → t ≠ .nil ∧ f.other ≠ .nil ∧ f.node.slots = Slots.empty
  after : t.after f.node.bit
  after_other : f.other.after f.node.bit
  agree : ∀ e ∈ walk (f.plug t), ∀ e' ∈ walk (f.plug t), Agree e.1.add e'.1.add f.node.bit
  side : ∀ e ∈ walk t, goesRight e.1.add f.node.bit = f.right
  side_other : ∀ e ∈ walk f.other, goesRight e.1.add f.node.bit = !f.right

variable {f : Frame} {t : Tree}

theorem wf_plug : WF (f.plug t) ↔ FrameOk f t ∧ WF f.other ∧ WF t := by
  obtain ⟨n, right, other⟩ := f
  cases right with
  | true =>
    constructor
    · rintro ⟨h, hl, hr⟩
      refine ⟨⟨h.pfx, fun hp => ?_, h.after_right, h.after_left, h.agree, h.right, h.left⟩, hl, hr⟩
      obtain ⟨hl, hr, hs⟩ := h.glue hp
      exact ⟨hr, hl, hs⟩
    · rintro ⟨h, hl, hr⟩
      refine ⟨⟨h.pfx, fun hp => ?_, h.after_other, h.after, h.agree, h.side_other, h.side⟩, hl, hr⟩
      obtain ⟨hr, hl, hs⟩ := h.glue hp
      exact ⟨hl, hr, hs⟩
  | false =>
    constructor
    · rintro ⟨h, hl, hr⟩
      exact ⟨⟨h.pfx, h.glue, h.after_left, h.after_right, h.agree, h.left, h.right⟩, hr, hl⟩
    · rintro ⟨h, hr, hl⟩
      exact ⟨⟨h.pfx, h.glue, h.after, h.after_other, h.agree, h.side, h.side_other⟩, hl, hr⟩

variable {e : Prefix × Slots}

theorem mem_walk_plug :
    e ∈ walk (f.plug t) ↔ e ∈ walk t ∨ (f.node.pfx = some e.1 ∧ f.node.slots = e.2) ∨ e ∈ walk f.other := by
  unfold plug
  split <;> rw [mem_walk_node] <;> tauto

theorem after_plug {b : Nat} : (f.plug t).after b ↔ b < f.node.bit := by
  unfold plug
  split <;> rfl

theorem plug_ne_nil (f : Frame) (t : Tree) : f.plug t ≠ .nil := by
  unfold plug
  split <;> simp

/-! ### Paths -/

variable {path : List Frame}

theorem wf_of_path (h : WF (path.foldl plug t)) : WF t := by
  induction path generalizing t with
  | nil => exact h
  | cons f path ih => exact (wf_plug.mp (ih h)).2.2

theorem after_of_mem_path (h : WF (path.foldl plug t)) (ht : t ≠ .nil) (hf : f ∈ path) : t.after f.node.bit := by
  induction path generalizing t with
  | nil => simp at hf
  | cons g path ih =>
    have hg : t.after g.node.bit := (wf_plug.mp (wf_of_path h)).1.after
    rcases mem_cons.mp hf with rfl | hf
    · exact hg
    · have hlt : f.node.bit < g.node.bit := after_plug.mp (ih h (plug_ne_nil g t) hf)
      cases t with
      | nil => trivial
      | node n l r => exact lt_trans hlt hg

theorem mem_walk_path : e ∈ walk (path.foldl plug t) ↔
      e ∈ walk t ∨ ∃ f ∈ path, (f.node.pfx = some e.1 ∧ f.node.slots = e.2) ∨ e ∈ walk f.other := by
  induction path generalizing t with
  | nil => simp
  | cons f path ih =>
    rw [foldl_cons, ih, mem_walk_plug]
    simp only [mem_cons, exists_eq_or_imp, or_assoc]

variable {t' : Tree} {d : Nat}

/-- Another tree at the end of a path keeps the tree well formed, if its prefixes agree with those that were there on
    the bits that the path looks at. -/
theorem wf_replace (h : WF (path.foldl plug t)) (ht' : WF t')
    (hnil : t' ≠ .nil) (hpath : ∀ f ∈ path, f.node.bit < d) (hafter : ∀ f ∈ path, t'.after f.node.bit)
    (hagree : ∀ e ∈ walk t', ∃ e' ∈ walk t, Agree e.1.add e'.1.add d) : WF (path.foldl plug t') := by
  induction path generalizing t t' with
  | nil => exact ht'
  | cons f path ih =>
    have hd := hpath f mem_cons_self
    obtain ⟨hf, hother, -⟩ := wf_plug.mp (wf_of_path h)
    have hagree' : ∀ e ∈ walk (f.plug t'), ∃ e' ∈ walk (f.plug t), Agree e.1.add e'.1.add d := by
      intro e he
      rcases mem_walk_plug.mp he with he | he
      · obtain ⟨e', he', hee'⟩ := hagree e he
        exact ⟨e', mem_walk_plug.mpr (.inl he'), hee'⟩
      · exact ⟨e, mem_walk_plug.mpr (.inr he), Agree.refl _ _⟩
    have hf' : FrameOk f t' :=
      { pfx := hf.pfx
        glue := fun hp => ⟨hnil, (hf.glue hp).2⟩
        after := hafter f mem_cons_self
        after_other := hf.after_other
        side_other := hf.side_other
        agree := fun a ha b hb => by
          obtain ⟨a', ha', haa'⟩ := hagree' a ha
          obtain ⟨b', hb', hbb'⟩ := hagree' b hb
          exact ((haa'.mono hd.le).trans (hf.agree a' ha' b' hb')).trans (hbb'.mono hd.le).symm
        side := fun e he => by
          obtain ⟨e', he', hee'⟩ := hagree e he
          rw [hee'.goesRight hd, hf.side e' he'] }
    refine ih h (wf_plug.mpr ⟨hf', hother, ht'⟩) (plug_ne_nil f t') (fun g hg => hpath g (mem_cons_of_mem _ hg))
      (fun g hg => ?_) hagree'
    have hlt : (f.plug t).after g.node.bit := after_of_mem_path (t := f.plug t) h (plug_ne_nil f t) hg
    exact after_plug.mpr (after_plug.mp hlt)

/-! ### The walk down -/

/-- The child on one side. -/
def Focus.child (z : Focus) (right : Bool) : Tree := if right then z.r else z.l

theorem descend_spec {addr : Bytes} (bitlen : Nat) (path : List Frame) (hwf : WF t) (ht : t ≠ .nil)
    (hpath : ∀ f ∈ path, f.right = goesRight addr f.node.bit) :
    ∃ z q, descend addr bitlen t path = some z ∧ z.node.pfx = some q ∧ z.tree = path.foldl plug t ∧
      (∀ f ∈ z.path, f.right = goesRight addr f.node.bit) ∧
      (z.node.bit < bitlen → z.child (goesRight addr z.node.bit) = .nil) := by
  induction t generalizing path with
  | nil => exact absurd rfl ht
  | node n l r ihl ihr =>
    obtain ⟨hn, hl, hr⟩ := hwf
    unfold descend
    by_cases hgo : n.bit < bitlen ∨ n.pfx = none
    swap
    · obtain ⟨hbit, hpfx⟩ := not_or.mp hgo
      obtain ⟨q, hq⟩ := Option.ne_none_iff_exists'.mp hpfx
      rw [if_neg hgo]
      exact ⟨⟨n, l, r, path⟩, q, rfl, hq, rfl, hpath, fun h => absurd h hbit⟩
    rw [if_pos hgo]
    cases hright : goesRight addr n.bit with
    | true =>
      by_cases hnil : r = .nil
      · obtain ⟨q, hq⟩ := Option.ne_none_iff_exists'.mp fun hp => (hn.glue hp).2.1 hnil
        subst hnil
        exact ⟨⟨n, l, .nil, path⟩, q, rfl, hq, rfl, hpath, fun _ => by simp [Focus.child, hright]⟩
      · obtain ⟨z, q, hz, hrest⟩ := ihr (⟨n, true, l⟩ :: path) hr hnil (by simpa [hright] using hpath)
        rw [hz]
        exact ⟨z, q, rfl, hrest⟩
    | false =>
      by_cases hnil : l = .nil
      · obtain ⟨q, hq⟩ := Option.ne_none_iff_exists'.mp fun hp => (hn.glue hp).1 hnil
        subst hnil
        exact ⟨⟨n, .nil, r, path⟩, q, rfl, hq, rfl, hpath, fun _ => by simp [Focus.child, hright]⟩
      · obtain ⟨z, q, hz, hrest⟩ := ihl (⟨n, false, r⟩ :: path) hl hnil (by simpa [hright] using hpath)
        rw [hz]
        exact ⟨z, q, rfl, hrest⟩

/-! ### The walk up -/

/-- Where the walk up ends: at its start, or at a node of the path. -/
structure Climbed (d : Nat) (z z' : Focus) : Prop where
  tree : z'.tree = z.tree
  mem : ∀ e ∈ walk (.node z.node z.l z.r), e ∈ walk (.node z'.node z'.l z'.r)
  head : ∀ f ∈ z'.path.head?, f.node.bit < d
  start : z' = z ∨ ∃ f ∈ z.path, z'.node = f.node ∧ d ≤ f.node.bit ∧
    ∀ e ∈ walk (.node z.node z.l z.r), goesRight e.1.add f.node.bit = f.right

theorem climb_spec {n : Node} {l r : Tree}
    (hwf : WF (path.foldl plug (.node n l r))) : Climbed d ⟨n, l, r, path⟩ (climb d n l r path) := by
  induction path generalizing n l r with
  | nil => exact ⟨rfl, fun _ h => h, by simp [climb], .inl rfl⟩
  | cons f path ih =>
    unfold climb
    by_cases hd : d ≤ f.node.bit
    swap
    · rw [if_neg hd]
      exact ⟨rfl, fun _ h => h, by simpa using hd, .inl rfl⟩
    rw [if_pos hd]
    obtain ⟨hf, -⟩ := wf_plug.mp (wf_of_path hwf)
    -- one step up, on either side, and then the rest of the walk
    have hstep : ∀ l' r', f.plug (.node n l r) = .node f.node l' r' →
        Climbed d ⟨n, l, r, f :: path⟩ (climb d f.node l' r' path) := by
      intro l' r' hplug
      have hup := ih (n := f.node) (l := l') (r := r') (by rw [← hplug]; exact hwf)
      have hmem : ∀ e ∈ walk (.node n l r), e ∈ walk (.node f.node l' r') := fun e he =>
        hplug ▸ mem_walk_plug.mpr (.inl he)
      refine ⟨?_, fun e he => hup.mem e (hmem e he), hup.head, .inr ?_⟩
      · rw [hup.tree, Focus.tree, ← hplug]
        rfl
      · rcases hup.start with heq | ⟨g, hg, hnode, hgd, hside⟩
        · exact ⟨f, mem_cons_self, by rw [heq], hd, hf.side⟩
        · exact ⟨g, mem_cons_of_mem _ hg, hnode, hgd, fun e he => hside e (hmem e he)⟩
    split
    · exact hstep _ _ (by simp [plug, *])
    · exact hstep _ _ (by simp [plug, *])

/-! ### The place of a prefix -/

/-- The node where a prefix belongs: `d` bits of the prefix are those of the node, and the next one is not. -/
structure Spot (p q : Prefix) (d : Nat) (t : Tree) (z : Focus) : Prop where
  tree : z.tree = t
  mem : ∃ s, (q, s) ∈ walk (.node z.node z.l z.r)
  agree : Agree p.add q.add d
  le_bitlen : d ≤ p.bitlen
  le_bit : d ≤ z.node.bit
  path : ∀ f ∈ z.path, f.node.bit < d
  differ : d < z.node.bit → d < p.bitlen → goesRight q.add d = !goesRight p.add d
  free : z.node.bit = d → d < p.bitlen → z.child (goesRight p.add d) = .nil

theorem goesRight_differ {a b : Bytes} {i : Nat} (hi : i < MAXBITS) (h : bitTest a i ≠ bitTest b i) :
    goesRight b i = !goesRight a i := by
  simp only [goesRight, decide_eq_true hi, Bool.true_and]
  cases ha : bitTest a i <;> cases hb : bitTest b i <;> simp_all

variable {p : Prefix}

theorem find_spot (hwf : WF t) (ht : t ≠ .nil) (hp : p.Ok) :
    ∃ z q, descend p.add p.bitlen t [] = some z ∧ z.node.pfx = some q ∧
      Spot p q (differBit p.add q.add (min z.node.bit p.bitlen)) t
        (climb (differBit p.add q.add (min z.node.bit p.bitlen)) z.node z.l z.r z.path) := by
  obtain ⟨z, q, hz, hq, htree, hsides, hstop⟩ := descend_spec p.bitlen [] hwf ht (by simp)
  refine ⟨z, q, hz, hq, ?_⟩
  obtain ⟨hagree, hle, hdiffer⟩ := differBit_spec p.add q.add (min z.node.bit p.bitlen)
  generalize differBit p.add q.add (min z.node.bit p.bitlen) = d at hagree hle hdiffer ⊢
  have hwfz : WF (z.path.foldl plug (.node z.node z.l z.r)) := by
    have : WF z.tree := htree ▸ hwf
    exact this
  have hup := climb_spec (d := d) hwfz
  generalize climb d z.node z.l z.r z.path = z' at hup ⊢
  have hbelow : ∀ f ∈ z.path, f.node.bit < z.node.bit := fun f hf => after_of_mem_path hwfz (by simp) hf
  have hmem : (q, z.node.slots) ∈ walk (.node z.node z.l z.r) := mem_walk_node.mpr (.inl ⟨hq, rfl⟩)
  have hd := le_min_iff.mp hle
  have hmax : d < p.bitlen → d < MAXBITS := fun h => lt_of_lt_of_le h hp.bitlen_le
  refine ⟨?_, ⟨_, hup.mem _ hmem⟩, hagree, hd.2, ?_, fun f hf => ?_, fun hbit hlen => ?_, fun hbit hlen => ?_⟩
  · exact hup.tree.trans htree
  · rcases hup.start with rfl | ⟨f, -, hnode, hf, -⟩
    · exact hd.1
    · exact hnode ▸ hf
  · have hwf' : WF (z'.path.foldl plug (.node z'.node z'.l z'.r)) := by
      have : WF z'.tree := hup.tree.trans htree ▸ hwf
      exact this
    have hhead := hup.head
    generalize z'.path = path at hf hwf' hhead
    cases path with
    | nil => simp at hf
    | cons g path =>
      have hg : g.node.bit < d := hhead g rfl
      rcases mem_cons.mp hf with rfl | hf
      · exact hg
      · have hfg := after_of_mem_path (t := g.plug (.node z'.node z'.l z'.r)) hwf' (plug_ne_nil _ _) hf
        exact lt_trans (after_plug.mp hfg) hg
  · refine goesRight_differ (hmax hlen) (hdiffer (lt_min ?_ hlen))
    rcases hup.start with rfl | ⟨f, hf, hnode, -⟩
    · exact hbit
    · exact lt_trans (hnode ▸ hbit) (hbelow f hf)
  · rcases hup.start with rfl | ⟨f, hf, hnode, -, hside⟩
    · exact hbit ▸ hstop (hbit ▸ hlen)
    · -- the prefixes differ at the bit of a node above, where both go to the same side
      have hfd : f.node.bit = d := hnode ▸ hbit
      have hopposite := goesRight_differ (hmax hlen) (hdiffer (lt_min (hfd ▸ hbelow f hf) hlen))
      have hsame : goesRight q.add d = goesRight p.add d := by
        rw [← hfd, hside _ hmem, hsides f hf]
      rw [hsame] at hopposite
      cases hright : goesRight p.add d <;> simp [hright] at hopposite

/-! ### What is put there -/

/-- The table of a tree after the data of a prefix has been set. -/
def Stored (t : Tree) (p : Prefix) (slots : Slots) (t' : Tree) : Prop :=
  WF t' ∧ slotsAt t' = Function.update (slotsAt t) p.key slots

variable {slots : Slots}

theorem slotsAt_update (hwf : WF t) (hwf' : WF t') (hnew : ∃ e ∈ walk t', e.1.key = p.key ∧ e.2 = slots)
    (hmem : ∀ e, e.1.key ≠ p.key → (e ∈ walk t' ↔ e ∈ walk t)) :
    slotsAt t' = Function.update (slotsAt t) p.key slots := by
  funext k
  by_cases hk : k = p.key
  · obtain ⟨e, he, hkey, hslots⟩ := hnew
    rw [hk, Function.update_self, ← hkey, slotsAt_of_mem hwf' he, hslots]
  · rw [Function.update_of_ne hk]
    by_cases hex : ∃ e ∈ walk t, e.1.key = k
    · obtain ⟨e, he, rfl⟩ := hex
      rw [slotsAt_of_mem hwf he, slotsAt_of_mem hwf' ((hmem e hk).mpr he)]
    · rw [slotsAt_of_not_mem fun e he hkey => hex ⟨e, he, hkey⟩, slotsAt_of_not_mem fun e he hkey => hex ⟨e, ?_, hkey⟩]
      exact (hmem e (hkey ▸ hk)).mp he

variable {q : Prefix} {z : Focus}

theorem Spot.wf (h : Spot p q d t z) (hwf : WF t) : WF (.node z.node z.l z.r) := by
  have : WF z.tree := h.tree ▸ hwf
  exact wf_of_path this

theorem Spot.agree_of_mem (h : Spot p q d t z) (hwf : WF t) (he : e.1.key = p.key ∨ e ∈ walk (.node z.node z.l z.r)) : Agree e.1.add q.add d := by
  rcases he with hkey | he
  · obtain ⟨hlen, hagree⟩ := Prefix.key_eq_iff.mp hkey
    exact (hagree.mono (hlen ▸ h.le_bitlen)).trans h.agree
  · obtain ⟨s, hq⟩ := h.mem
    exact ((h.wf hwf).1.agree e he _ hq).mono h.le_bit

theorem Spot.stored (h : Spot p q d t z) (hwf : WF t)
    (ht' : WF t') (hafter : ∀ b < d, t'.after b) (hnew : ∃ e ∈ walk t', e.1.key = p.key ∧ e.2 = slots)
    (hmem : ∀ e, e.1.key ≠ p.key → (e ∈ walk t' ↔ e ∈ walk (.node z.node z.l z.r))) :
    Stored t p slots (z.path.foldl plug t') := by
  have htree : z.path.foldl plug (.node z.node z.l z.r) = t := h.tree
  have hnil : t' ≠ .nil := by
    rintro rfl
    obtain ⟨e, he, -⟩ := hnew
    simp [walk] at he
  obtain ⟨s, hq⟩ := h.mem
  have hwf' : WF (z.path.foldl plug t') := by
    refine wf_replace (d := d) (htree.symm ▸ hwf) ht' hnil h.path (fun f hf => hafter _ (h.path f hf)) fun e he => ?_
    refine ⟨(q, s), hq, h.agree_of_mem hwf ?_⟩
    by_cases hkey : e.1.key = p.key
    · exact .inl hkey
    · exact .inr ((hmem e hkey).mp he)
  refine ⟨hwf', slotsAt_update hwf hwf' ?_ fun e hkey => ?_⟩
  · obtain ⟨e, he, hnew⟩ := hnew
    exact ⟨e, mem_walk_path.mpr (.inl he), hnew⟩
  · rw [← htree, mem_walk_path, mem_walk_path, hmem e hkey]

/-- The tree with other data at the node. -/
def Focus.withSlots (z : Focus) (slots : Slots) : Tree := Focus.tree { z with node := { z.node with slots } }

/-- A node without children. -/
def leaf (p : Prefix) (slots : Slots) : Tree := .node ⟨p.bitlen, some p, slots⟩ .nil .nil

theorem mem_walk_leaf : e ∈ walk (leaf p slots) ↔ e = (p, slots) := by
  simp [leaf, walk]

theorem wf_leaf (hp : p.Ok) (slots : Slots) : WF (leaf p slots) := by
  refine ⟨⟨?_, ?_, trivial, trivial, fun a ha b hb => ?_, ?_, ?_⟩, trivial, trivial⟩
  · rintro q ⟨⟩
    exact ⟨hp, rfl⟩
  · rintro ⟨⟩
  · rw [mem_walk_leaf.mp ha, mem_walk_leaf.mp hb]
    exact Agree.refl _ _
  · simp [walk]
  · simp [walk]

theorem Focus.plug_child (z : Focus) (b : Bool) :
    plug (z.child b) ⟨z.node, b, z.child !b⟩ = .node z.node z.l z.r := by
  cases b <;> rfl

/-- The data of a prefix that the tree did not have has been set. -/
def Added (t : Tree) (p : Prefix) (slots : Slots) (t' : Tree) : Prop :=
  Stored t p slots t' ∧ ∀ e ∈ walk t, e ∈ walk t'

theorem slotsAt_of_added {put : Slots → Tree} (h : ∀ slots, Added t p slots (put slots)) :
    slotsAt t p.key = Slots.empty := by
  refine slotsAt_of_not_mem fun e he hkey => ?_
  have hall : ∀ slots, e.2 = slots := by
    intro slots
    obtain ⟨⟨hwf, htable⟩, hmem⟩ := h slots
    rw [← slotsAt_of_mem hwf (hmem e he), htable, hkey, Function.update_self]
  have hnone := congrFun (hall Slots.empty) .v4
  rw [hall fun _ => ⟨some 0, none⟩] at hnone
  cases hnone

section Place
variable {p q : Prefix} {d : Nat} {t : Tree} {z : Focus} (h : Spot p q d t z) (hwf : WF t) {f : Frame} {c : Tree}
  {slots : Slots} (hmem : ∀ e, e ∈ walk (f.plug c) ↔ e = (p, slots) ∨ e ∈ walk (.node z.node z.l z.r))
include h hwf hmem

theorem Spot.agree_put : ∀ a ∈ walk (f.plug c), ∀ b ∈ walk (f.plug c), Agree a.1.add b.1.add d := by
  have hagree : ∀ e ∈ walk (f.plug c), Agree e.1.add q.add d := fun e he =>
    h.agree_of_mem hwf (((hmem e).mp he).imp_left fun heq => by rw [heq])
  exact fun a ha b hb => (hagree a ha).trans (hagree b hb).symm

theorem Spot.added (hbit : d ≤ f.node.bit) (hput : WF (f.plug c)) :
    Added t p slots (z.path.foldl plug (f.plug c)) := by
  refine ⟨h.stored hwf hput (fun b hb => after_plug.mpr (lt_of_lt_of_le hb hbit))
    ⟨(p, slots), (hmem _).mpr (.inl rfl), rfl, rfl⟩ fun e hkey => ?_, fun e he => ?_⟩
  · rw [hmem]
    exact or_iff_right fun he => hkey (by rw [he])
  · rw [← h.tree, Focus.tree, mem_walk_path] at he
    rw [mem_walk_path, hmem]
    exact he.imp_left .inr

end Place

section Place
variable {p q : Prefix} {d : Nat} {t : Tree} {z : Focus} (h : Spot p q d t z) (hwf : WF t) (hp : p.Ok) (slots : Slots)
include h hwf hp

theorem Spot.below (hbit : z.node.bit = d) (hlen : d < p.bitlen) :
    Added t p slots (z.path.foldl plug
      (plug (leaf p slots) ⟨z.node, goesRight p.add d, z.child !goesRight p.add d⟩)) := by
  have hfocus := h.wf hwf
  rw [← z.plug_child (goesRight p.add d), h.free hbit hlen] at hfocus
  obtain ⟨hf, hother, -⟩ := wf_plug.mp hfocus
  have hmem : ∀ e, e ∈ walk (plug (leaf p slots) ⟨z.node, goesRight p.add d, z.child !goesRight p.add d⟩) ↔
      e = (p, slots) ∨ e ∈ walk (.node z.node z.l z.r) := by
    intro e
    rw [← z.plug_child (goesRight p.add d), h.free hbit hlen, mem_walk_plug, mem_walk_plug, mem_walk_leaf]
    simp [walk]
  refine h.added hwf hmem hbit.ge (wf_plug.mpr ⟨?_, hother, wf_leaf hp slots⟩)
  exact
    { pfx := hf.pfx
      glue := fun hnone => absurd rfl (hf.glue hnone).1
      after := hbit.trans_lt hlen
      after_other := hf.after_other
      agree := hbit ▸ h.agree_put hwf hmem
      side := fun e he => by
        rw [mem_walk_leaf.mp he]
        exact congrArg (goesRight p.add) hbit
      side_other := hf.side_other }

theorem Spot.above (hbit : d < z.node.bit) (hlen : p.bitlen = d) :
    Added t p slots (z.path.foldl plug
      (plug (.node z.node z.l z.r) ⟨⟨p.bitlen, some p, slots⟩, goesRight q.add p.bitlen, .nil⟩)) := by
  have hfocus := h.wf hwf
  have hmem : ∀ e, e ∈ walk (plug (.node z.node z.l z.r)
      ⟨⟨p.bitlen, some p, slots⟩, goesRight q.add p.bitlen, .nil⟩) ↔
      e = (p, slots) ∨ e ∈ walk (.node z.node z.l z.r) := by
    intro e
    rw [mem_walk_plug]
    simp only [Option.some.injEq, walk, not_mem_nil, or_false, Prod.ext_iff]
    rw [or_comm, eq_comm, eq_comm (a := slots)]
  obtain ⟨s, hq⟩ := h.mem
  refine h.added hwf hmem hlen.ge (wf_plug.mpr ⟨?_, trivial, hfocus⟩)
  exact
    { pfx := by
        rintro _ ⟨⟩
        exact ⟨hp, rfl⟩
      glue := by rintro ⟨⟩
      after := hlen.trans_lt hbit
      after_other := trivial
      agree := fun a ha b hb => (h.agree_put hwf hmem a ha b hb).mono hlen.le
      side := fun e he => (hfocus.1.agree e he _ hq).goesRight (hlen.trans_lt hbit)
      side_other := by simp [walk] }

theorem Spot.beside (hbit : d < z.node.bit) (hlen : d < p.bitlen) :
    Added t p slots (z.path.foldl plug
      (plug (leaf p slots) ⟨⟨d, none, Slots.empty⟩, goesRight p.add d, .node z.node z.l z.r⟩)) := by
  have hfocus := h.wf hwf
  have hmem : ∀ e, e ∈ walk (plug (leaf p slots)
      ⟨⟨d, none, Slots.empty⟩, goesRight p.add d, .node z.node z.l z.r⟩) ↔
      e = (p, slots) ∨ e ∈ walk (.node z.node z.l z.r) := by
    intro e
    rw [mem_walk_plug, mem_walk_leaf]
    simp
  obtain ⟨s, hq⟩ := h.mem
  refine h.added hwf hmem le_rfl (wf_plug.mpr ⟨?_, hfocus, wf_leaf hp slots⟩)
  exact
    { pfx := by rintro _ ⟨⟩
      glue := fun _ => ⟨by simp [leaf], by simp, rfl⟩
      after := hlen
      after_other := hbit
      agree := h.agree_put hwf hmem
      side := fun e he => by rw [mem_walk_leaf.mp he]
      side_other := fun e he => ((hfocus.1.agree e he _ hq).goesRight hbit).trans (h.differ hbit hlen) }

theorem Spot.place (hne : ¬(d = p.bitlen ∧ z.node.bit = p.bitlen)) :
    ∃ z', Radix.place p q.add d ⟨p.bitlen, some p, slots⟩ z = .ok z' ∧ z'.node.slots = slots ∧
      ∀ slots', Added t p slots' (z'.withSlots slots') := by
  unfold Radix.place
  by_cases hbit : z.node.bit = d
  · have hlen : d < p.bitlen := lt_of_le_of_ne h.le_bitlen fun heq => hne ⟨heq, hbit.trans heq⟩
    have hfree := h.free hbit hlen
    have hadded := fun slots' => h.below hwf hp slots' hbit hlen
    rw [if_pos hbit, hbit]
    cases hright : goesRight p.add d <;> simp only [hright, Focus.child] at hfree hadded
    · simp only [Bool.false_eq_true, if_false] at hfree
      rw [hfree]
      exact ⟨_, rfl, rfl, hadded⟩
    · simp only [if_true] at hfree
      rw [hfree]
      exact ⟨_, rfl, rfl, hadded⟩
  rw [if_neg hbit]
  have hlt : d < z.node.bit := lt_of_le_of_ne h.le_bit (Ne.symm hbit)
  by_cases hlen : p.bitlen = d
  · have hadded := fun slots' => h.above hwf hp slots' hlt hlen
    rw [if_pos hlen]
    cases hright : goesRight q.add p.bitlen <;> simp only [hright] at hadded
    · exact ⟨_, rfl, rfl, hadded⟩
    · exact ⟨_, rfl, rfl, hadded⟩
  · have hadded := fun slots' => h.beside hwf hp slots' hlt (lt_of_le_of_ne h.le_bitlen (Ne.symm hlen))
    rw [if_neg hlen]
    cases hright : goesRight p.add d <;> simp only [hright] at hadded
    · exact ⟨_, rfl, rfl, hadded⟩
    · exact ⟨_, rfl, rfl, hadded⟩

end Place

/-! ### Insertion -/

theorem numberNew_eq (count : Nat) (p : Prefix) (source : Option Slots) :
    numberNew count p source = numberOld count p Slots.empty source := by
  cases source with
  | none =>
    have hsome : p.family = .unspec ∨ Family.v4 = p.radixFamily ∨ Family.v6 = p.radixFamily := by
      cases p.radixFamily <;> simp
    simp only [numberNew, numberOld, Slots.empty, and_true, Prod.mk.injEq, true_and]
    rw [if_pos (by tauto)]
  | some source =>
    simp only [numberNew, numberOld, Slots.empty, Prod.mk.injEq, and_true]
    funext i
    cases (source i).nodeNum <;> rfl

theorem Spot.same {q' : Prefix} (h : Spot p q d t z) (hwf : WF t)
    (hbit : z.node.bit = d) (hok : q'.Ok) (hlen : q'.bitlen = d) (hkey : q'.key = p.key)
    (hold : ∀ q'', z.node.pfx = some q'' → q'' = q') (slots : Slots) :
    Stored t p slots (z.path.foldl plug (.node { z.node with pfx := some q', slots } z.l z.r)) := by
  obtain ⟨hn, hl, hr⟩ := h.wf hwf
  have hmem : ∀ e, e ∈ walk (.node { z.node with pfx := some q', slots } z.l z.r) →
      e.1.key = p.key ∨ e ∈ walk (.node z.node z.l z.r) := by
    intro e he
    rcases mem_walk_node.mp he with ⟨hpfx, -⟩ | he
    · exact .inl (Option.some.inj hpfx ▸ hkey)
    · exact .inr (mem_walk_node.mpr (.inr he))
  refine h.stored hwf ⟨?_, hl, hr⟩ (fun b hb => hb.trans_eq hbit.symm)
    ⟨(q', slots), mem_walk_node.mpr (.inl ⟨rfl, rfl⟩), hkey, rfl⟩ fun e he => ⟨fun hin => ?_, fun hin => ?_⟩
  · exact
      { pfx := by
          rintro _ ⟨⟩
          exact ⟨hok, hlen.trans hbit.symm⟩
        glue := by rintro ⟨⟩
        after_left := hn.after_left
        after_right := hn.after_right
        agree := fun a ha b hb => by
          have ha := h.agree_of_mem hwf (hmem a ha)
          have hb := h.agree_of_mem hwf (hmem b hb)
          exact (ha.trans hb.symm).mono hbit.le
        left := hn.left
        right := hn.right }
  · exact (hmem e hin).resolve_left he
  · rcases mem_walk_node.mp hin with ⟨hpfx, -⟩ | hin
    · exact absurd (hold _ hpfx ▸ hkey) he
    · exact mem_walk_node.mpr (.inr hin)

theorem Spot.fill (h : Spot p q d t z) (hwf : WF t) (hp : p.Ok)
    (hbit : z.node.bit = d) (hlen : p.bitlen = d) (hpfx : z.node.pfx = none) (slots : Slots) :
    Added t p slots (z.path.foldl plug (.node { z.node with pfx := some p, slots } z.l z.r)) := by
  refine ⟨h.same hwf hbit hp hlen rfl (fun q'' hq => by simp [hpfx] at hq) slots, fun e he => ?_⟩
  rw [← h.tree, Focus.tree, mem_walk_path, mem_walk_node] at he
  rw [mem_walk_path, mem_walk_node]
  rcases he with (⟨hpfx', -⟩ | he) | he
  · simp [hpfx] at hpfx'
  · exact .inl (.inr he)
  · exact .inr he

theorem added_leaf (hp : p.Ok) (slots : Slots) : Added .nil p slots (leaf p slots) := by
  refine ⟨⟨wf_leaf hp slots, slotsAt_update (t := .nil) trivial (wf_leaf hp slots) ⟨_, mem_walk_leaf.mpr rfl, rfl, rfl⟩ ?_⟩, ?_⟩
  · intro e hkey
    rw [mem_walk_leaf]
    exact ⟨fun he => absurd (by rw [he]) hkey, fun he => by simp [walk] at he⟩
  · simp [walk]

/-- Insertion sets the data of the prefix: it keeps numbers that are there, and gives the others. -/
theorem insert_spec {radix : RadixTree} (hwf : WF radix.head) (hp : p.Ok) (source : Option Slots) :
    ∃ z, insert radix p source =
        .ok (z, (numberOld radix.numAddedNode p (slotsAt radix.head p.key) source).2) ∧
      z.node.slots = (numberOld radix.numAddedNode p (slotsAt radix.head p.key) source).1 ∧
      ∀ slots, Stored radix.head p slots (z.withSlots slots) := by
  unfold insert
  by_cases hnil : radix.head = .nil
  · have hadded := added_leaf hp
    rw [hnil, slotsAt_of_added hadded, ← numberNew_eq]
    simp only [descend, insist, hp.valid, if_true]
    exact ⟨_, rfl, rfl, fun slots => (hadded slots).1⟩
  obtain ⟨z, q, hz, hq, hspot⟩ := find_spot hwf hnil hp
  rw [hz]
  simp only [hq]
  generalize differBit p.add q.add (min z.node.bit p.bitlen) = d at hspot ⊢
  generalize climb d z.node z.l z.r z.path = z' at hspot ⊢
  by_cases hsame : d = p.bitlen ∧ z'.node.bit = p.bitlen
  · rw [if_pos hsame]
    obtain ⟨hlen, hbit⟩ := hsame
    cases hpfx : z'.node.pfx with
    | some q' =>
      have hmem : (q', z'.node.slots) ∈ walk (.node z'.node z'.l z'.r) := mem_walk_node.mpr (.inl ⟨hpfx, rfl⟩)
      obtain ⟨hok, hlen'⟩ := (hspot.wf hwf).1.pfx q' hpfx
      have hkey : q'.key = p.key := by
        refine Prefix.key_eq_iff.mpr ⟨hlen'.trans hbit, ?_⟩
        have hagree := (hspot.agree_of_mem hwf (.inr hmem)).trans hspot.agree.symm
        exact hagree.mono (by omega)
      have hslots : slotsAt radix.head p.key = z'.node.slots := by
        rw [← hkey]
        refine slotsAt_of_mem (e := (q', z'.node.slots)) hwf ?_
        rw [← hspot.tree]
        exact mem_walk_path.mpr (.inl hmem)
      rw [hslots]
      refine ⟨_, rfl, rfl, fun slots => ?_⟩
      exact hspot.same hwf (hbit.trans hlen.symm) hok (hlen'.trans (hbit.trans hlen.symm)) hkey
        (fun q'' hq'' => Option.some.inj (hq''.symm.trans hpfx)) slots
    | none =>
      have hadded := hspot.fill hwf hp (hbit.trans hlen.symm) hlen.symm hpfx
      rw [slotsAt_of_added hadded, ← numberNew_eq, ((hspot.wf hwf).1.glue hpfx).2.2]
      simp only [insist, hp.valid, Slots.empty, and_self, decide_true, if_true]
      exact ⟨_, rfl, rfl, fun slots => (hadded slots).1⟩
  · simp only [hsame, if_false]
    obtain ⟨z'', hplace, hslots, hadded⟩ := hspot.place hwf hp (numberNew radix.numAddedNode p source).1 hsame
    rw [slotsAt_of_added hadded, ← numberNew_eq]
    simp only [insist, hp.valid, if_true]
    refine ⟨z'', ?_, hslots, fun slots => (hadded slots).1⟩
    simp only [bind, Except.bind, hplace, pure, Except.pure]

end OqsBind.Isc.Radix
