import OqsBind.Dns.QpIter
import OqsBind.Theorems.QpMap

/-! The iterator gives the leaves of a trie in the order of their keys. What it has still to give is the trees at the cells
    that its frames have not passed: from its reference on in the top frame, after it in those below. -/

namespace OqsBind.Dns.Qp
open List

/-- The positions of a branch in increasing order. -/
def sortedBits (index : BitVec 64) : List Nat := (twigBits index).sort (· ≤ ·)

theorem mem_sortedBits {index : BitVec 64} {b : Nat} : b ∈ sortedBits index ↔ b ∈ twigBits index := Finset.mem_sort _

theorem sortedBits_lt (index : BitVec 64) : (sortedBits index).Pairwise (· < ·) := (twigBits index).sortedLT_sort.pairwise

theorem sortedBits_length (index : BitVec 64) : (sortedBits index).length = branchTwigsSize index := by
  rw [sortedBits, Finset.length_sort, branchTwigsSize_eq]

theorem sortedBits_pos (index : BitVec 64) :
    (sortedBits index).map (branchTwigPos index) = range (branchTwigsSize index) := by
  have hlt : ((sortedBits index).map (branchTwigPos index)).Pairwise (· < ·) := by
    rw [pairwise_map]
    exact (sortedBits_lt index).imp_of_mem fun ha hb => pos_lt_pos (mem_sortedBits.mp ha) (mem_sortedBits.mp hb)
  have hanti : ∀ a b : Nat, a ∈ (sortedBits index).map (branchTwigPos index) → b ∈ range (branchTwigsSize index) →
      a < b → b < a → a = b := fun a b _ _ hab hba => absurd hab (Nat.lt_asymm hba)
  refine Perm.eq_of_pairwise hanti hlt pairwise_lt_range ?_
  refine (perm_ext_iff_of_nodup (hlt.imp Nat.ne_of_lt) nodup_range).mpr fun j => ?_
  rw [mem_map, mem_range]
  constructor
  · rintro ⟨b, hb, rfl⟩
    exact pos_lt_size (mem_sortedBits.mp hb)
  · intro hj
    obtain ⟨b, hb, hpos⟩ := exists_pos hj
    exact ⟨b, mem_sortedBits.mpr hb, hpos⟩

namespace Tree

def inorder : Tree → List Leaf
  | leaf l => [l]
  | branch index kids => (sortedBits index).flatMap fun b => (kids b).inorder

variable {makekey : Leaf → Key} {l : Leaf}

theorem mem_inorder : ∀ {t : Tree}, l ∈ t.inorder ↔ l ∈ t.leaves
  | leaf l' => by simp [inorder, leaves]
  | branch index kids => by
    rw [inorder, mem_flatMap, mem_leaves_branch]
    refine exists_congr fun b => and_congr mem_sortedBits mem_inorder

theorem keyOrder_of_bit {a b : Key} {o : Nat} (hagree : ∀ j < o, qpkeyBit a j = qpkeyBit b j)
    (hlt : qpkeyBit a o < qpkeyBit b o) : keyOrder a b = .lt := by
  rw [keyOrder, qpkeyCompare_eq_some.mpr ⟨Nat.ne_of_lt hlt, hagree⟩]
  exact Nat.compare_eq_lt.mpr hlt

theorem WF.inorder_lt : ∀ {t : Tree} {lo : Nat}, WF makekey lo t →
    t.inorder.Pairwise fun a b => keyOrder (makekey a) (makekey b) = .lt
  | leaf l, _, _ => pairwise_singleton ..
  | branch index kids, _, h => by
    obtain ⟨-, -, -, hbits, hall, hkids⟩ := h
    rw [inorder, pairwise_flatMap]
    refine ⟨fun b hb => (hkids b (mem_sortedBits.mp hb)).inorder_lt, (sortedBits_lt index).imp_of_mem ?_⟩
    intro b b' hb hb' hlt l hl l' hl'
    have hb := mem_sortedBits.mp hb
    have hb' := mem_sortedBits.mp hb'
    have hl := mem_inorder.mp hl
    have hl' := mem_inorder.mp hl'
    refine keyOrder_of_bit (hall l (mem_branch hb hl) l' (mem_branch hb' hl')) ?_
    rw [hbits b hb l hl, hbits b' hb' l' hl']
    exact hlt

theorem WF.offset_lt {index : BitVec 64} {kids : Nat → Tree} {lo : Nat} (hkeys : ∀ l, KeyOk (makekey l))
    (h : WF makekey lo (branch index kids)) : branchKeyOffset index + 1 < QP_MAXKEY := by
  obtain ⟨-, -, hcard, hbits, -, hkids⟩ := h
  obtain ⟨b, hb, b', hb', hne⟩ := Finset.one_lt_card.mp hcard
  obtain ⟨l, hl⟩ := (hkids b hb).exists_leaf
  obtain ⟨l', hl'⟩ := (hkids b' hb').exists_leaf
  by_contra hbig
  have hend : ∀ l, qpkeyBit (makekey l) (branchKeyOffset index) = SHIFT_NOBYTE := fun l => by
    have hlength := (hkeys l).length
    exact qpkeyBit_end (by omega)
  exact hne ((hbits b hb l hl).symm.trans ((hend l).trans ((hend l').symm.trans (hbits b' hb' l' hl'))))

end Tree

section
variable {makekey : Leaf → Key} {v : Nat → Node} {t : Tree} {ts : List Tree} {tss : List (List Tree)} {l : Leaf}
  {frame : Frame} {frames : List Frame} {ref lo : Nat}

/-- The trees at successive cells. -/
def Row (v : Nat → Node) : Nat → List Tree → Prop
  | _, [] => True
  | ref, t :: ts => (∃ F, Rep v t (v ref) F) ∧ Row v (ref + 1) ts

theorem row_map {kids : Nat → Tree} {pos : Nat → Nat} {twigs : Nat} : ∀ {bs : List Nat} {ref : Nat},
    bs.map (fun b => twigs + pos b) = (range bs.length).map (ref + ·) →
    (∀ b ∈ bs, ∃ F, Rep v (kids b) (v (twigs + pos b)) F) → Row v ref (bs.map kids)
  | [], _, _, _ => trivial
  | b :: bs, ref, hpos, hrep => by
    rw [map_cons, length_cons, range_succ_eq_map, map_cons, cons.injEq, map_map] at hpos
    refine ⟨?_, row_map ?_ fun b' hb' => hrep b' (.tail _ hb')⟩
    · have hcell := hrep b (.head _)
      rwa [hpos.1] at hcell
    · rw [hpos.2]
      refine map_congr_left fun j _ => ?_
      simp
      omega

theorem row_twigs {index : BitVec 64} {kids : Nat → Tree} {n : Node} {F : Multiset Nat}
    (h : Rep v (.branch index kids) n F) :
    ∃ twigs, n = .branch index twigs ∧ Row v twigs ((sortedBits index).map kids) := by
  obtain ⟨twigs, G, hn, -, -, hkids⟩ := h
  refine ⟨twigs, hn, row_map ?_ fun b hb => ⟨G b, hkids b (mem_sortedBits.mp hb)⟩⟩
  have hpos := congrArg (map (twigs + ·)) (sortedBits_pos index)
  rw [map_map] at hpos
  rw [sortedBits_length]
  exact hpos

/-- Trees deep enough for their level of the stack. -/
def Deep (makekey : Leaf → Key) (level : Nat) (ts : List Tree) : Prop :=
  ∀ t ∈ ts, ∃ lo, level ≤ lo ∧ lo ≤ QP_MAXKEY ∧ t.WF makekey lo

/-- What frames have still to give whose own trees have been begun. -/
def Ahead (makekey : Leaf → Key) (v : Nat → Node) : List Frame → List (List Tree) → Prop
  | [], [] => True
  | frame :: frames, ts :: tss => (∃ ref, frame.ref = some ref ∧ frame.more = ts.length ∧ Row v (ref + 1) ts) ∧
      Deep makekey frames.length ts ∧ Ahead makekey v frames tss
  | _, _ => False

/-- The iterator stands before the leaves of these trees. -/
structure Before (makekey : Leaf → Key) (v : Nat → Node) (it : Iter) (t : Tree) (ts : List Tree) (tss : List (List Tree)) :
    Prop where
  here : ∃ ref, it.top.ref = some ref ∧ (∃ F, Rep v t (v ref) F) ∧ Row v (ref + 1) ts
  more : it.top.more = ts.length
  deep : Deep makekey it.below.length (t :: ts)
  ahead : Ahead makekey v it.below tss

/-- The leaves of some trees, in order. -/
def leavesInOrder (ts : List Tree) : List Leaf := ts.flatMap Tree.inorder

theorem leavesInOrder_cons (t : Tree) (ts : List Tree) : leavesInOrder (t :: ts) = t.inorder ++ leavesInOrder ts :=
  flatMap_cons

theorem leavesInOrder_append (ts ts' : List Tree) :
    leavesInOrder (ts ++ ts') = leavesInOrder ts ++ leavesInOrder ts' := flatMap_append

theorem push_spec (hkeys : ∀ l, KeyOk (makekey l)) : ∀ {t : Tree} {it : Iter} {ts : List Tree} {tss : List (List Tree)}
    {fuel lo : Nat}, Before makekey v it t ts tss → it.below.length ≤ lo → lo ≤ QP_MAXKEY → t.WF makekey lo →
    QP_MAXKEY < fuel + lo →
    ∃ l it' ts' tss', it.push v fuel = .ok (l, it') ∧ Ahead makekey v (it'.top :: it'.below) (ts' :: tss') ∧
      leavesInOrder (t :: ts) ++ leavesInOrder tss.flatten = l :: leavesInOrder (ts' ++ tss'.flatten)
  | .leaf l, it, ts, tss, fuel, lo, h, _, hlo, _, hfuel => by
    obtain ⟨ref, href, ⟨F, hrep⟩, hrow⟩ := h.here
    obtain ⟨fuel, rfl⟩ : ∃ n, fuel = n + 1 := ⟨fuel - 1, by omega⟩
    refine ⟨l, it, ts, tss, ?_, ⟨⟨ref, href, h.more, hrow⟩, fun t ht => h.deep t (.tail _ ht), h.ahead⟩, ?_⟩
    · rw [Iter.push, href]
      simp only [hrep.1]
    · rw [leavesInOrder_append]
      rfl
  | .branch index kids, it, ts, tss, fuel, lo, h, hlevel, hlo, hwf, hfuel => by
    obtain ⟨ref, href, ⟨F, hrep⟩, hrow⟩ := h.here
    obtain ⟨twigs, hcell, htwigs⟩ := row_twigs hrep
    have hoffset := hwf.offset_lt hkeys
    obtain ⟨hle, -, hcard, -, -, hkids⟩ := hwf
    obtain ⟨fuel, rfl⟩ : ∃ n, fuel = n + 1 := ⟨fuel - 1, by omega⟩
    -- the twigs of the branch are the new top frame
    obtain ⟨b, bs, hbits⟩ : ∃ b bs, sortedBits index = b :: bs := by
      refine exists_cons_of_length_pos ?_
      rw [sortedBits_length, branchTwigsSize_eq]
      omega
    have hb : b ∈ twigBits index := mem_sortedBits.mp (hbits ▸ .head _)
    have hsize : branchTwigsSize index - 1 = (bs.map kids).length := by
      rw [← sortedBits_length, hbits]
      simp
    rw [hbits] at htwigs
    have hbefore : Before makekey v ⟨⟨some twigs, branchTwigsSize index - 1⟩, it.top :: it.below⟩ (kids b) (bs.map kids)
        (ts :: tss) := by
      refine ⟨⟨twigs, rfl, htwigs.1, htwigs.2⟩, hsize, fun t ht => ?_, ⟨⟨ref, href, h.more, hrow⟩,
        fun t ht => h.deep t (.tail _ ht), h.ahead⟩⟩
      obtain ⟨b', hb', rfl⟩ := mem_map.mp (map_cons ▸ ht : t ∈ (b :: bs).map kids)
      refine ⟨branchKeyOffset index + 1, ?_, by omega, hkids b' (mem_sortedBits.mp (hbits ▸ hb'))⟩
      simp
      omega
    obtain ⟨l, it', ts', tss', hpush, hahead, hleaves⟩ := push_spec hkeys hbefore
      (by simp only [length_cons]; omega) (by omega) (hkids b hb)
      (show QP_MAXKEY < fuel + (branchKeyOffset index + 1) by omega)
    refine ⟨l, it', ts', tss', ?_, hahead, ?_⟩
    · rw [Iter.push, href]
      simp only [hcell]
      rw [insist, if_pos (by simp only [Iter.sp, length_cons]; omega)]
      exact hpush
    · rw [← hleaves, leavesInOrder_cons, Tree.inorder, hbits, flatten_cons, leavesInOrder_append]
      simp only [leavesInOrder, flatMap_cons, flatMap_map, append_assoc]

/-- The iterator after the last leaf. -/
def Ended (it : Iter) : Prop := it.top.ref = none ∧ it.below = []

theorem across_spec : ∀ {frames : List Frame} {frame : Frame} {ts : List Tree} {tss : List (List Tree)},
    Ahead makekey v (frame :: frames) (ts :: tss) → ∃ it, (Iter.pop frame frames).across = .ok it ∧
      ((leavesInOrder (ts ++ tss.flatten) = [] ∧ Ended it) ∨
        ∃ t ts' tss', Before makekey v it t ts' tss' ∧
          leavesInOrder (ts ++ tss.flatten) = leavesInOrder (t :: ts') ++ leavesInOrder tss'.flatten)
  | frames, frame, t :: ts, tss, h => by
    obtain ⟨⟨ref, href, hmore, hrow⟩, hdeep, hahead⟩ := h
    have hpop : Iter.pop frame frames = ⟨frame, frames⟩ := by
      cases frames with
      | nil => rfl
      | cons f fs => rw [Iter.pop, if_neg (by rw [hmore]; simp)]
    refine ⟨⟨⟨some (ref + 1), frame.more - 1⟩, frames⟩, ?_, .inr ⟨t, ts, tss, ⟨⟨ref + 1, rfl, hrow.1, hrow.2⟩, ?_, hdeep,
      hahead⟩, ?_⟩⟩
    · rw [hpop, Iter.across, if_pos (by simp [hmore]), href]
      rfl
    · simp [hmore]
    · rw [leavesInOrder_append]
  | [], frame, [], tss, h => by
    obtain ⟨⟨ref, href, hmore, -⟩, -, hahead⟩ := h
    cases tss with
    | cons _ _ => exact hahead.elim
    | nil =>
      refine ⟨⟨{ frame with ref := none }, []⟩, ?_, .inl ⟨rfl, rfl, rfl⟩⟩
      rw [Iter.pop, Iter.across, if_neg (by simp [hmore])]
      rfl
  | f :: frames, frame, [], tss, h => by
    obtain ⟨⟨ref, href, hmore, -⟩, -, hahead⟩ := h
    cases tss with
    | nil => exact hahead.elim
    | cons ts' tss =>
      rw [Iter.pop, if_pos (by simp [hmore]), nil_append]
      exact across_spec hahead

theorem next_spec (hkeys : ∀ l, KeyOk (makekey l)) {it : Iter} (h : Before makekey v it t ts tss) :
    ∃ l it', it.next v = .ok (some l, it') ∧
      ((leavesInOrder (t :: ts) ++ leavesInOrder tss.flatten = [l] ∧ Ended it') ∨
        ∃ t' ts' tss', Before makekey v it' t' ts' tss' ∧ leavesInOrder (t :: ts) ++ leavesInOrder tss.flatten =
          l :: (leavesInOrder (t' :: ts') ++ leavesInOrder tss'.flatten)) := by
  obtain ⟨lo, hlevel, hlo, hwf⟩ := h.deep t (.head _)
  obtain ⟨l, it', ts', tss', hpush, hahead, hleaves⟩ := push_spec hkeys h hlevel hlo hwf
    (show QP_MAXKEY < State.maxDepth + lo by simp only [State.maxDepth]; omega)
  obtain ⟨it'', hacross, hnext⟩ := across_spec hahead
  obtain ⟨ref, href, -⟩ := h.here
  refine ⟨l, it'', ?_, ?_⟩
  · rw [Iter.next, href]
    simp only [hpush, bind, Except.bind, hacross, pure, Except.pure]
  · rw [hleaves]
    rcases hnext with ⟨hnil, hended⟩ | ⟨t', ts', tss', hbefore, heq⟩
    · exact .inl ⟨by rw [hnil], hended⟩
    · exact .inr ⟨t', ts', tss', hbefore, by rw [heq]⟩

theorem calls_ended {it : Iter} (h : Ended it) : it.calls v 1 = .ok [none] := by
  obtain ⟨⟨ref, more⟩, below⟩ := it
  obtain ⟨rfl, rfl⟩ := h
  rfl

theorem calls_spec (hkeys : ∀ l, KeyOk (makekey l)) : ∀ {ls : List Leaf} {it : Iter} {t : Tree} {ts : List Tree}
    {tss : List (List Tree)}, Before makekey v it t ts tss →
    leavesInOrder (t :: ts) ++ leavesInOrder tss.flatten = ls → it.calls v (ls.length + 1) = .ok (ls.map some ++ [none])
  | ls, it, t, ts, tss, h, hls => by
    obtain ⟨l, it', hnext, hrest⟩ := next_spec hkeys h
    rcases hrest with ⟨hone, hended⟩ | ⟨t', ts', tss', hbefore, heq⟩
    · rw [← hls, hone, length_singleton, Iter.calls, hnext]
      simp only [bind, Except.bind, calls_ended hended]
      rfl
    · rw [heq] at hls
      cases ls with
      | nil => cases hls
      | cons l' ls =>
        obtain ⟨rfl, hrest⟩ := cons.inj hls
        rw [length_cons, Iter.calls, hnext]
        simp only [bind, Except.bind, calls_spec hkeys hbefore hrest]
        rfl

end

theorem Shows.iterate {κ ι : Type} [DecidableEq ι] {K : Keying κ ι} {itemOf : Leaf → κ} {v : Nat → Node} {root : Option Nat}
    {F : Multiset Nat} {e : Entries ι} (h : Shows K itemOf v root F e) :
    ∃ ls : List Leaf, (Iter.init root).calls v (ls.length + 1) = .ok (ls.map some ++ [none]) ∧
      (∀ l, l ∈ ls ↔ ∃ i, e.lookup i = some l) ∧
      ls.Pairwise fun a b => keyOrder (K.key (itemOf a)) (K.key (itemOf b)) = .lt := by
  obtain ⟨o, hs, hwf, hd⟩ := h
  have hmem : ∀ l, (∃ i, e.lookup i = some l) ↔ l ∈ leavesOf o := fun l => by
    simp [hd.lookup]
  cases o with
  | none =>
    obtain ⟨rfl, -⟩ := hs
    refine ⟨[], calls_ended ⟨rfl, rfl⟩, fun l => ?_, .nil⟩
    rw [hmem]
    simp [leavesOf]
  | some t =>
    obtain ⟨r, rfl, hrep⟩ := hs
    obtain ⟨G, -, hrep⟩ := rep_rootTree.mp hrep
    have hwf := hwf t rfl
    have hbefore : Before (fun l => K.key (itemOf l)) v (Iter.init (some r)) t [] [] := by
      refine ⟨⟨r, rfl, ⟨G, hrep⟩, trivial⟩, rfl, fun t' ht' => ?_, trivial⟩
      rw [mem_singleton.mp ht']
      exact ⟨0, le_rfl, Nat.zero_le _, hwf⟩
    refine ⟨t.inorder, calls_spec (fun l => K.ok (itemOf l)) hbefore (by simp [leavesInOrder]), fun l => ?_, hwf.inorder_lt⟩
    rw [hmem, Tree.mem_inorder]
    rfl

def TrieName.tld (octet : UInt8) : TrieName := ⟨Name.tld octet, Name.nlabels_tld_pos octet⟩

def tldOf (l : Leaf) : TrieName := if l.ival = 0 then TrieName.tld 0x61 else TrieName.tld 0x62

/-- After any calls on a new trie, an iterator gives each leaf once, in the order of the keys, and then ends. For names
    that are all absolute or all relative, this is the order of `dns_name_compare`. -/
theorem iterate_in_order {κ ι : Type} [DecidableEq ι] (K : Keying κ ι) (itemOf : Leaf → κ) (cs : List (Call κ)) :
    (∃ s₀ s, ∃ ls : List Leaf, qpCreate = .ok s₀ ∧ s₀.calls (fun l => K.key (itemOf l)) (cs.map (Call.map K.key)) =
        .ok ((Entries.calls K.ident itemOf ∅ cs).1, s) ∧
      (Iter.init s.rootRef).calls s.cell (ls.length + 1) = .ok (ls.map some ++ [none]) ∧ ls.Nodup ∧
      (∀ l, l ∈ ls ↔ ∃ i, (Entries.calls K.ident itemOf ∅ cs).2.lookup i = some l) ∧
      ls.Pairwise fun a b => keyOrder (K.key (itemOf a)) (K.key (itemOf b)) = .lt) ∧
    ∀ n m : Name, n.absolute = m.absolute →
      (keyOrder (qpkeyFromname n) (qpkeyFromname m) = .lt ↔ n.compare m < 0) := by
  constructor
  · obtain ⟨s₀, s, hs₀, hs, hstores⟩ := qpCreate_calls K itemOf cs
    obtain ⟨F, hshows, -⟩ := hstores.shows_
    obtain ⟨ls, hcalls, hmem, hlt⟩ := hshows.iterate
    refine ⟨s₀, s, ls, hs₀, hs, hcalls, hlt.imp ?_, hmem, hlt⟩
    rintro a b hab rfl
    rw [keyOrder_eq_iff.mpr (qpkeyCompare_eq_none.mpr fun _ => rfl)] at hab
    cases hab
  · intro n m h
    rw [(qpkey_order n m h).1, Int.compare_eq_lt]

/-- Three leaves are inserted, and two of them have one name. -/
theorem iterate_in_order_tlds :
    (∃ s₀ s, ∃ ls : List Leaf, qpCreate = .ok s₀ ∧ (s₀.calls (fun l => Keying.names.key (tldOf l))
        ([⟨2, 1⟩, ⟨1, 0⟩, ⟨3, 1⟩].map fun l => Call.map Keying.names.key (.insert l))).map Prod.snd = .ok s ∧
      (Iter.init s.rootRef).calls s.cell (ls.length + 1) = .ok (ls.map some ++ [none]) ∧ ls.Nodup ∧
      ls.Pairwise fun a b => keyOrder (Keying.names.key (tldOf a)) (Keying.names.key (tldOf b)) = .lt) ∧
    (keyOrder (qpkeyFromname (Name.tld 0x61)) (qpkeyFromname (Name.tld 0x62)) = .lt ↔
      (Name.tld 0x61).compare (Name.tld 0x62) < 0) := by
  obtain ⟨⟨s₀, s, ls, hs₀, hs, hcalls, hnodup, -, hlt⟩, hnames⟩ :=
    iterate_in_order Keying.names tldOf [.insert ⟨2, 1⟩, .insert ⟨1, 0⟩, .insert ⟨3, 1⟩]
  refine ⟨⟨s₀, s, ls, hs₀, ?_, hcalls, hnodup, hlt⟩, hnames _ _ rfl⟩
  exact congrArg (Except.map Prod.snd) hs

end OqsBind.Dns.Qp
