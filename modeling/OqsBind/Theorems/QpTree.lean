import OqsBind.Theorems.QpIndex
import Mathlib.Algebra.BigOperators.Group.Finset.Piecewise

/-! The trie as a tree, without references. A branch gives its children by bit position. `WF` is the invariant
    of the trie: offsets increase on the way down, a branch has at least two twigs, and all keys below a branch
    agree before its offset and have there the bit of their twig. -/

namespace OqsBind.Dns.Qp
open Function Multiset

/-- A key that `dns_qpkey_fromname` could build: positions inside the bitmap, and short enough for the array. -/
structure KeyOk (key : Key) : Prop where
  bit : ∀ offset, TwigBit (qpkeyBit key offset)
  length : key.length < QP_MAXKEY

inductive Tree where
  | leaf (l : Leaf)
  | branch (index : BitVec 64) (kids : Nat → Tree)

namespace Tree

def leaves : Tree → Multiset Leaf
  | leaf l => {l}
  | branch index kids => ∑ b ∈ twigBits index, (kids b).leaves

variable {index : BitVec 64} {kids : Nat → Tree}

theorem mem_leaves_branch {l : Leaf} : l ∈ (branch index kids).leaves ↔ ∃ b ∈ twigBits index, l ∈ (kids b).leaves := by
  simp [leaves]

section
variable (makekey : Leaf → Key)

def WF : Nat → Tree → Prop
  | _, leaf _ => True
  | lo, branch index kids =>
    lo ≤ branchKeyOffset index ∧ branchKeyOffset index < QP_MAXKEY ∧ 2 ≤ (twigBits index).card ∧
      (∀ b ∈ twigBits index, ∀ l ∈ (kids b).leaves, qpkeyBit (makekey l) (branchKeyOffset index) = b) ∧
      (∀ l ∈ (branch index kids).leaves, ∀ l' ∈ (branch index kids).leaves, ∀ o < branchKeyOffset index,
        qpkeyBit (makekey l) o = qpkeyBit (makekey l') o) ∧
      ∀ b ∈ twigBits index, WF (branchKeyOffset index + 1) (kids b)

/-- The leaf that a descent by `key` ends at. -/
def lookup (key : Key) : Tree → Option Leaf
  | leaf l => some l
  | branch index kids => if branchKeybit index key ∈ twigBits index then (kids (branchKeybit index key)).lookup key else none

end

/-- The descent of `dns_qp_insert` by `key` may end at `l`: it follows the key where it can. -/
inductive Reaches (key : Key) : Tree → Leaf → Prop
  | here (l : Leaf) : Reaches key (leaf l) l
  | down {index : BitVec 64} {kids : Nat → Tree} {b : Nat} {l : Leaf} (hb : b ∈ twigBits index)
      (hkey : branchKeybit index key ∈ twigBits index → b = branchKeybit index key) (h : Reaches key (kids b) l) :
      Reaches key (branch index kids) l

variable {makekey : Leaf → Key} {key : Key} {t : Tree} {l l' old new : Leaf} {lo offset b : Nat}

theorem mem_branch (hb : b ∈ twigBits index) (hl : l ∈ (kids b).leaves) : l ∈ (branch index kids).leaves :=
  mem_leaves_branch.mpr ⟨b, hb, hl⟩

theorem WF.bit (h : WF makekey lo (branch index kids)) (hb : b ∈ twigBits index) (hl : l ∈ (kids b).leaves) :
    qpkeyBit (makekey l) (branchKeyOffset index) = b := h.2.2.2.1 b hb l hl

theorem WF.agree (h : WF makekey lo (branch index kids)) (hl : l ∈ (branch index kids).leaves)
    (hl' : l' ∈ (branch index kids).leaves) {o : Nat} (ho : o < branchKeyOffset index) :
    qpkeyBit (makekey l) o = qpkeyBit (makekey l') o := h.2.2.2.2.1 l hl l' hl' o ho

theorem WF.kid (h : WF makekey lo (branch index kids)) (hb : b ∈ twigBits index) :
    WF makekey (branchKeyOffset index + 1) (kids b) := h.2.2.2.2.2 b hb

theorem WF.mono (h : WF makekey lo t) {lo' : Nat} (hle : lo' ≤ lo) : WF makekey lo' t := by
  cases t with
  | leaf l => trivial
  | branch index kids => exact ⟨hle.trans h.1, h.2⟩

theorem WF.exists_leaf : ∀ {t : Tree} {lo : Nat}, WF makekey lo t → ∃ l, l ∈ t.leaves
  | leaf l, _, _ => ⟨l, mem_singleton_self l⟩
  | branch index kids, _, h => by
    obtain ⟨b, hb⟩ := Finset.card_pos.mp (Nat.lt_of_lt_of_le Nat.two_pos h.2.2.1)
    obtain ⟨l, hl⟩ := (h.kid hb).exists_leaf
    exact ⟨l, mem_branch hb hl⟩

theorem Reaches.mem (h : Reaches key t l) : l ∈ t.leaves := by
  induction h with
  | here l => exact mem_singleton_self l
  | down hb _ _ ih => exact mem_branch hb ih

theorem mem_of_lookup : ∀ {t : Tree}, t.lookup key = some l → l ∈ t.leaves
  | leaf l', h => by
    rw [lookup, Option.some.injEq] at h
    exact mem_singleton.mpr h.symm
  | branch index kids, h => by
    rw [lookup] at h
    split_ifs at h with hb
    exact mem_branch hb (mem_of_lookup h)

theorem lookup_of_mem : ∀ {t : Tree} {lo : Nat}, WF makekey lo t → l ∈ t.leaves →
    (∀ o, qpkeyBit key o = qpkeyBit (makekey l) o) → t.lookup key = some l
  | leaf l', _, _, hl, _ => by
    rw [lookup, mem_singleton.mp hl]
  | branch index kids, _, h, hl, hkey => by
    obtain ⟨b, hb, hl⟩ := mem_leaves_branch.mp hl
    have hbit : branchKeybit index key = b := (hkey _).trans (h.bit hb hl)
    rw [lookup, hbit, if_pos hb]
    exact lookup_of_mem (h.kid hb) hl hkey

theorem Reaches.eq_of_key (h : Reaches key t old) : ∀ {lo : Nat}, WF makekey lo t → l ∈ t.leaves →
    (∀ o, qpkeyBit key o = qpkeyBit (makekey l) o) → old = l := by
  induction h with
  | here l' => exact fun _ hl _ => (mem_singleton.mp hl).symm
  | @down index kids b l' hb hk _ ih =>
    intro lo hwf hl hkey
    obtain ⟨b', hb', hl⟩ := mem_leaves_branch.mp hl
    have hbit : branchKeybit index key = b' := (hkey _).trans (hwf.bit hb' hl)
    have heq : b = b' := (hk (hbit ▸ hb')).trans hbit
    subst heq
    exact ih (hwf.kid hb) hl hkey

/-- All keys below a tree agree before `lo` with a given one. -/
def Agree (makekey : Leaf → Key) (lo : Nat) (key : Key) (t : Tree) : Prop :=
  ∀ l ∈ t.leaves, ∀ o < lo, qpkeyBit (makekey l) o = qpkeyBit key o

section
variable (hwf : WF makekey lo (branch index kids)) (h : Reaches key (branch index kids) old)
include hwf h

/-- One step down: the twig of the key is there, and the descent of the search goes the same way. -/
theorem Reaches.step (hagree : ∀ o < offset, qpkeyBit key o = qpkeyBit (makekey old) o)
    (hlt : branchKeyOffset index < offset) :
    branchKeybit index key ∈ twigBits index ∧ Reaches key (kids (branchKeybit index key)) old := by
  cases h with
  | @down _ _ b _ hb hk h =>
    have hbit : branchKeybit index key = b := (hagree _ hlt).trans (hwf.bit hb h.mem)
    rw [hbit]
    exact ⟨hb, h⟩

theorem Reaches.no_twig
    (hdiff : qpkeyBit key (branchKeyOffset index) ≠ qpkeyBit (makekey old) (branchKeyOffset index)) :
    branchKeybit index key ∉ twigBits index := by
  cases h with
  | down hb hk h =>
    intro hmem
    have hb' := hwf.bit hb h.mem
    rw [hk hmem] at hb'
    exact hdiff hb'.symm

end

/-- The offset of the first branch; a leaf counts as deeper than any. -/
def Below (offset : Nat) : Tree → Prop
  | leaf _ => True
  | branch index _ => offset < branchKeyOffset index

/-- Two twigs: the new leaf and what was there before. -/
def newBranch (offset newBit oldBit : Nat) (new : Leaf) (t : Tree) : Tree :=
  branch (newIndex offset newBit oldBit) (update (fun _ => t) newBit (leaf new))

theorem Below.agree (hb : Below offset t) (hwf : WF makekey lo t) (hold : old ∈ t.leaves) :
    Agree makekey (offset + 1) (makekey old) t := by
  cases t with
  | leaf l =>
    intro l' hl' o _
    rw [mem_singleton.mp hold, mem_singleton.mp hl']
  | branch index kids =>
    intro l' hl' o ho
    exact hwf.agree hl' hold (Nat.lt_of_lt_of_le ho hb)

/-- What `WF` asks of the twig `b` of a branch, where all keys agree with `key` before the offset. -/
def Fitting (makekey : Leaf → Key) (offset : Nat) (key : Key) (b : Nat) (t : Tree) : Prop :=
  WF makekey (offset + 1) t ∧
    ∀ l ∈ t.leaves, qpkeyBit (makekey l) offset = b ∧ ∀ o < offset, qpkeyBit (makekey l) o = qpkeyBit key o

theorem WF.fitting (h : WF makekey lo (branch index kids)) (hl : l ∈ (branch index kids).leaves) (hb : b ∈ twigBits index) :
    Fitting makekey (branchKeyOffset index) (makekey l) b (kids b) :=
  ⟨h.kid hb, fun _ hl' => ⟨h.bit hb hl', fun _ => h.agree (mem_branch hb hl') hl⟩⟩

theorem fitting_leaf (hagree : ∀ o < offset, qpkeyBit (makekey l) o = qpkeyBit key o) :
    Fitting makekey offset key (qpkeyBit (makekey l) offset) (leaf l) := by
  refine ⟨trivial, fun l' hl' => ?_⟩
  rw [mem_singleton.mp hl']
  exact ⟨rfl, hagree⟩

theorem wf_branch (key : Key) (hoffset : branchKeyOffset index = offset) (hlo : lo ≤ offset) (hoff : offset < QP_MAXKEY)
    (hcard : 2 ≤ (twigBits index).card) (h : ∀ b ∈ twigBits index, Fitting makekey offset key b (kids b)) :
    WF makekey lo (branch index kids) := by
  subst hoffset
  have hkey : ∀ l ∈ (branch index kids).leaves, ∀ o < branchKeyOffset index, qpkeyBit (makekey l) o = qpkeyBit key o := by
    intro l hl
    obtain ⟨b, hb, hl⟩ := mem_leaves_branch.mp hl
    exact ((h b hb).2 l hl).2
  refine ⟨hlo, hoff, hcard, fun b hb l hl => ((h b hb).2 l hl).1, fun l hl l' hl' o ho => ?_, fun b hb => (h b hb).1⟩
  rw [hkey l hl o ho, hkey l' hl' o ho]

section
variable {newBit oldBit : Nat}

theorem newBranch_leaves (hn : TwigBit newBit) (ho : TwigBit oldBit) (hne : newBit ≠ oldBit) :
    (newBranch offset newBit oldBit new t).leaves = new ::ₘ t.leaves := by
  rw [newBranch, leaves, newIndex_bits hn ho, Finset.sum_pair hne, update_self, update_of_ne hne.symm]
  rfl

theorem newBranch_wf (hoff : offset < QP_MAXKEY) (hn : qpkeyBit (makekey new) offset = newBit)
    (ho : qpkeyBit (makekey old) offset = oldBit) (hne : newBit ≠ oldBit) (hnk : KeyOk (makekey new))
    (hok : KeyOk (makekey old)) (hagree : ∀ o < offset, qpkeyBit (makekey new) o = qpkeyBit (makekey old) o)
    (hwf : WF makekey lo t) (hold : old ∈ t.leaves) (hlo : lo ≤ offset) (hbelow : Below offset t) :
    WF makekey lo (newBranch offset newBit oldBit new t) := by
  have hnr := hn ▸ hnk.bit offset
  have hor := ho ▸ hok.bit offset
  have hall := hbelow.agree hwf hold
  refine wf_branch (makekey old) (newIndex_offset hoff hnr.2 hor.2) hlo hoff
    (by rw [newIndex_bits hnr hor, Finset.card_pair hne]) fun b hb => ?_
  rw [newIndex_bits hnr hor] at hb
  rcases Finset.mem_insert.mp hb with rfl | hb
  · rw [update_self, ← hn]
    exact fitting_leaf hagree
  · rw [Finset.mem_singleton.mp hb, update_of_ne hne.symm]
    refine ⟨?_, fun l hl => ⟨(hall l hl offset (Nat.lt_succ_self _)).trans ho, fun o hlt => hall l hl o (Nat.lt_succ_of_lt hlt)⟩⟩
    cases t with
    | leaf l => trivial
    | branch index kids => exact ⟨hbelow, hwf.2⟩

end

section
variable {index : BitVec 64} {kids : Nat → Tree} {bit : Nat}

theorem sum_leaves_update (S : Finset Nat) (t : Tree) :
    ∑ b ∈ S, (update kids bit t b).leaves = ∑ b ∈ S, update (fun b => (kids b).leaves) bit t.leaves b :=
  Finset.sum_congr rfl fun b _ => apply_update (fun _ => leaves) kids bit t b

theorem grow_leaves (hb : TwigBit bit) (hnew : bit ∉ twigBits index) :
    (branch (index ||| (1#64 <<< bit)) (update kids bit (leaf new))).leaves = new ::ₘ (branch index kids).leaves := by
  rw [leaves, grow_bits hb, Finset.sum_insert hnew, update_self, sum_leaves_update, Finset.sum_update_of_notMem hnew]
  rfl

theorem grow_wf (hnk : KeyOk (makekey new)) (hn : qpkeyBit (makekey new) (branchKeyOffset index) = bit)
    (hnew : bit ∉ twigBits index) (hold : old ∈ (branch index kids).leaves)
    (hagree : ∀ o < branchKeyOffset index, qpkeyBit (makekey new) o = qpkeyBit (makekey old) o)
    (hwf : WF makekey lo (branch index kids)) :
    WF makekey lo (branch (index ||| (1#64 <<< bit)) (update kids bit (leaf new))) := by
  have hb := hn ▸ hnk.bit (branchKeyOffset index)
  refine wf_branch (makekey old) (grow_offset hb.2) hwf.1 hwf.2.1 ?_ fun b hb' => ?_
  · rw [grow_bits hb, Finset.card_insert_of_notMem hnew]
    exact Nat.le_succ_of_le hwf.2.2.1
  · rw [grow_bits hb] at hb'
    rcases Finset.mem_insert.mp hb' with rfl | hb'
    · rw [update_self, ← hn]
      exact fitting_leaf hagree
    · rw [update_of_ne (ne_of_mem_of_not_mem hb' hnew)]
      exact hwf.fitting hold hb'

theorem branch_leaves_erase (hb : bit ∈ twigBits index) :
    (branch index kids).leaves = (kids bit).leaves + ∑ b ∈ (twigBits index).erase bit, (kids b).leaves := by
  rw [leaves, Finset.add_sum_erase _ (fun b => (kids b).leaves) hb]

theorem shrink_leaves (hb : bit ∈ twigBits index) (hkid : kids bit = leaf l) :
    (branch index kids).leaves = l ::ₘ (branch (index &&& ~~~(1#64 <<< bit)) kids).leaves := by
  rw [branch_leaves_erase hb, hkid, leaves, singleton_add]
  rw [leaves, shrink_bits]

theorem shrink_wf (hb : bit ∈ twigBits index) (hcard : 2 < (twigBits index).card)
    (hwf : WF makekey lo (branch index kids)) : WF makekey lo (branch (index &&& ~~~(1#64 <<< bit)) kids) := by
  obtain ⟨w, hw⟩ := hwf.exists_leaf
  refine wf_branch (makekey w) (shrink_offset (bit_range hb).2) hwf.1 hwf.2.1 ?_ fun b hb' => ?_
  · rw [shrink_bits, Finset.card_erase_of_mem hb]
    omega
  · rw [shrink_bits] at hb'
    exact hwf.fitting hw (Finset.mem_of_mem_erase hb')

end

end Tree

end OqsBind.Dns.Qp
