import OqsBind.Theorems.RadixBits
import Mathlib.Data.List.Pairwise

/-! Well-formed radix trees, and what a search in one finds. A tree stands for a table that gives each string of bits its
    data (`slotsAt`); the shape of the tree serves only to find it. -/

namespace OqsBind.Isc.Radix
open List Prefix

structure Prefix.Ok (p : Prefix) : Prop where
  length : p.add.length = 16
  valid : p.valid

variable {p : Prefix}

theorem Prefix.Ok.bitlen_le (h : p.Ok) : p.bitlen ≤ MAXBITS := by
  have hvalid := h.valid
  unfold Prefix.valid at hvalid
  unfold MAXBITS
  split at hvalid <;> simp only [decide_eq_true_eq] at hvalid <;> omega

/-- The bits that a prefix fixes. -/
def Prefix.key (p : Prefix) : List Bool := (range p.bitlen).map (bitTest p.add)

@[simp] theorem Prefix.length_key (p : Prefix) : p.key.length = p.bitlen := by simp [key]

theorem Prefix.key_prefix_iff {q : Prefix} : p.key <+: q.key ↔ p.bitlen ≤ q.bitlen ∧ Agree p.add q.add p.bitlen := by
  rw [prefix_iff_getElem]
  simp only [key, length_map, length_range, getElem_map, getElem_range, exists_prop]
  rfl

theorem Prefix.key_eq_iff {q : Prefix} : p.key = q.key ↔ p.bitlen = q.bitlen ∧ Agree p.add q.add p.bitlen := by
  constructor
  · intro h
    have hlen := congrArg length h
    simp only [length_key] at hlen
    exact ⟨hlen, (key_prefix_iff.mp (h ▸ prefix_refl _)).2⟩
  · rintro ⟨hlen, hagree⟩
    exact (key_prefix_iff.mpr ⟨hlen.le, hagree⟩).eq_of_length (by simpa using hlen)

/-- The bit of the head is greater than another one. -/
def Tree.after (b : Nat) : Tree → Prop
  | .nil => True
  | .node n _ _ => b < n.bit

/-- A node and what is below it: they agree on the bits before the node's, and the node's bit tells the sides apart. A
    node without a prefix is there only to do that. -/
structure NodeOk (n : Node) (l r : Tree) : Prop where
  pfx : ∀ p, n.pfx = some p → p.Ok ∧ p.bitlen = n.bit
  glue : n.pfx = none → l ≠ .nil ∧ r ≠ .nil ∧ n.slots = Slots.empty
  after_left : l.after n.bit
  after_right : r.after n.bit
  agree : ∀ e ∈ walk (.node n l r), ∀ e' ∈ walk (.node n l r), Agree e.1.add e'.1.add n.bit
  left : ∀ e ∈ walk l, goesRight e.1.add n.bit = false
  right : ∀ e ∈ walk r, goesRight e.1.add n.bit = true

def WF : Tree → Prop
  | .nil => True
  | .node n l r => NodeOk n l r ∧ WF l ∧ WF r

variable {n : Node} {e : Prefix × Slots}

theorem mem_walk_node {l r : Tree} :
    e ∈ walk (.node n l r) ↔ (n.pfx = some e.1 ∧ n.slots = e.2) ∨ e ∈ walk l ∨ e ∈ walk r := by
  rw [walk]
  cases hpfx : n.pfx with
  | none => simp
  | some p => simp [Prod.ext_iff, eq_comm]

variable {t : Tree}

theorem bit_lt_of_mem (hwf : WF t) {b : Nat} (hb : t.after b) (he : e ∈ walk t) : b < e.1.bitlen := by
  induction t generalizing b with
  | nil => simp [walk] at he
  | node n l r ihl ihr =>
    obtain ⟨hn, hl, hr⟩ := hwf
    rcases mem_walk_node.mp he with ⟨hpfx, -⟩ | he | he
    · exact (hn.pfx _ hpfx).2 ▸ hb
    · exact lt_trans hb (ihl hl hn.after_left he)
    · exact lt_trans hb (ihr hr hn.after_right he)

theorem ok_of_mem (hwf : WF t) (he : e ∈ walk t) : e.1.Ok := by
  induction t with
  | nil => simp [walk] at he
  | node n l r ihl ihr =>
    obtain ⟨hn, hl, hr⟩ := hwf
    rcases mem_walk_node.mp he with ⟨hpfx, -⟩ | he | he
    · exact (hn.pfx _ hpfx).1
    · exact ihl hl he
    · exact ihr hr he

theorem walk_pairwise (hwf : WF t) : (walk t).Pairwise fun a b => a.1.key ≠ b.1.key := by
  induction t with
  | nil => exact .nil
  | node n l r ihl ihr =>
    obtain ⟨hn, hl, hr⟩ := hwf
    have hsides : (walk l ++ walk r).Pairwise fun a b => a.1.key ≠ b.1.key := by
      refine pairwise_append.mpr ⟨ihl hl, ihr hr, fun a ha b hb hkey => ?_⟩
      have hlt := bit_lt_of_mem hl hn.after_left ha
      have hsame := (key_eq_iff.mp hkey).2.goesRight hlt
      rw [hn.left a ha, hn.right b hb] at hsame
      cases hsame
    rw [walk]
    cases hpfx : n.pfx with
    | none => exact hsides
    | some p =>
      refine pairwise_cons.mpr ⟨fun e he hkey => ?_, hsides⟩
      have hlen := (key_eq_iff.mp hkey).1
      rw [(hn.pfx p hpfx).2] at hlen
      rcases mem_append.mp he with he | he
      · exact absurd (bit_lt_of_mem hl hn.after_left he) (by omega)
      · exact absurd (bit_lt_of_mem hr hn.after_right he) (by omega)

/-- The data of a string of bits. -/
def slotsAt (t : Tree) (k : List Bool) : Slots :=
  (((walk t).find? fun e => e.1.key = k).map (·.2)).getD Slots.empty

theorem slotsAt_of_mem (hwf : WF t) (he : e ∈ walk t) : slotsAt t e.1.key = e.2 := by
  unfold slotsAt
  cases hfind : (walk t).find? fun e' => e'.1.key = e.1.key with
  | none => exact absurd (find?_eq_none.mp hfind e he) (by simp)
  | some e' =>
    have hkey : e'.1.key = e.1.key := by simpa using find?_some hfind
    have heq : e' = e := by
      by_contra hne
      have : Std.Symm fun a b : Prefix × Slots => a.1.key ≠ b.1.key := ⟨fun _ _ h => h.symm⟩
      exact (walk_pairwise hwf).forall (mem_of_find?_eq_some hfind) he hne hkey
    rw [heq]
    rfl

variable {k : List Bool}

theorem slotsAt_of_not_mem (h : ∀ e ∈ walk t, e.1.key ≠ k) : slotsAt t k = Slots.empty := by
  unfold slotsAt
  rw [find?_eq_none.mpr (by simpa using h)]
  rfl

variable {num : Nat}

theorem mem_of_nodeNum {i : Family} (h : (slotsAt t k i).nodeNum = some num) : ∃ e ∈ walk t, e.1.key = k := by
  by_contra hnone
  rw [slotsAt_of_not_mem fun e he hkey => hnone ⟨e, he, hkey⟩] at h
  cases h

/-- A node that counts for a search, with its number. -/
def Hit (p : Prefix) (n : Node) (num : Nat) : Prop :=
  n.bit ≤ p.bitlen ∧ (∃ q, n.pfx = some q ∧ compWithMask q.add p.add q.bitlen) ∧
    (n.slots p.radixFamily).nodeNum = some num

/-- The node with the least number of those that count. -/
def Least (p : Prefix) (nodes : List Node) : Option Node → Prop
  | none => ∀ n ∈ nodes, ∀ num, ¬Hit p n num
  | some t => t ∈ nodes ∧ ∃ least, Hit p t least ∧ ∀ n ∈ nodes, ∀ num, Hit p n num → least ≤ num

theorem Least.cons_skip {nodes : List Node} {target : Option Node}
    (h : Least p nodes target) (hn : ∀ num, ¬Hit p n num) : Least p (n :: nodes) target := by
  cases target with
  | none =>
    intro m hm
    rcases mem_cons.mp hm with rfl | hm
    · exact hn
    · exact h m hm
  | some t =>
    obtain ⟨ht, least, hhit, hle⟩ := h
    refine ⟨mem_cons_of_mem _ ht, least, hhit, fun m hm num hnum => ?_⟩
    rcases mem_cons.mp hm with rfl | hm
    · exact absurd hnum (hn num)
    · exact hle m hm num hnum

theorem Hit.unique {num' : Nat} (h : Hit p n num) (h' : Hit p n num') : num = num' :=
  Option.some.inj (h.2.2.symm.trans h'.2.2)

theorem Least.step {nodes : List Node} {target : Option Node} (h : Least p nodes target) :
    Least p (n :: nodes) (searchStep p target n) := by
  unfold searchStep
  by_cases hbit : p.bitlen < n.bit
  · rw [if_pos hbit]
    exact h.cons_skip fun num hnum => absurd hnum.1 (not_le.mpr hbit)
  rw [if_neg hbit]
  cases hpfx : n.pfx with
  | none => exact h.cons_skip fun num ⟨_, ⟨q, hq, _⟩, _⟩ => by simp [hpfx] at hq
  | some q =>
    by_cases hmask : compWithMask q.add p.add q.bitlen
    swap
    · simp only [hmask, Bool.false_eq_true, if_false]
      refine h.cons_skip fun num ⟨_, ⟨q', hq', hmask'⟩, _⟩ => hmask ?_
      rw [hpfx, Option.some.injEq] at hq'
      exact hq' ▸ hmask'
    simp only [hmask, if_true]
    cases hnum : (n.slots p.radixFamily).nodeNum with
    | none => exact h.cons_skip fun num hhit => by simp [hhit.2.2] at hnum
    | some num =>
      have hhit : Hit p n num := ⟨not_lt.mp hbit, ⟨q, hpfx, hmask⟩, hnum⟩
      cases target with
      | none =>
        refine ⟨mem_cons_self, num, hhit, fun m hm num' hnum' => ?_⟩
        rcases mem_cons.mp hm with rfl | hm
        · exact (hhit.unique hnum').le
        · exact absurd hnum' (h m hm num')
      | some t =>
        obtain ⟨ht, least, hleast, hle⟩ := h
        simp only [hleast.2.2, Option.any_some, decide_eq_true_eq]
        by_cases hlt : num < least
        · rw [if_pos hlt]
          refine ⟨mem_cons_self, num, hhit, fun m hm num' hnum' => ?_⟩
          rcases mem_cons.mp hm with rfl | hm
          · exact (hhit.unique hnum').le
          · exact hlt.le.trans (hle m hm num' hnum')
        · rw [if_neg hlt]
          refine ⟨mem_cons_of_mem _ ht, least, hleast, fun m hm num' hnum' => ?_⟩
          rcases mem_cons.mp hm with rfl | hm
          · exact hhit.unique hnum' ▸ not_lt.mp hlt
          · exact hle m hm num' hnum'

theorem search_least (radix : RadixTree) (p : Prefix) :
    Least p (searchPath p.add p.bitlen radix.head) (search radix p) := by
  unfold search
  induction searchPath p.add p.bitlen radix.head with
  | nil => exact fun n hn => by simp at hn
  | cons n nodes ih => exact ih.step

theorem mem_of_mem_searchPath {addr : Bytes} {bitlen : Nat} (hwf : WF t)
    (h : n ∈ searchPath addr bitlen t) : ∃ q, n.pfx = some q ∧ q.bitlen = n.bit ∧ (q, n.slots) ∈ walk t := by
  induction t with
  | nil => simp [searchPath] at h
  | node m l r ihl ihr =>
    obtain ⟨hm, hl, hr⟩ := hwf
    have hhere : n ∈ (if m.pfx.isSome then [m] else []) →
        ∃ q, n.pfx = some q ∧ q.bitlen = n.bit ∧ (q, n.slots) ∈ walk (.node m l r) := by
      intro hn
      cases hpfx : m.pfx with
      | none => simp [hpfx] at hn
      | some q =>
        obtain rfl : n = m := by simpa [hpfx] using hn
        exact ⟨q, hpfx, (hm.pfx q hpfx).2, mem_walk_node.mpr (.inl ⟨hpfx, rfl⟩)⟩
    unfold searchPath at h
    dsimp only at h
    split at h
    · rcases mem_append.mp h with h | h
      · exact hhere h
      · split at h
        · obtain ⟨q, hq, hbit, hmem⟩ := ihr hr h
          exact ⟨q, hq, hbit, mem_walk_node.mpr (.inr (.inr hmem))⟩
        · obtain ⟨q, hq, hbit, hmem⟩ := ihl hl h
          exact ⟨q, hq, hbit, mem_walk_node.mpr (.inr (.inl hmem))⟩
    · exact hhere h

theorem mem_searchPath {addr : Bytes} {bitlen : Nat} (hlen : bitlen ≤ MAXBITS) (hwf : WF t) (he : e ∈ walk t) (hbits : e.1.bitlen ≤ bitlen) (hagree : Agree e.1.add addr e.1.bitlen) :
    ∃ n ∈ searchPath addr bitlen t, n.pfx = some e.1 ∧ n.slots = e.2 ∧ n.bit = e.1.bitlen := by
  induction t with
  | nil => simp [walk] at he
  | node m l r ihl ihr =>
    obtain ⟨hn, hl, hr⟩ := hwf
    unfold searchPath
    dsimp only
    rcases mem_walk_node.mp he with ⟨hpfx, hslots⟩ | he | he
    · refine ⟨m, ?_, hpfx, hslots, (hn.pfx _ hpfx).2.symm⟩
      split <;> simp [hpfx]
    all_goals
      have hlt : m.bit < e.1.bitlen := by
        first
        | exact bit_lt_of_mem hl hn.after_left he
        | exact bit_lt_of_mem hr hn.after_right he
      have hside : goesRight e.1.add m.bit = bitTest addr m.bit := by
        have hmax : m.bit < MAXBITS := lt_of_lt_of_le hlt (hbits.trans hlen)
        rw [goesRight, decide_eq_true hmax, Bool.true_and, hagree m.bit hlt]
      rw [if_pos (lt_of_lt_of_le hlt hbits)]
    · obtain ⟨n, hmem, hn'⟩ := ihl hl he
      refine ⟨n, mem_append.mpr (.inr ?_), hn'⟩
      rwa [if_neg (by simp [← hside, hn.left e he])]
    · obtain ⟨n, hmem, hn'⟩ := ihr hr he
      refine ⟨n, mem_append.mpr (.inr ?_), hn'⟩
      rwa [if_pos (by simp [← hside, hn.right e he])]

/-- What a search finds, as a table: of the strings that the address starts with, the one with the least number. -/
def Found (table : List Bool → Slots) (p : Prefix) : Option Node → Prop
  | none => ∀ k, k <+: p.key → (table k p.radixFamily).nodeNum = none
  | some n => ∃ k num, k <+: p.key ∧ n.slots = table k ∧ (table k p.radixFamily).nodeNum = some num ∧
      ∀ k' num', k' <+: p.key → (table k' p.radixFamily).nodeNum = some num' → num ≤ num'

variable {radix : RadixTree}

theorem hit_of_slotsAt (hwf : WF radix.head) (hp : p.Ok)
    (hk : k <+: p.key) (hnum : (slotsAt radix.head k p.radixFamily).nodeNum = some num) :
    ∃ n ∈ searchPath p.add p.bitlen radix.head, Hit p n num := by
  obtain ⟨e, he, rfl⟩ := mem_of_nodeNum hnum
  obtain ⟨hbits, hagree⟩ := key_prefix_iff.mp hk
  obtain ⟨n, hmem, hpfx, hslots, hbit⟩ := mem_searchPath hp.bitlen_le hwf he hbits hagree
  have hok := ok_of_mem hwf he
  refine ⟨n, hmem, hbit.trans_le hbits, ⟨e.1, hpfx, (compWithMask_iff ?_ ?_).mpr hagree⟩, ?_⟩
  · rw [hok.length, hp.length]
  · rw [hok.length]
    exact hok.bitlen_le
  · rwa [hslots, ← slotsAt_of_mem hwf he]

theorem search_some (hwf : WF radix.head) (hp : p.Ok)
    (hsearch : search radix p = some n) : ∃ q num, n.pfx = some q ∧ q.key <+: p.key ∧ n.slots = slotsAt radix.head q.key ∧
      (slotsAt radix.head q.key p.radixFamily).nodeNum = some num ∧
      ∀ k' num', k' <+: p.key → (slotsAt radix.head k' p.radixFamily).nodeNum = some num' → num ≤ num' := by
  have hleast := search_least radix p
  rw [hsearch] at hleast
  obtain ⟨hmem, num, ⟨hbit, ⟨q, hpfx, hmask⟩, hnum⟩, hle⟩ := hleast
  obtain ⟨q', hpfx', hlen, hwalk⟩ := mem_of_mem_searchPath hwf hmem
  rw [hpfx, Option.some.injEq] at hpfx'
  subst hpfx'
  have hok := ok_of_mem hwf hwalk
  have hslots : slotsAt radix.head q.key = n.slots := slotsAt_of_mem (e := (q, n.slots)) hwf hwalk
  have hagree : Agree q.add p.add q.bitlen := by
    refine (compWithMask_iff ?_ ?_).mp hmask
    · rw [hok.length, hp.length]
    · rw [hok.length]
      exact hok.bitlen_le
  refine ⟨q, num, hpfx, ?_, hslots.symm, ?_, fun k' num' hk' hnum' => ?_⟩
  · exact key_prefix_iff.mpr ⟨hlen.trans_le hbit, hagree⟩
  · rw [hslots, hnum]
  · obtain ⟨m, hm, hhit⟩ := hit_of_slotsAt hwf hp hk' hnum'
    exact hle m hm num' hhit

theorem search_spec (hwf : WF radix.head) (hp : p.Ok) : Found (slotsAt radix.head) p (search radix p) := by
  cases hsearch : search radix p with
  | none =>
    have hleast := search_least radix p
    rw [hsearch] at hleast
    intro k hk
    cases hnum : (slotsAt radix.head k p.radixFamily).nodeNum with
    | none => rfl
    | some num =>
      obtain ⟨n, hmem, hhit⟩ := hit_of_slotsAt hwf hp hk hnum
      exact absurd hhit (hleast n hmem num)
  | some n =>
    obtain ⟨q, num, -, hkey, hslots, hnum, hle⟩ := search_some hwf hp hsearch
    exact ⟨q.key, num, hkey, hslots, hnum, hle⟩

end OqsBind.Isc.Radix
