import Mathlib.Algebra.BigOperators.Group.Finset.Piecewise
import Mathlib.Algebra.Order.BigOperators.Group.Finset
import Mathlib.Tactic.Abel
import OqsBind.Isc.Hashmap
import OqsBind.Lib.RobinHood

/-! One table of the hash map. A table holds a multiset of entries; searching, adding and deleting are said in terms of
    it. What makes them work is the order of Robin Hood hashing together with one slot that is free or holds a node at
    home, which stops the shift after a deletion also in a table that is full. -/

namespace OqsBind.Isc.Hashmap

open RobinHood Function Finset

variable {V : Type} {t : Table V} {cs : Bool} {hash : Key → UInt32}

theorem hashBits32_lt (val : UInt32) {bits : Nat} (hb : bits ≤ 32) : hashBits32 val bits < 2 ^ bits := by
  unfold hashBits32
  rw [Nat.shiftRight_eq_div_pow]
  apply Nat.div_lt_of_lt_mul
  rw [← Nat.pow_add, Nat.sub_add_cancel hb]
  exact UInt32.toNat_lt _

/-! ### Keys -/

/-- What a key is compared by. -/
def folded (cs : Bool) (k : Key) : Bytes := if cs then k.octets else k.octets.map tolower

theorem sameKey_iff {a b : Key} : sameKey cs a b = true ↔ folded cs a = folded cs b := by
  unfold sameKey folded
  cases cs
  · simp only [Bool.false_eq_true, if_false, Bool.and_eq_true, beq_iff_eq, lowerequal_iff, and_iff_right_iff_imp]
    intro h
    simpa using congrArg List.length h
  · simpa using congrArg List.length

/-- Equal keys come with equal hash values. -/
def Agrees (cs : Bool) (hash : Key → UInt32) : Prop := ∀ a b, sameKey cs a b = true → hash a = hash b

namespace Table

@[simp] theorem set_size (t : Table V) (i : Nat) (x : Option (Node V)) : (t.set i x).size = t.size := rfl

@[simp] theorem set_slots_self (t : Table V) (i : Nat) (x : Option (Node V)) : (t.set i x).slots i = x :=
  update_self ..

variable {i s : Nat}

theorem set_slots_ne (t : Table V) (x : Option (Node V)) (h : s ≠ i) : (t.set i x).slots s = t.slots s :=
  update_of_ne h ..

theorem size_pos (t : Table V) : 0 < t.size := Nat.two_pow_pos _

theorem pos_eq (hb : t.hashbits ≤ 32) (a b : Nat) : t.pos a b = (a + b) % t.size := by
  unfold pos hashmask size
  rw [Nat.and_two_pow_sub_one_eq_mod, Nat.mod_mod_of_dvd _ (Nat.pow_dvd_pow 2 hb)]

theorem pos_lt (hb : t.hashbits ≤ 32) (a b : Nat) : t.pos a b < t.size := by
  rw [pos_eq hb]
  exact Nat.mod_lt _ t.size_pos

/-- The next probe looks at the next slot; the wrap of the probe length is not seen. -/
theorem pos_succ (hb : t.hashbits ≤ 32) (a b : Nat) : t.pos a ((b + 1) % 2 ^ 32) = next t.size (t.pos a b) := by
  have hdvd : t.size ∣ 2 ^ 32 := Nat.pow_dvd_pow 2 hb
  rw [pos_eq hb, pos_eq hb, next_walk, Nat.add_mod, Nat.mod_mod_of_dvd _ hdvd, ← Nat.add_mod]

/-! ### The entries of a table -/

/-- What a slot holds, without the place it is in. -/
def held : Option (Node V) → Multiset (Key × V)
  | none => 0
  | some node => {(node.key, node.value)}

@[simp] theorem held_none : held (none : Option (Node V)) = 0 := rfl

@[simp] theorem held_some (node : Node V) : held (some node) = {(node.key, node.value)} := rfl

def entries (t : Table V) : Multiset (Key × V) := ∑ s ∈ range t.size, held (t.slots s)

theorem entries_set (hi : i < t.size) (x : Option (Node V)) :
    (t.set i x).entries + held (t.slots i) = t.entries + held x := by
  have hmem : i ∈ range t.size := mem_range.mpr hi
  have hheld : (fun s => held ((t.set i x).slots s)) = update (fun s => held (t.slots s)) i (held x) := by
    funext s
    by_cases hs : s = i
    · subst hs
      simp
    · rw [set_slots_ne t x hs, update_of_ne hs]
  have hnew : (t.set i x).entries = held x + ∑ s ∈ range t.size \ {i}, held (t.slots s) := by
    unfold entries
    rw [hheld, set_size, sum_update_of_mem hmem]
  have hold : t.entries = ∑ s ∈ range t.size \ {i}, held (t.slots s) + held (t.slots i) :=
    (sum_sdiff (singleton_subset_iff.mpr hmem)).symm.trans (by rw [sum_singleton])
  rw [hnew, hold]
  abel

theorem mem_entries {e : Key × V} :
    e ∈ t.entries ↔ ∃ s < t.size, ∃ node, t.slots s = some node ∧ (node.key, node.value) = e := by
  unfold entries
  rw [Multiset.mem_sum]
  constructor
  · rintro ⟨s, hs, he⟩
    rcases hnode : t.slots s with _ | node
    · rw [hnode] at he
      exact absurd he (Multiset.notMem_zero e)
    · rw [hnode] at he
      exact ⟨s, mem_range.mp hs, node, hnode, (Multiset.mem_singleton.mp he).symm⟩
  · rintro ⟨s, hs, node, hnode, rfl⟩
    refine ⟨s, mem_range.mpr hs, ?_⟩
    simp [hnode]

theorem entries_eq_zero (h : ∀ s < t.size, t.slots s = none) : t.entries = 0 := by
  apply sum_eq_zero
  intro s hs
  rw [h s (mem_range.mp hs), held_none]

theorem exists_free (h : t.entries.card < t.size) : ∃ z < t.size, t.slots z = none := by
  by_contra hno
  push Not at hno
  apply absurd h
  rw [Nat.not_lt]
  unfold entries
  rw [Multiset.card_sum]
  calc t.size = ∑ _s ∈ range t.size, 1 := by simp
    _ ≤ _ := sum_le_sum fun s hs => ?_
  obtain ⟨node, hnode⟩ := Option.ne_none_iff_exists'.mp (hno s (mem_range.mp hs))
  simp [hnode, held_some]

/-! ### The invariant -/

/-- One more than the probe length, and zero for a free slot. -/
def depth (t : Table V) (s : Nat) : Nat := ((t.slots s).map fun node => node.psl + 1).getD 0

theorem depth_none (h : t.slots s = none) : t.depth s = 0 := by simp [depth, h]

variable {node : Node V}

theorem depth_some (h : t.slots s = some node) : t.depth s = node.psl + 1 := by
  simp [depth, h]

theorem exists_of_depth (h : i < t.depth s) : ∃ node, t.slots s = some node ∧ i ≤ node.psl := by
  rcases hs : t.slots s with _ | node
  · rw [depth_none hs] at h
    omega
  · rw [depth_some hs] at h
    exact ⟨node, rfl, by omega⟩

theorem depth_set (t : Table V) (i : Nat) (x : Option (Node V)) :
    (t.set i x).depth = update t.depth i ((x.map fun node => node.psl + 1).getD 0) := by
  funext s
  by_cases hs : s = i
  · subst hs
    simp [depth]
  · simp [depth, hs, set_slots_ne]

/-- A node has its hash value from its key, and is its probe length away from the slot that the hash names. -/
structure Sits (hash : Key → UInt32) (t : Table V) (s : Nat) (node : Node V) : Prop where
  hashval : node.hashval = hash node.key
  place : (hashBits32 node.hashval t.hashbits + node.psl) % t.size = s
  psl_lt : node.psl < t.size

structure Inv (hash : Key → UInt32) (t : Table V) : Prop where
  bits_pos : 1 ≤ t.hashbits
  bits_le : t.hashbits ≤ 32
  sits : ∀ s < t.size, ∀ node, t.slots s = some node → Sits hash t s node
  ordered : Ordered t.size t.depth
  anchored : ∃ z < t.size, t.depth z ≤ 1

theorem one_lt_size (h : 1 ≤ t.hashbits) : 1 < t.size := Nat.one_lt_two_pow (by omega)

theorem size_le (h : t.hashbits ≤ 32) : t.size ≤ 2 ^ 32 := Nat.pow_le_pow_right (by omega) h

theorem home_lt (h : t.hashbits ≤ 32) (val : UInt32) : hashBits32 val t.hashbits < t.size := hashBits32_lt val h

theorem create_inv (hash : Key → UInt32) {bits : Nat} (hb : 1 ≤ bits ∧ bits ≤ 32) :
    ∃ t : Table V, create bits = .ok t ∧ t.hashbits = bits ∧ t.entries = 0 ∧ t.Inv hash ∧ ∀ s, t.slots s = none := by
  refine ⟨⟨bits, fun _ => none⟩, if_pos hb, rfl, entries_eq_zero fun _ _ => rfl, ?_, fun _ => rfl⟩
  exact {
    bits_pos := hb.1
    bits_le := hb.2
    sits := fun _ _ _ h => nomatch h
    ordered := fun _ _ => Nat.zero_le _
    anchored := ⟨0, size_pos _, Nat.zero_le _⟩ }

theorem Inv.set (h : t.Inv hash) (hsits : Sits hash t i node)
    (ho : Ordered t.size (update t.depth i (node.psl + 1)))
    (ha : ∃ z < t.size, update t.depth i (node.psl + 1) z ≤ 1) : (t.set i (some node)).Inv hash where
  bits_pos := h.bits_pos
  bits_le := h.bits_le
  sits s hs node' hnode' := by
    by_cases hsi : s = i
    · subst hsi
      rw [set_slots_self] at hnode'
      cases hnode'
      exact ⟨hsits.hashval, hsits.place, hsits.psl_lt⟩
    · rw [set_slots_ne t _ hsi] at hnode'
      obtain ⟨hv, hp, hl⟩ := h.sits s hs node' hnode'
      exact ⟨hv, hp, hl⟩
  ordered := by
    rw [depth_set]
    exact ho
  anchored := by
    rw [depth_set]
    exact ha

/-! ### Searching -/

/-- Where a search for the key begins. -/
abbrev home (t : Table V) (hash : Key → UInt32) (key : Key) : Nat := hashBits32 (hash key) t.hashbits

/-- Some node of the table has the key. -/
def Has (cs : Bool) (t : Table V) (key : Key) : Prop :=
  ∃ s < t.size, ∃ node, t.slots s = some node ∧ sameKey cs node.key key = true

variable {key : Key}

theorem hashmapMatch_iff (hagree : Agrees cs hash) (h : Sits hash t s node) :
    hashmapMatch cs node (hash key) key = true ↔ sameKey cs node.key key = true := by
  unfold hashmapMatch
  rw [Bool.and_eq_true, beq_iff_eq, and_iff_right_iff_imp]
  intro hsame
  rw [h.hashval]
  exact hagree _ _ hsame

/-- On the way to a node with the key every slot is in use, by a node that is no nearer to its home than the probe to
    the home of the key. -/
theorem Inv.on_way (h : t.Inv hash) (hagree : Agrees cs hash) (hs : s < t.size)
    (hnode : t.slots s = some node) (hsame : sameKey cs node.key key = true) (hi : i ≤ node.psl) :
    ∃ current, t.slots (t.pos (t.home hash key) i) = some current ∧ i ≤ current.psl ∧
      (i = node.psl → current = node) := by
  have hsit := h.sits s hs node hnode
  have hhome : hashBits32 node.hashval t.hashbits = t.home hash key := by
    rw [hsit.hashval, hagree _ _ hsame]
  have hplace := hsit.place
  rw [hhome] at hplace
  have hgap : gap t.size (t.home hash key) s = node.psl := by
    rw [← hplace, gap_walk (home_lt h.bits_le _) hsit.psl_lt]
  have hreach := h.ordered.reachable (home_lt h.bits_le (hash key)) hs (by rw [hgap, depth_some hnode])
    (hi.trans_eq hgap.symm)
  rw [← pos_eq h.bits_le] at hreach
  obtain ⟨current, hcurrent, hle⟩ := exists_of_depth hreach
  refine ⟨current, hcurrent, hle, fun hi => ?_⟩
  subst hi
  rw [pos_eq h.bits_le, hplace, hnode] at hcurrent
  exact (Option.some.inj hcurrent).symm

/-- What a search that succeeds hands back: a node with the key, and the probe length that leads to it. -/
structure Found (cs : Bool) (hash : Key → UInt32) (t : Table V) (key : Key) (node : Node V) (psl : Nat) : Prop where
  slot : t.slots (t.pos (hashBits32 (hash key) t.hashbits) psl) = some node
  same : sameKey cs node.key key = true
  hashval : node.hashval = hash key
  psl : node.psl = psl

theorem findLoop_has (h : t.Inv hash) (hagree : Agrees cs hash) (hs : s < t.size)
    (hnode : t.slots s = some node) (hsame : sameKey cs node.key key = true) :
    ∀ {fuel psl : Nat}, psl ≤ node.psl → node.psl < fuel + psl →
      ∃ found psl', findLoop cs t (t.home hash key) (hash key) key fuel psl = .ok (some (found, psl')) ∧
        Found cs hash t key found psl'
  | 0, psl, hle, hlt => by omega
  | fuel + 1, psl, hle, hlt => by
    obtain ⟨current, hcurrent, hpsl, hlast⟩ := h.on_way hagree hs hnode hsame hle
    have hsit := h.sits _ (pos_lt h.bits_le _ _) current hcurrent
    rw [findLoop, hcurrent]
    simp only [Nat.not_lt.mpr hpsl, if_false]
    by_cases hmatch : hashmapMatch cs current (hash key) key = true
    · rw [if_pos hmatch]
      have hsame' := (hashmapMatch_iff hagree hsit).mp hmatch
      have hval : current.hashval = hash key := by rw [hsit.hashval, hagree _ _ hsame']
      refine ⟨current, psl, rfl, hcurrent, hsame', hval, ?_⟩
      -- both probe lengths lead from one home to this slot
      have hplace := hsit.place
      rw [hval, pos_eq h.bits_le] at hplace
      have hlt' : psl < t.size := Nat.lt_of_le_of_lt hpsl hsit.psl_lt
      exact walk_inj (home_lt h.bits_le _) hsit.psl_lt hlt' hplace
    · rw [if_neg hmatch]
      have hne : psl ≠ node.psl := by
        intro heq
        rw [hlast heq] at hmatch
        exact hmatch ((hashmapMatch_iff hagree (h.sits s hs node hnode)).mpr hsame)
      have hsize := size_le h.bits_le
      have hbound := (h.sits s hs node hnode).psl_lt
      simpa using findLoop_has h hagree hs hnode hsame (by omega) (by omega)

theorem find_has (h : t.Inv hash) (hagree : Agrees cs hash) (hhas : t.Has cs key) :
    ∃ node psl, t.find cs (hash key) key = .ok (some (node, psl)) ∧ Found cs hash t key node psl := by
  obtain ⟨s, hs, node, hnode, hsame⟩ := hhas
  have hpsl := (h.sits s hs node hnode).psl_lt
  exact findLoop_has h hagree hs hnode hsame (Nat.zero_le _) (by omega)

/-- A search for a key that is not there stops at the latest where some probe length exceeds what it sees. -/
theorem findLoop_absent (h : t.Inv hash) (hagree : Agrees cs hash) (hhas : ¬ t.Has cs key) {q : Nat}
    (hq : q < 2 ^ 32) (hstop : t.depth (t.pos (t.home hash key) q) ≤ q) :
    ∀ {fuel psl : Nat}, psl ≤ q → q < fuel + psl →
      findLoop cs t (t.home hash key) (hash key) key fuel psl = .ok none
  | 0, psl, hle, hlt => by omega
  | fuel + 1, psl, hle, hlt => by
    rw [findLoop]
    rcases hcurrent : t.slots (t.pos (t.home hash key) psl) with _ | current
    · rfl
    · have hin := pos_lt h.bits_le (t.home hash key) psl
      have hmatch : ¬ hashmapMatch cs current (hash key) key = true := by
        rw [hashmapMatch_iff hagree (h.sits _ hin current hcurrent)]
        exact fun hsame => hhas ⟨_, hin, current, hcurrent, hsame⟩
      dsimp only
      split
      · rfl
      · next hge =>
        have hne : psl ≠ q := by
          intro heq
          rw [← heq, depth_some hcurrent] at hstop
          omega
        rw [Nat.mod_eq_of_lt (by omega)]
        exact findLoop_absent h hagree hhas hq hstop (by omega) (by omega)

/-- A search ends in every table but one of 32 bits that is full. -/
theorem find_absent (h : t.Inv hash) (hagree : Agrees cs hash) (hhas : ¬ t.Has cs key)
    (hroom : t.hashbits < 32 ∨ t.entries.card < t.size) : t.find cs (hash key) key = .ok none := by
  obtain ⟨q, hq, hle, hstop⟩ : ∃ q < 2 ^ 32, q ≤ t.size ∧ t.depth (t.pos (t.home hash key) q) ≤ q := by
    rcases hroom with hbits | hcard
    · refine ⟨t.size, Nat.pow_lt_pow_right (by omega) hbits, le_rfl, ?_⟩
      have hin := pos_lt h.bits_le (t.home hash key) t.size
      rcases hcurrent : t.slots (t.pos (t.home hash key) t.size) with _ | current
      · rw [depth_none hcurrent]
        exact Nat.zero_le _
      · rw [depth_some hcurrent]
        exact (h.sits _ hin current hcurrent).psl_lt
    · obtain ⟨z, hz, hfree⟩ := exists_free hcard
      have hgap := gap_lt (h := t.home hash key) hz
      refine ⟨gap t.size (t.home hash key) z, hgap.trans_le (size_le h.bits_le), hgap.le, ?_⟩
      rw [pos_eq h.bits_le, walk_gap (home_lt h.bits_le _) hz, depth_none hfree]
      exact Nat.zero_le _
  exact findLoop_absent h hagree hhas hq hstop (Nat.zero_le _) (by omega)

/-! ### Adding -/

/-- The carried node may be put into slot `i`: the slot before it is deep enough. -/
def Fits (t : Table V) (i : Nat) (node : Node V) : Prop := ∃ s < t.size, next t.size s = i ∧ node.psl ≤ t.depth s

theorem Sits.next (h : Sits hash t i node) (hlt : node.psl + 1 < t.size) :
    Sits hash t (RobinHood.next t.size i) { node with psl := node.psl + 1 } where
  hashval := h.hashval
  place := by rw [← h.place, next_walk]
  psl_lt := hlt

/-- `t'` is a table like `t` that holds one entry more. -/
structure Added (hash : Key → UInt32) (t t' : Table V) (e : Key × V) : Prop where
  inv : t'.Inv hash
  hashbits : t'.hashbits = t.hashbits
  entries : t'.entries = t.entries + {e}

theorem added_free (h : t.Inv hash) (hi : i < t.size) (hfree : t.slots i = none)
    (hsits : Sits hash t i node) (hfits : Fits t i node) :
    Added hash t (t.set i (some node)) (node.key, node.value) := by
  obtain ⟨s, hs, rfl, hle⟩ := hfits
  have hn := one_lt_size h.bits_pos
  have hdepth := depth_none hfree
  have hne : next t.size (next t.size s) ≠ next t.size s := by
    rw [next_eq hi]
    split_ifs <;> omega
  refine ⟨h.set hsits (h.ordered.raise hs hn (by omega) (by omega)) ?_, rfl, ?_⟩
  · -- the node after the free slot was at home, and still is
    refine ⟨next t.size (next t.size s), next_lt hi, ?_⟩
    rw [update_of_ne hne]
    have := h.ordered _ hi
    omega
  · have hset := entries_set hi (some node)
    rw [hfree, held_none, add_zero] at hset
    exact hset

/-- The state of `hashmap_add` at slot `i`: the node that is carried may be put there, the slot `k` further on is free, and
    up to there none has the key. -/
structure Carried (cs : Bool) (hash : Key → UInt32) (key : Key) (t : Table V) (i k : Nat) (node : Node V) : Prop where
  inv : t.Inv hash
  slot_lt : i < t.size
  sits : Sits hash t i node
  fits : Fits t i node
  ahead_lt : k < t.size
  free : t.slots ((i + k) % t.size) = none
  absent : ∀ j < k, ∀ current, t.slots ((i + j) % t.size) = some current → ¬ sameKey cs current.key key = true

namespace Carried
variable {key : Key} {i k : Nat} {node current : Node V}

theorem free_slot (h : Carried cs hash key t i 0 node) : t.slots i = none := by
  have hfree := h.free
  rwa [Nat.add_zero, Nat.mod_eq_of_lt h.slot_lt] at hfree

theorem not_match (hagree : Agrees cs hash) (h : Carried cs hash key t i (k + 1) node) (hcurrent : t.slots i = some current) :
    ¬ hashmapMatch cs current (hash key) key = true := by
  rw [hashmapMatch_iff hagree (h.inv.sits i h.slot_lt current hcurrent)]
  apply h.absent 0 (Nat.succ_pos k)
  rwa [Nat.add_zero, Nat.mod_eq_of_lt h.slot_lt]

theorem depth_lt (h : Carried cs hash key t i k node) : t.depth i < t.size :=
  h.inv.ordered.lt_of_free (Nat.mod_lt _ t.size_pos) (depth_none h.free) h.slot_lt

theorem walk_next (n i j : Nat) : (next n i + j) % n = (i + (j + 1)) % n := by
  unfold next
  rw [Nat.mod_add_mod]
  congr 1
  omega

section
variable (h : Carried cs hash key t i (k + 1) node)
include h

theorem ahead_ne {j : Nat} (hj : j ≤ k) : (i + (j + 1)) % t.size ≠ i := by
  intro heq
  have hlt := h.ahead_lt
  have := walk_inj (i := j + 1) (j := 0) h.slot_lt (by omega) (by omega)
    (by rw [heq, Nat.add_zero, Nat.mod_eq_of_lt h.slot_lt])
  omega

theorem pass (hcurrent : t.slots i = some current)
    (hrich : node.psl ≤ current.psl) :
    Carried cs hash key t (next t.size i) k { node with psl := node.psl + 1 } := by
  have hdepth := h.depth_lt
  have hcur := depth_some hcurrent
  have hlt := h.ahead_lt
  refine ⟨h.inv, next_lt h.slot_lt, h.sits.next (by omega), ⟨i, h.slot_lt, rfl, ?_⟩, by omega, ?_, fun j hj c hc => ?_⟩
  · simp
    omega
  · rw [walk_next]
    exact h.free
  · rw [walk_next] at hc
    exact h.absent (j + 1) (by omega) c hc

theorem swap (hcurrent : t.slots i = some current)
    (hpoor : current.psl < node.psl) :
    Carried cs hash key (t.set i (some node)) (next t.size i) k { current with psl := current.psl + 1 } := by
  obtain ⟨s, hs, hsi, hle⟩ := h.fits
  have hdepth := h.depth_lt
  have hcur := depth_some hcurrent
  have hlt := h.ahead_lt
  have hkept : ∀ j ≤ k, (t.set i (some node)).slots ((next t.size i + j) % t.size) = t.slots ((i + (j + 1)) % t.size) := by
    intro j hj
    rw [walk_next, set_slots_ne t _ (h.ahead_ne hj)]
  have hraised : Ordered t.size (update t.depth i (node.psl + 1)) := by
    rw [← hsi]
    exact h.inv.ordered.raise hs (one_lt_size h.inv.bits_pos) (by rw [hsi]; omega) (by omega)
  have hinv : (t.set i (some node)).Inv hash := by
    refine h.inv.set h.sits hraised ⟨_, Nat.mod_lt (i + (k + 1)) t.size_pos, ?_⟩
    rw [update_of_ne (h.ahead_ne le_rfl), depth_none h.free]
    omega
  obtain ⟨hval, hplace, hpsl⟩ := (h.inv.sits i h.slot_lt current hcurrent).next (by omega)
  refine ⟨hinv, next_lt h.slot_lt, ⟨hval, hplace, hpsl⟩, ⟨i, h.slot_lt, rfl, ?_⟩, ?_, ?_, fun j hj c hc => ?_⟩
  · simp [depth_set]
    omega
  · rw [set_size]
    omega
  · rw [set_size, hkept k le_rfl]
    exact h.free
  · rw [set_size, hkept j (by omega)] at hc
    exact h.absent (j + 1) (by omega) c hc

end

end Carried

theorem addLoop_absent (hagree : Agrees cs hash) {home : Nat} : ∀ {k fuel psl : Nat} {t : Table V}
    {node : Node V}, Carried cs hash key t (t.pos home psl) k node → k < fuel →
    ∃ t', addLoop cs home (hash key) key fuel t psl node = .ok (.success, t') ∧
      Added hash t t' (node.key, node.value)
  | k, 0, psl, t, node, h, hfuel => by omega
  | 0, fuel + 1, psl, t, node, h, hfuel => by
    rw [addLoop, h.free_slot]
    exact ⟨_, rfl, added_free h.inv h.slot_lt h.free_slot h.sits h.fits⟩
  | k + 1, fuel + 1, psl, t, node, h, hfuel => by
    rcases hcurrent : t.slots (t.pos home psl) with _ | current
    · rw [addLoop, hcurrent]
      exact ⟨_, rfl, added_free h.inv h.slot_lt hcurrent h.sits h.fits⟩
    · have hdepth := h.depth_lt
      have hcur := depth_some hcurrent
      have hsize := size_le h.inv.bits_le
      have hnext := pos_succ h.inv.bits_le home psl
      rw [addLoop, hcurrent]
      dsimp only
      rw [if_neg (h.not_match hagree hcurrent)]
      split
      · next hpoor =>
        have hswap := h.swap hcurrent hpoor
        rw [← hnext] at hswap
        obtain ⟨t', hrun, hadded⟩ := addLoop_absent hagree hswap (by omega : k < fuel)
        rw [Nat.mod_eq_of_lt (by omega : current.psl + 1 < 2 ^ 32)]
        refine ⟨t', hrun, hadded.inv, hadded.hashbits, ?_⟩
        have hset := entries_set h.slot_lt (some node)
        simpa [hcurrent, held_some, hadded.entries] using hset
      · next hrich =>
        have hpass := h.pass hcurrent (Nat.not_lt.mp hrich)
        rw [← hnext] at hpass
        rw [Nat.mod_eq_of_lt (by omega : node.psl + 1 < 2 ^ 32)]
        exact addLoop_absent hagree hpass (by omega)

theorem add_absent (h : t.Inv hash) (hagree : Agrees cs hash) (value : V) (hhas : ¬ t.Has cs key)
    (hroom : t.entries.card < t.size) :
    ∃ t', t.add cs (hash key) key value = .ok (.success, t') ∧ Added hash t t' (key, value) := by
  obtain ⟨z, hz, hfree⟩ := exists_free hroom
  have hlt := home_lt h.bits_le (hash key)
  have hpos : t.pos (t.home hash key) 0 = t.home hash key := by
    rw [pos_eq h.bits_le, Nat.add_zero, Nat.mod_eq_of_lt hlt]
  obtain ⟨s, hs, hnext⟩ := exists_prev hlt
  have hgap := gap_lt (h := t.home hash key) hz
  have hstart : Carried cs hash key t (t.pos (t.home hash key) 0)
      (gap t.size (t.home hash key) z) ⟨key, value, hash key, 0⟩ := by
    rw [hpos]
    exact {
      inv := h
      slot_lt := hlt
      sits := ⟨rfl, Nat.mod_eq_of_lt hlt, t.size_pos⟩
      fits := ⟨s, hs, hnext, Nat.zero_le _⟩
      ahead_lt := hgap
      free := by rwa [walk_gap hlt hz]
      absent := fun _ _ current hcurrent hsame => hhas ⟨_, Nat.mod_lt _ t.size_pos, current, hcurrent, hsame⟩ }
  exact addLoop_absent hagree hstart (by omega)

theorem addLoop_has (h : t.Inv hash) (hagree : Agrees cs hash) (hs : s < t.size) {target : Node V}
    (htarget : t.slots s = some target) (hsame : sameKey cs target.key key = true) :
    ∀ {fuel psl : Nat} {node : Node V}, node.psl = psl → psl ≤ target.psl → target.psl < fuel + psl →
      addLoop cs (t.home hash key) (hash key) key fuel t psl node = .ok (.alreadyExists, t)
  | 0, psl, node, hnode, hle, hlt => by omega
  | fuel + 1, psl, node, hnode, hle, hlt => by
    obtain ⟨current, hcurrent, hpsl, hlast⟩ := h.on_way hagree hs htarget hsame hle
    rw [addLoop, hcurrent]
    dsimp only
    split
    · rfl
    · next hmatch =>
      have hne : psl ≠ target.psl := by
        intro heq
        rw [hlast heq] at hmatch
        exact hmatch ((hashmapMatch_iff hagree (h.sits s hs target htarget)).mpr hsame)
      have hsize := size_le h.bits_le
      have hbound := (h.sits s hs target htarget).psl_lt
      rw [if_neg (by omega : ¬ current.psl < node.psl), Nat.mod_eq_of_lt (by omega : psl + 1 < 2 ^ 32)]
      exact addLoop_has h hagree hs htarget hsame (by show (node.psl + 1) % 2 ^ 32 = _; omega) (by omega) (by omega)

theorem add_has (h : t.Inv hash) (hagree : Agrees cs hash) (value : V) (hhas : t.Has cs key) :
    t.add cs (hash key) key value = .ok (.alreadyExists, t) := by
  obtain ⟨s, hs, target, htarget, hsame⟩ := hhas
  have hpsl := (h.sits s hs target htarget).psl_lt
  exact addLoop_has h hagree hs htarget hsame rfl (Nat.zero_le _) (by omega)

/-! ### Deleting -/

theorem update_over {β : Type} {f : Nat → β} {a b : Nat} (h : a ≠ b) (x y z : β) :
    update (update (update f b x) a y) b z = update (update f b z) a y := by
  rw [update_comm h, update_idem]

/-- The state of `hashmap_delete_node` when slot `entry` is to be overwritten: it counts as a hole of depth `v`. -/
structure Hole (hash : Key → UInt32) (t : Table V) (entry v : Nat) : Prop where
  bits_pos : 1 ≤ t.hashbits
  bits_le : t.hashbits ≤ 32
  entry_lt : entry < t.size
  sits : ∀ s < t.size, s ≠ entry → ∀ node, t.slots s = some node → Sits hash t s node
  ordered : Ordered t.size (update t.depth entry v)

/-- The table after a node left: free slots stay free. -/
structure Left (hash : Key → UInt32) (t : Table V) (entry : Nat) (t' : Table V) : Prop where
  inv : t'.Inv hash
  hashbits : t'.hashbits = t.hashbits
  entries : t'.entries = (t.set entry none).entries
  free : ∀ s, s ≠ entry → t.slots s = none → t'.slots s = none

variable {entry v : Nat}

theorem Hole.next_ne (h : Hole hash t entry v) : next t.size entry ≠ entry := by
  have hn := one_lt_size h.bits_pos
  rw [next_eq h.entry_lt]
  split_ifs <;> omega

theorem Hole.close (h : Hole hash t entry v) (hnext : t.depth (next t.size entry) ≤ 1) :
    Left hash t entry (t.set entry none) := by
  have hlowered : Ordered t.size (update t.depth entry 0) := by
    have hlow := h.ordered.lower h.entry_lt (one_lt_size h.bits_pos) (v := 0) (Nat.zero_le _)
      (by rw [update_of_ne h.next_ne]; exact hnext)
    rwa [update_idem] at hlow
  refine ⟨?_, rfl, rfl, fun s hs hfree => by rw [set_slots_ne t _ hs]; exact hfree⟩
  exact {
    bits_pos := h.bits_pos
    bits_le := h.bits_le
    sits := fun s hs node hnode => by
      by_cases hse : s = entry
      · subst hse
        rw [set_slots_self] at hnode
        cases hnode
      · rw [set_slots_ne t _ hse] at hnode
        obtain ⟨hv, hp, hl⟩ := h.sits s hs hse node hnode
        exact ⟨hv, hp, hl⟩
    ordered := by
      rw [depth_set]
      exact hlowered
    anchored := ⟨entry, h.entry_lt, by rw [depth_none (set_slots_self t entry none)]; omega⟩ }

theorem Hole.move (h : Hole hash t entry v)
    (hnode : t.slots (next t.size entry) = some node) (hpsl : node.psl ≠ 0) {moved : Node V}
    (hmoved : moved = { node with psl := node.psl - 1 }) :
    Hole hash ((t.set (next t.size entry) (some moved)).set entry (some moved)) (next t.size entry) (node.psl + 1) := by
  have hne := h.next_ne
  have hlt := next_lt h.entry_lt
  have hdepth := depth_some hnode
  have hstep := h.ordered entry h.entry_lt
  rw [update_self, update_of_ne hne] at hstep
  have hpslm : moved.psl = node.psl - 1 := by rw [hmoved]
  refine ⟨h.bits_pos, h.bits_le, hlt, fun s hs hsn x hx => ?_, ?_⟩
  · by_cases hse : s = entry
    · subst hse
      rw [set_slots_self] at hx
      cases hx
      obtain ⟨hv, hp, hl⟩ := h.sits _ hlt hne node hnode
      subst hmoved
      refine ⟨hv, next_inj (Nat.mod_lt _ t.size_pos) h.entry_lt ?_, by show node.psl - 1 < t.size; omega⟩
      show next t.size ((hashBits32 node.hashval t.hashbits + (node.psl - 1)) % t.size) = next t.size s
      rw [next_walk, Nat.sub_add_cancel (by omega), hp]
    · rw [set_slots_ne _ _ hse, set_slots_ne _ _ hsn] at hx
      obtain ⟨hv, hp, hl⟩ := h.sits s hs hse x hx
      exact ⟨hv, hp, hl⟩
  · have hlow := h.ordered.lower h.entry_lt (one_lt_size h.bits_pos) (v := node.psl) (by rw [update_self]; omega)
      (by rw [update_of_ne hne, hdepth])
    rw [update_idem] at hlow
    have heq : update ((t.set (next t.size entry) (some moved)).set entry (some moved)).depth (next t.size entry)
        (node.psl + 1) = update t.depth entry node.psl := by
      rw [depth_set, depth_set, update_over hne.symm, ← hdepth, update_eq_self]
      congr 1
      simp
      omega
    rw [heq]
    exact hlow

theorem entries_move (h : Hole hash t entry v) {moved : Node V}
    (hnode : t.slots (next t.size entry) = some node) (hkey : moved.key = node.key) (hvalue : moved.value = node.value) :
    (((t.set (next t.size entry) (some moved)).set entry (some moved)).set (next t.size entry) none).entries =
      (t.set entry none).entries := by
  have hne := h.next_ne
  have htable : ((t.set (next t.size entry) (some moved)).set entry (some moved)).set (next t.size entry) none =
      ((t.set entry none).set (next t.size entry) none).set entry (some moved) := by
    unfold set
    dsimp only
    rw [update_over hne.symm, update_over hne, update_comm hne]
  have hclear := entries_set (t := t.set entry none) (i := next t.size entry) (next_lt h.entry_lt) none
  have hput := entries_set (t := (t.set entry none).set (next t.size entry) none) (i := entry) h.entry_lt (some moved)
  rw [set_slots_ne _ _ hne, hnode, held_some, held_none, add_zero] at hclear
  rw [set_slots_ne _ _ hne.symm, set_slots_self, held_none, add_zero, held_some, hkey, hvalue] at hput
  rw [htable, hput, hclear]

/-- Only slots from `s` on have changed, where the ring begins at `z`, and there it still begins. A node that was not at home
    in the slot after `s` is now in `s`. -/
structure Before (t : Table V) (z s : Nat) (t' : Table V) : Prop where
  start : t'.depth z ≤ 1
  kept : ∀ i < t.size, gap t.size z i < gap t.size z s → t'.slots i = t.slots i
  moved : ∀ node, t.slots (next t.size s) = some node → node.psl ≠ 0 → t'.slots s = some { node with psl := node.psl - 1 }

theorem Hole.close_before (h : Hole hash t entry v) {z : Nat} (hstop : update t.depth entry v z ≤ 1)
    (hnext : t.depth (next t.size entry) ≤ 1) : Before t z entry (t.set entry none) := by
  refine ⟨?_, fun i _ hlt => set_slots_ne t _ (by rintro rfl; omega), fun node hnode hpsl => ?_⟩
  rotate_left
  · rw [depth_some hnode] at hnext
    omega
  rw [depth_set]
  by_cases hz : z = entry
  · simp [hz]
  · rwa [update_of_ne hz] at hstop ⊢

/-- What is left after the node of the next slot has moved into the hole, and the rest after it. -/
theorem Hole.move_left (h : Hole hash t entry v) (hnode : t.slots (next t.size entry) = some node) {moved : Node V}
    (hmoved : moved = { node with psl := node.psl - 1 }) {t' : Table V}
    (hleft : Left hash ((t.set (next t.size entry) (some moved)).set entry (some moved)) (next t.size entry) t') :
    Left hash t entry t' := by
  subst hmoved
  refine ⟨hleft.inv, hleft.hashbits, hleft.entries.trans (entries_move h hnode rfl rfl), fun s hs hfree => ?_⟩
  have hsn : s ≠ next t.size entry := by
    rintro rfl
    rw [hnode] at hfree
    cases hfree
  apply hleft.free s hsn
  rw [set_slots_ne _ _ hs, set_slots_ne _ _ hsn]
  exact hfree

theorem Hole.move_before (h : Hole hash t entry v) (hnode : t.slots (next t.size entry) = some node) {moved : Node V}
    (hmoved : moved = { node with psl := node.psl - 1 }) {t' : Table V} {z : Nat} (hz : z < t.size)
    (hzn : z ≠ next t.size entry)
    (hbefore : Before ((t.set (next t.size entry) (some moved)).set entry (some moved)) z (next t.size entry) t') :
    Before t z entry t' := by
  have hnext := gap_next hz h.entry_lt hzn.symm
  refine ⟨hbefore.start, fun i hi hlt => ?_, fun node' hnode' _ => ?_⟩
  · rw [hbefore.kept i hi (show gap t.size z i < gap t.size z (next t.size entry) by omega),
      set_slots_ne _ _ (by rintro rfl; omega), set_slots_ne _ _ (by rintro rfl; omega)]
  · cases hnode.symm.trans hnode'
    rw [hbefore.kept entry h.entry_lt (show gap t.size z entry < gap t.size z (next t.size entry) by omega), set_slots_self,
      hmoved]

theorem shift_spec : ∀ (fuel : Nat) {k pos entry v z : Nat} {t : Table V}, Hole hash t entry v → pos % t.size = entry →
    z < t.size → update t.depth entry v z ≤ 1 → gap t.size (next t.size entry) z = k → k < fuel →
    ∃ t', shift fuel t pos entry = .ok t' ∧ Left hash t entry t' ∧ Before t z entry t'
  | 0, k, pos, entry, v, z, t, h, hpos, hz, hstop, hgap, hfuel => by omega
  | fuel + 1, k, pos, entry, v, z, t, h, hpos, hz, hstop, hgap, hfuel => by
    have hne := h.next_ne
    have hlt := next_lt h.entry_lt
    have hnx : t.pos pos 1 = next t.size entry := by
      rw [pos_eq h.bits_le, ← hpos]
      unfold next
      rw [Nat.mod_add_mod]
    rw [shift, hnx, if_neg (Nat.not_le.mpr hlt)]
    rcases hnode : t.slots (next t.size entry) with _ | node
    · have hfree : t.depth (next t.size entry) ≤ 1 := by rw [depth_none hnode]; omega
      exact ⟨_, rfl, h.close hfree, h.close_before hstop hfree⟩
    · dsimp only
      by_cases hpsl : node.psl = 0
      · rw [if_pos hpsl]
        have hhome : t.depth (next t.size entry) ≤ 1 := by rw [depth_some hnode]; omega
        exact ⟨_, rfl, h.close hhome, h.close_before hstop hhome⟩
      · rw [if_neg hpsl]
        have hmove := h.move hnode hpsl rfl
        have hzn : z ≠ next t.size entry := by
          rintro rfl
          rw [update_of_ne hne, depth_some hnode] at hstop
          omega
        have hstep := h.ordered entry h.entry_lt
        rw [update_self, update_of_ne hne, depth_some hnode] at hstep
        have hk : k ≠ 0 := by
          rw [← hgap]
          exact (gap_ne_zero hlt hz).mpr hzn
        obtain ⟨t', hrun, hleft, hbefore⟩ := shift_spec fuel (k := k - 1) hmove (Nat.mod_eq_of_lt hlt) hz
          (by
            rw [update_of_ne hzn, depth_set, depth_set]
            by_cases hze : z = entry
            · subst hze
              rw [update_self] at hstop ⊢
              show node.psl - 1 + 1 ≤ 1
              omega
            · rw [update_of_ne hze, update_of_ne hzn]
              rwa [update_of_ne hze] at hstop)
          (by
            rw [set_size, set_size]
            rw [gap_eq hlt hz] at hgap
            rw [gap_eq (next_lt hlt) hz, next_eq hlt]
            split_ifs at hgap ⊢ <;> omega)
          (by omega)
        exact ⟨t', hrun, h.move_left hnode rfl hleft, h.move_before hnode rfl hz hzn hbefore⟩

/-- `t'` is what is left of `t` without one entry. -/
structure Removed (hash : Key → UInt32) (t t' : Table V) (e : Key × V) : Prop where
  inv : t'.Inv hash
  hashbits : t'.hashbits = t.hashbits
  entries : t.entries = t'.entries + {e}
  free : ∀ s, t.slots s = none → t'.slots s = none

theorem deleteNode_before (h : t.Inv hash) (hs : s < t.size) (hnode : t.slots s = some node) {z : Nat} (hz : z < t.size)
    (hstop : t.depth z ≤ 1) :
    ∃ t', t.deleteNode s node.hashval node.psl = .ok t' ∧ Removed hash t t' (node.key, node.value) ∧ Before t z s t' := by
  have hhole : Hole hash t s (t.depth s) :=
    ⟨h.bits_pos, h.bits_le, hs, fun s' hs' _ => h.sits s' hs', by rw [update_eq_self]; exact h.ordered⟩
  have hgap := gap_lt (h := next t.size s) hz
  obtain ⟨t', hrun, hleft, hbefore⟩ := shift_spec (t.size + 1) hhole (h.sits s hs node hnode).place hz
    (by rw [update_eq_self]; exact hstop) rfl (by omega)
  refine ⟨t', hrun, ⟨hleft.inv, hleft.hashbits, ?_, fun i hfree => hleft.free i ?_ hfree⟩, hbefore⟩
  · have hset := entries_set hs none
    rw [hnode, held_some, held_none, add_zero] at hset
    rw [hleft.entries, hset]
  · rintro rfl
    rw [hnode] at hfree
    cases hfree

theorem deleteNode_spec (h : t.Inv hash) (hs : s < t.size) (hnode : t.slots s = some node) :
    ∃ t', t.deleteNode s node.hashval node.psl = .ok t' ∧ Removed hash t t' (node.key, node.value) := by
  obtain ⟨z, hz, hstop⟩ := h.anchored
  obtain ⟨t', hrun, hremoved, -⟩ := deleteNode_before h hs hnode hz hstop
  exact ⟨t', hrun, hremoved⟩

end Table

end OqsBind.Isc.Hashmap
