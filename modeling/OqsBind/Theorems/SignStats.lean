import OqsBind.Dns.SignStats
import OqsBind.Lib.Agents
import Mathlib.Data.Nat.Bitwise

/-! Signing statistics are exact for each key, as long as no counter has reached `2 ^ 32` when the storage grows. -/

namespace OqsBind.Dns.SignStats
open Agents Function

/-- What the first counter of a block says. -/
def code : Option Key → Nat
  | none => 0
  | some key => key.kval

theorem kval_eq (key : Key) : key.kval = key.alg.toNat * 65536 + key.id.toNat := by
  rw [Key.kval, ← Nat.shiftLeft_add_eq_or_of_lt key.id.toNat_lt, Nat.shiftLeft_eq]

theorem kval_pos (key : Key) : 0 < key.kval := by
  have : key.alg.toNat ≠ 0 := fun h => key.alg_ne (UInt8.toNat.inj h)
  rw [kval_eq]
  omega

theorem code_lt (x : Option Key) : code x < 2 ^ 32 := by
  cases x with
  | none => exact Nat.two_pow_pos 32
  | some key =>
    have := key.alg.toNat_lt
    have := key.id.toNat_lt
    rw [code, kval_eq]
    omega

theorem code_inj : ∀ {x y : Option Key}, code x = code y → x = y
  | none, none, _ => rfl
  | none, some key, h => absurd h (kval_pos key).ne
  | some key, none, h => absurd h (kval_pos key).ne'
  | some ⟨id, alg, _⟩, some ⟨id', alg', _⟩, h => by
    have := id.toNat_lt
    have := id'.toNat_lt
    simp only [code, kval_eq] at h
    obtain rfl : id = id' := UInt16.toNat.inj (by omega)
    obtain rfl : alg = alg' := UInt8.toNat.inj (by omega)
    rfl

/-- The block of a key, or a free one. -/
def block (counts : Key → Operation → Nat) (x : Option Key) : Block :=
  ⟨code x, fun o => x.elim 0 (counts · o) % 2 ^ 64⟩

/-- Which key has which block. -/
structure Table (w : World) (keys : Nat → Option Key) : Prop where
  pos : 0 < w.stats.numKeys
  blocks : ∀ i, w.stats.blocks i = block w.counts (keys i)
  bound : ∀ i key, keys i = some key → i < w.stats.numKeys
  once : ∀ i j key, keys i = some key → keys j = some key → i = j
  all : ∀ key o, w.counts key o ≠ 0 → ∃ i, keys i = some key

theorem table_create : Table .create fun _ => none :=
  ⟨by decide, fun _ => rfl, nofun, nofun, fun _ _ h => absurd rfl h⟩

variable {w w' : World} {keys : Nat → Option Key} {i : Nat} {key : Key} {op : Op}

namespace Table
variable (h : Table w keys)
include h

theorem lookup_some {x : Option Key} (hfind : w.stats.lookup (code x) = some i) : i < w.stats.numKeys ∧ keys i = x := by
  have hkval := List.find?_some hfind
  rw [h.blocks, block, Nat.mod_eq_of_lt (code_lt _), beq_iff_eq] at hkval
  exact ⟨List.mem_range.mp (List.mem_of_find?_eq_some hfind), code_inj hkval⟩

theorem lookup_none (hfind : w.stats.lookup key.kval = none) (i : Nat) : keys i ≠ some key := by
  intro hi
  have hkval := List.find?_eq_none.mp hfind i (List.mem_range.mpr (h.bound i key hi))
  rw [h.blocks, block, hi, Nat.mod_eq_of_lt (code_lt _), beq_iff_eq] at hkval
  exact hkval rfl

theorem counts_zero (hno : ∀ j, keys j ≠ some key) : w.counts key = fun _ => 0 := by
  funext o
  by_contra hne
  obtain ⟨j, hj⟩ := h.all key o hne
  exact hno j hj

/-- A block is written for one key at most, and only this key is counted otherwise than before. -/
theorem write {f : Operation → Nat} {x : Option Key} (hi : i < w.stats.numKeys)
    (hkey : keys i = some key ∨ keys i = none ∧ ∀ j, keys j ≠ some key) (hx : x = some key ∨ x = none ∧ f = fun _ => 0) :
    Table ⟨⟨w.stats.numKeys, update w.stats.blocks i (block (update w.counts key f) x)⟩, update w.counts key f⟩
      (update keys i x) := by
  have hother : ∀ j, j ≠ i → keys j ≠ some key := fun j hji hj =>
    hkey.elim (fun hown => hji (h.once j i key hj hown)) fun hfree => hfree.2 j hj
  refine ⟨h.pos, fun j => ?_, fun j k hj => ?_, fun j j' k hj hj' => ?_, fun k o hk => ?_⟩
  · by_cases hji : j = i
    · simp [hji]
    · have hne := hother j hji
      simp only [update_of_ne hji, h.blocks, block]
      cases hj : keys j with
      | none => rfl
      | some k =>
        have hk : k ≠ key := fun heq => hne (heq ▸ hj)
        simp [update_of_ne hk]
  · have hbound := h.bound j k
    rw [update_apply] at hj
    grind
  · have honce := h.once j j' k
    rw [update_apply] at hj hj'
    grind
  · by_cases heq : k = key
    · rcases hx with rfl | ⟨-, rfl⟩
      · exact ⟨i, by rw [update_self, heq]⟩
      · simp [heq] at hk
    · simp only [update_of_ne heq] at hk
      obtain ⟨j, hj⟩ := h.all k o hk
      have hji : j ≠ i := by
        rintro rfl
        simp [hj, heq] at hkey
      exact ⟨j, by rw [update_of_ne hji, hj]⟩

/-- The key is counted in its block, or in a free one if it has none. -/
theorem put (o : Operation) (hi : i < w.stats.numKeys)
    (hkey : keys i = some key ∨ keys i = none ∧ ∀ j, keys j ≠ some key) :
    Table ⟨(w.stats.setKey key.kval i).increment i o,
      update w.counts key (update (w.counts key) o (w.counts key o + 1))⟩ (update keys i (some key)) := by
  have hcount : ∀ o, (w.stats.blocks i).count o = w.counts key o % 2 ^ 64 := fun o => by
    rcases hkey with hown | ⟨hfree, hno⟩
    · rw [h.blocks, hown]
      rfl
    · rw [h.blocks, hfree, h.counts_zero hno]
      rfl
  have hblock : (w.stats.setKey key.kval i).increment i o = ⟨w.stats.numKeys, update w.stats.blocks i
      (block (update w.counts key (update (w.counts key) o (w.counts key o + 1))) (some key))⟩ := by
    simp only [Stats.increment, Stats.set, Stats.setKey, update_self, update_idem, block]
    congr 2
    ext1
    · rfl
    · funext o'
      by_cases ho : o' = o
      · simp [ho, hcount]
      · simp [ho, hcount]
  rw [hblock]
  exact h.write hi hkey (.inl rfl)

theorem clear (key : Key) : ∃ keys', Table ⟨dnssecsignstatsClear w.stats key, update w.counts key fun _ => 0⟩ keys' := by
  unfold dnssecsignstatsClear
  cases hfind : w.stats.lookup key.kval with
  | none =>
    rw [← h.counts_zero (h.lookup_none hfind), update_eq_self]
    exact ⟨keys, h⟩
  | some i =>
    obtain ⟨hi, hkey⟩ := h.lookup_some (x := some key) hfind
    have hblock : (((w.stats.setKey 0 i).set 0 i .sign).set 0 i .refresh) =
        ⟨w.stats.numKeys, update w.stats.blocks i (block (update w.counts key fun _ => 0) none)⟩ := by
      simp only [Stats.set, Stats.setKey, update_self, update_idem, block]
      congr 2
      ext1
      · rfl
      · funext o
        cases o <;> rfl
    simp only [hblock]
    exact ⟨_, h.write hi (.inl hkey) (.inr ⟨rfl, rfl⟩)⟩

end Table

theorem set_self {stats : Stats} {val : Nat} {o : Operation} (h : (stats.blocks i).count o = val) :
    stats.set val i o = stats := by
  rw [Stats.set, ← h, update_eq_self, update_eq_self]

/-- The storage grows only while each counter has at most 32 bits. -/
def Narrow (w : World) : Op → Prop
  | .increment key _ => w.stats.lookup key.kval = none → w.stats.lookup 0 = none →
      ∀ i < w.stats.numKeys, ∀ o, (w.stats.blocks i).count o < 2 ^ 32
  | .clear _ => True

theorem Table.free (h : Table w keys) (hi : w.stats.numKeys ≤ i) : keys i = none := by
  by_contra hne
  obtain ⟨k, hk⟩ := Option.ne_none_iff_exists'.mp hne
  exact absurd (h.bound _ k hk) (Nat.not_lt.mpr hi)

theorem Table.resize (h : Table w keys) (hnarrow : ∀ i < w.stats.numKeys, ∀ o, (w.stats.blocks i).count o < 2 ^ 32) :
    w.stats.resize (w.stats.numKeys * 2) = ⟨w.stats.numKeys * 2, w.stats.blocks⟩ := by
  have hpos := h.pos
  rw [Stats.resize, if_neg (by omega)]
  congr 1
  funext i
  split_ifs with hi
  · ext o
    · rw [h.blocks]
      exact Nat.mod_eq_of_lt (code_lt _)
    · exact Nat.mod_eq_of_lt (hnarrow i hi o)
  · rw [h.blocks, h.free (Nat.le_of_not_lt hi)]
    rfl

theorem Table.step (h : Table w keys) (hnarrow : Narrow w op) (hstep : w.step op = some w') : ∃ keys', Table w' keys' := by
  cases op with
  | clear key =>
    cases hstep
    exact h.clear key
  | increment key o =>
    cases hstep
    unfold dnssecsignstatsIncrement
    cases hfind : w.stats.lookup key.kval with
    | some i =>
      obtain ⟨hi, hkey⟩ := h.lookup_some (x := some key) hfind
      have hput := h.put o hi (.inl hkey)
      have hsame : w.stats.setKey key.kval i = w.stats := by
        have hkval : (w.stats.blocks i).kval = key.kval := by
          rw [h.blocks, hkey]
          rfl
        rw [Stats.setKey, ← hkval, update_eq_self]
      rw [hsame] at hput
      exact ⟨_, hput⟩
    | none =>
      have hno := h.lookup_none hfind
      cases hfree : w.stats.lookup 0 with
      | some i =>
        obtain ⟨hi, hkey⟩ := h.lookup_some (x := none) hfree
        exact ⟨_, h.put o hi (.inr ⟨hkey, hno⟩)⟩
      | none =>
        have hpos := h.pos
        have hlt : w.stats.numKeys < w.stats.numKeys * 2 := by omega
        have hgrown : Table ⟨⟨w.stats.numKeys * 2, w.stats.blocks⟩, w.counts⟩ keys :=
          ⟨hpos.trans hlt, h.blocks, fun i k hi => (h.bound i k hi).trans hlt, h.once, h.all⟩
        -- the counters of the new block are 0 already
        have hzero : ∀ o, (w.stats.blocks w.stats.numKeys).count o = 0 := fun o => by
          rw [h.blocks, h.free le_rfl]
          rfl
        simp only [h.resize (hnarrow hfind hfree)]
        rw [set_self, set_self]
        · exact ⟨_, hgrown.put o hlt (.inr ⟨h.free le_rfl, hno⟩)⟩
        · simp [Stats.setKey, hzero]
        · simp [Stats.setKey, Stats.set, hzero]

/-- What is stored for a key. -/
def stored (stats : Stats) (key : Key) (o : Operation) : Nat :=
  match stats.lookup key.kval with
  | some i => (stats.blocks i).count o
  | none => 0

/-- No key has two blocks, and what is stored for each is what was counted. -/
structure Exact (w : World) : Prop where
  once : ∀ i < w.stats.numKeys, ∀ j < w.stats.numKeys, (w.stats.blocks i).kval ≠ 0 →
    (w.stats.blocks i).kval = (w.stats.blocks j).kval → i = j
  stored : ∀ key o, stored w.stats key o = w.counts key o % 2 ^ 64

theorem Table.exact (h : Table w keys) : Exact w where
  once i _ j _ hne heq := by
    rw [h.blocks] at hne
    rw [h.blocks, h.blocks] at heq
    cases hi : keys i with
    | none => simp [hi, block, code] at hne
    | some key => exact h.once i j key hi (by rw [← code_inj heq, hi])
  stored key o := by
    unfold SignStats.stored
    cases hfind : w.stats.lookup key.kval with
    | none => rw [h.counts_zero (h.lookup_none hfind), Nat.zero_mod]
    | some i =>
      simp only [h.blocks, (h.lookup_some (x := some key) hfind).2]
      rfl

/-- As long as the storage grows only while each counter has at most 32 bits, the statistics are exact. -/
theorem counters_exact (ops : List Op) (h : EachStep World.step Narrow .create ops) : Always World.step Exact .create ops := by
  have hkept : Always World.step (fun w => ∃ keys, Table w keys) .create ops :=
    h.always (fun w op w' ⟨_, hw⟩ hop hstep => hw.step hop hstep) ⟨_, table_create⟩
  exact hkept.mono fun w ⟨_, hw⟩ => hw.exact

def rsa (id : UInt16) : Key := ⟨id, 8, by decide⟩

/-- Five keys sign, the last of which needs more storage; the second is cleared and a sixth gets its block. -/
def fiveKeys : List Op :=
  [.increment (rsa 1) .sign, .increment (rsa 2) .sign, .increment (rsa 3) .refresh, .increment (rsa 4) .sign,
    .increment (rsa 5) .sign, .clear (rsa 2), .increment (rsa 6) .refresh]

theorem fiveKeys_exact : EachStep World.step Narrow .create fiveKeys ∧ Always World.step Exact .create fiveKeys ∧
    (fiveKeys.foldlM World.step .create).map (fun w =>
      (w.stats.numKeys, w.stats.lookup (rsa 6).kval, stored w.stats (rsa 5) .sign, stored w.stats (rsa 2) .sign)) =
        some (8, some 1, 1, 0) := by
  have hops : EachStep World.step Narrow .create fiveKeys := by
    refine .cons rfl (fun _ hfull => absurd hfull (by decide)) ?_
    refine .cons rfl (fun _ hfull => absurd hfull (by decide)) ?_
    refine .cons rfl (fun _ hfull => absurd hfull (by decide)) ?_
    refine .cons rfl (fun _ hfull => absurd hfull (by decide)) ?_
    refine .cons rfl (fun _ _ i hi o => ?_) ?_
    · cases o <;> revert i <;> decide
    refine .cons rfl trivial (.cons rfl (fun _ hfull => absurd hfull (by decide)) trivial)
  exact ⟨hops, counters_exact _ hops, by decide⟩

/-- A key has made that many signatures; there are no other keys. -/
def signed (n : Nat) : World :=
  ⟨⟨4, update (fun _ => ⟨0, fun _ => 0⟩) 0 ⟨(rsa 1).kval, update (fun _ => 0) .sign n⟩⟩,
    update (fun _ _ => 0) (rsa 1) (update (fun _ => 0) .sign n)⟩

theorem step_signed {n : Nat} (hn : n + 1 < 2 ^ 64) :
    (signed n).step (.increment (rsa 1) .sign) = some (signed (n + 1)) := by
  have hfind : (signed n).stats.lookup (rsa 1).kval = some 0 := rfl
  simp only [World.step, dnssecsignstatsIncrement, hfind]
  simp only [Stats.increment, Stats.set, signed, update_self, update_idem, Nat.mod_eq_of_lt hn]

theorem Always.of_signed {P : World → Prop} {ops : List Op} : ∀ {m n : Nat}, n + m < 2 ^ 64 →
    Always World.step P (signed n) (List.replicate m (.increment (rsa 1) .sign) ++ ops) →
    Always World.step P (signed (n + m)) ops
  | 0, n, _, h => h
  | m + 1, n, hn, h => by
    rw [show n + (m + 1) = n + 1 + m by omega] at hn ⊢
    exact Always.of_signed hn (h.2 _ (step_signed (by omega)))

/-- A key with `2 ^ 32` signatures has none left when there is no room for a fifth key. -/
theorem signatures_lost : ¬ Always World.step Exact .create (List.replicate (2 ^ 32) (.increment (rsa 1) .sign) ++
    [.increment (rsa 2) .sign, .increment (rsa 3) .sign, .increment (rsa 4) .sign, .increment (rsa 5) .sign]) := by
  intro h
  rw [show 2 ^ 32 = (2 ^ 32 - 1) + 1 by rfl, List.replicate_succ] at h
  have hstart : World.create.step (.increment (rsa 1) .sign) = some (signed 1) := by
    have hnew : World.create.stats.lookup (rsa 1).kval = none := rfl
    have hfree : World.create.stats.lookup 0 = some 0 := rfl
    simp only [World.step, dnssecsignstatsIncrement, hnew, hfree]
    simp [World.create, Stats.create, Stats.increment, Stats.set, Stats.setKey, signed]
  have hfull := Always.of_signed (by omega) (h.2 _ hstart)
  have hexact := (((((hfull.2 _ rfl).2 _ rfl).2 _ rfl).2 _ rfl)).stored (rsa 1) .sign
  exact absurd hexact (by decide)

end OqsBind.Dns.SignStats
