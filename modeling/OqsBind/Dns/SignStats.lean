import Mathlib.Algebra.Group.Nat.Defs
import Mathlib.Logic.Function.Basic

/-! Signing statistics (`stats.c`). The 64-bit counters of `isc_stats_t` are used in blocks of three. -/

namespace OqsBind.Dns.SignStats

inductive Operation where
  | sign | refresh
deriving DecidableEq, Repr

/-- The counters at `i * dnssecsign_block_size`, the first of which says which key it is. -/
@[ext] structure Block where
  kval : Nat
  count : Operation → Nat

structure Stats where
  numKeys : Nat
  blocks : Nat → Block

namespace Stats

/-- `isc_stats_set` of the first counter. -/
def setKey (stats : Stats) (kval i : Nat) : Stats :=
  { stats with blocks := Function.update stats.blocks i { stats.blocks i with kval } }

def set (stats : Stats) (val i : Nat) (operation : Operation) : Stats :=
  let count := Function.update (stats.blocks i).count operation val
  { stats with blocks := Function.update stats.blocks i { stats.blocks i with count } }

def increment (stats : Stats) (i : Nat) (operation : Operation) : Stats :=
  stats.set (((stats.blocks i).count operation + 1) % 2 ^ 64) i operation

/-- `isc_stats_resize`. Each counter is copied by way of a `uint32_t`. -/
def resize (stats : Stats) (numKeys : Nat) : Stats :=
  if stats.numKeys ≥ numKeys then stats
  else ⟨numKeys, fun i => if i < stats.numKeys then
    ⟨(stats.blocks i).kval % 2 ^ 32, fun o => (stats.blocks i).count o % 2 ^ 32⟩ else ⟨0, fun _ => 0⟩⟩

end Stats

structure Key where
  id : UInt16
  alg : UInt8
  alg_ne : alg ≠ 0
deriving DecidableEq

/-- The algorithm in front of the key tag. -/
def Key.kval (key : Key) : Nat := key.alg.toNat <<< 16 ||| key.id.toNat

/-- `dns_dnssecsignstats_create`. -/
def Stats.create : Stats := ⟨4, fun _ => ⟨0, fun _ => 0⟩⟩

/-- The loops over the blocks: the first one with this value for its key. -/
def Stats.lookup (stats : Stats) (kval : Nat) : Option Nat :=
  (List.range stats.numKeys).find? fun i => (stats.blocks i).kval % 2 ^ 32 == kval

def dnssecsignstatsIncrement (stats : Stats) (key : Key) (operation : Operation) : Stats :=
  match stats.lookup key.kval with
  | some i => stats.increment i operation
  | none =>
    match stats.lookup 0 with
    | some i => (stats.setKey key.kval i).increment i operation
    | none =>
      let nidx := stats.numKeys
      let grown := (stats.resize (stats.numKeys * 2)).setKey key.kval nidx
      ((grown.set 0 nidx .sign).set 0 nidx .refresh).increment nidx operation

def dnssecsignstatsClear (stats : Stats) (key : Key) : Stats :=
  match stats.lookup key.kval with
  | some i => ((stats.setKey 0 i).set 0 i .sign).set 0 i .refresh
  | none => stats

inductive Op where
  | increment (key : Key) (operation : Operation)
  | clear (key : Key)

/-- The storage, and how often each key was counted since it was cleared. -/
structure World where
  stats : Stats
  counts : Key → Operation → Nat

def World.create : World := ⟨.create, fun _ _ => 0⟩

def World.step (w : World) : Op → Option World
  | .increment key operation => some ⟨dnssecsignstatsIncrement w.stats key operation,
      Function.update w.counts key (Function.update (w.counts key) operation (w.counts key operation + 1))⟩
  | .clear key => some ⟨dnssecsignstatsClear w.stats key, Function.update w.counts key fun _ => 0⟩

end OqsBind.Dns.SignStats
