import Mathlib.Logic.Function.Basic
import Mathlib.Algebra.Group.Nat.Defs
import Mathlib.Order.Lattice

/-! The binary heap (`heap.c`). Subscripts start at one; the index callback keeps the position of every element with the
    element. -/

namespace OqsBind.Isc

/-- How a call ends the program. -/
inductive HeapAbort
  | require
  | insist
  | overflow
deriving DecidableEq, Repr

/-- The slots of `array` behind `last` are never read. -/
structure Heap (α : Type) where
  size : Nat
  sizeIncrement : Nat
  last : Nat
  array : Nat → α
  index : α → Nat

namespace Heap
variable {α : Type} [DecidableEq α] (compare : α → α → Bool)

def create [Inhabited α] (sizeIncrement : Nat) : Heap α where
  size := 0
  sizeIncrement := if sizeIncrement = 0 then 1024 else sizeIncrement
  last := 0
  array := fun _ => default
  index := fun _ => 0

/-- A write of a slot, with the call of the index callback that follows it. -/
def put (h : Heap α) (i : Nat) (elt : α) : Heap α :=
  { h with array := Function.update h.array i elt, index := Function.update h.index elt i }

/-- `INSIST(HEAPCONDITION(i))`. -/
def insisted (h : Heap α) (i : Nat) : Except HeapAbort (Heap α) :=
  if i = 1 ∨ ¬compare (h.array i) (h.array (i / 2)) then .ok h else .error .insist

def floatUp (h : Heap α) (i : Nat) (elt : α) : Except HeapAbort (Heap α) :=
  if 1 < i ∧ compare elt (h.array (i / 2)) then floatUp (h.put i (h.array (i / 2))) (i / 2) elt
  else (h.put i elt).insisted compare i
termination_by i

/-- The child that `sink_down` looks at. -/
def child (h : Heap α) (i : Nat) : Nat :=
  if 2 * i < h.last ∧ compare (h.array (2 * i + 1)) (h.array (2 * i)) then 2 * i + 1 else 2 * i

def sinkDown (h : Heap α) (i : Nat) (elt : α) : Except HeapAbort (Heap α) :=
  if 1 ≤ i ∧ i ≤ h.last / 2 ∧ ¬compare elt (h.array (h.child compare i)) then
    sinkDown (h.put i (h.array (h.child compare i))) (h.child compare i) elt
  else (h.put i elt).insisted compare i
termination_by h.last - i
decreasing_by
  simp only [put, child]
  split <;> omega

/-- The number of octets is a checked product of unsigned integers. -/
def resize (h : Heap α) : Except HeapAbort (Heap α) :=
  if (h.size + h.sizeIncrement) * 8 < 2 ^ 32 then .ok { h with size := h.size + h.sizeIncrement } else .error .overflow

def makeRoom (h : Heap α) (newLast : Nat) : Except HeapAbort (Heap α) := if newLast ≥ h.size then h.resize else .ok h

def insert (h : Heap α) (elt : α) : Except HeapAbort (Heap α) :=
  let newLast := (h.last + 1) % 2 ^ 32
  if newLast = 0 then .error .overflow
  else do
    let h ← h.makeRoom newLast
    floatUp compare { h with last := newLast } newLast elt

def delete (h : Heap α) (idx : Nat) : Except HeapAbort (Heap α) :=
  if ¬(1 ≤ idx ∧ idx ≤ h.last) then .error .require
  else
    let elt := h.array h.last
    let less := compare elt (h.array idx)
    let h' := { h with last := h.last - 1, index := Function.update h.index (h.array idx) 0 }
    if idx = h.last then .ok h'
    else if less then floatUp compare { h' with array := Function.update h.array idx elt } idx elt
    else sinkDown compare { h' with array := Function.update h.array idx elt } idx elt

def increased (h : Heap α) (idx : Nat) : Except HeapAbort (Heap α) :=
  if ¬(1 ≤ idx ∧ idx ≤ h.last) then .error .require else floatUp compare h idx (h.array idx)

def decreased (h : Heap α) (idx : Nat) : Except HeapAbort (Heap α) :=
  if ¬(1 ≤ idx ∧ idx ≤ h.last) then .error .require else sinkDown compare h idx (h.array idx)

def element (h : Heap α) (idx : Nat) : Option α := if idx ≤ h.last then some (h.array idx) else none

end Heap

/-! A heap of the cache: the headers of a node lock, the one that expires first at the root (`rbtdb.c`). -/

structure TtlHeap (α κ : Type) where
  heap : Heap α
  ttl : α → κ

namespace TtlHeap
variable {α κ : Type} [DecidableEq α] [LinearOrder κ]

def ttlSooner (s : TtlHeap α κ) (h1 h2 : α) : Bool := s.ttl h1 < s.ttl h2

/-- A new header goes into the heap with its time to live. -/
def add (s : TtlHeap α κ) (header : α) (ttl : κ) : Except HeapAbort (TtlHeap α κ) := do
  let s := { s with ttl := Function.update s.ttl header ttl }
  let heap ← s.heap.insert s.ttlSooner header
  return { s with heap }

/-- `dns__rbtdb_setttl`. -/
def setttl (s : TtlHeap α κ) (header : α) (newttl : κ) : Except HeapAbort (TtlHeap α κ) :=
  let oldttl := s.ttl header
  let s := { s with ttl := Function.update s.ttl header newttl }
  if s.heap.index header = 0 ∨ newttl = oldttl then .ok s
  else do
    let heap ← (if newttl < oldttl then s.heap.increased s.ttlSooner (s.heap.index header)
      else s.heap.decreased s.ttlSooner (s.heap.index header))
    return { s with heap }

/-- `dns__rbtdb_deletedata`. -/
def deletedata (s : TtlHeap α κ) (header : α) : Except HeapAbort (TtlHeap α κ) :=
  if s.heap.index header = 0 then .ok s
  else do
    let heap ← s.heap.delete s.ttlSooner (s.heap.index header)
    return { s with heap }

inductive Call (α κ : Type)
  | add (header : α) (ttl : κ)
  | setttl (header : α) (ttl : κ)
  | deletedata (header : α)

def call (s : TtlHeap α κ) : Call α κ → Except HeapAbort (TtlHeap α κ)
  -- The allocator gives out no header that is in use.
  | .add header ttl => if s.heap.index header ≠ 0 then .ok s else s.add header ttl
  | .setttl header ttl => s.setttl header ttl
  | .deletedata header => s.deletedata header

end TtlHeap

end OqsBind.Isc
