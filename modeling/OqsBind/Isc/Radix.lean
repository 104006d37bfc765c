import OqsBind.Isc.Ascii

/-! Radix trees (`isc/radix.c`). A node is seen with the path of its parents. -/

namespace OqsBind.Isc.Radix

/-- `RADIX_MAXBITS`. -/
def MAXBITS : Nat := 128

/-- The families that nodes have data for: `RADIX_V4` and `RADIX_V6`. -/
inductive Family where
  | v4
  | v6
deriving DecidableEq, Repr

/-- `AF_INET`, `AF_INET6`, and `AF_UNSPEC` for "any". -/
inductive AddressFamily where
  | inet
  | inet6
  | unspec
deriving DecidableEq, Repr

/-- `isc_prefix_t`. The address has 16 octets; what is not set is zero. -/
structure Prefix where
  family : AddressFamily
  bitlen : Nat
  add : Bytes
deriving DecidableEq, Repr

/-- `ISC_RADIX_FAMILY`. -/
def Prefix.radixFamily (p : Prefix) : Family := if p.family = .inet6 then .v6 else .v4

/-- `node_num[i]`, which is -1 for none, and `data[i]`. -/
structure Slot where
  nodeNum : Option Nat
  data : Option Bool
deriving DecidableEq, Repr

abbrev Slots := Family → Slot

def Slots.empty : Slots := fun _ => ⟨none, none⟩

structure Node where
  bit : Nat
  pfx : Option Prefix
  slots : Slots

inductive Tree where
  | nil
  | node (n : Node) (l r : Tree)

/-- `isc_radix_tree_t`. -/
structure RadixTree where
  head : Tree
  numAddedNode : Nat

inductive Fault where
  | insist
deriving DecidableEq, Repr

/-- `isc_radix_create`. -/
def create : RadixTree := ⟨.nil, 0⟩

/-- `BIT_TEST(addr[bit >> 3], 0x80 >> (bit & 0x07))`. -/
def bitTest (addr : Bytes) (bit : Nat) : Bool := (addr.getD (bit / 8) 0).toNat.testBit (7 - bit % 8)

/-- `_comp_with_mask`. -/
def compWithMask (addr dest : Bytes) (mask : Nat) : Bool :=
  if mask = 0 then true
  else if addr.take (mask / 8) = dest.take (mask / 8) then
    let n := mask / 8
    let m := UInt8.ofNat (0xff <<< (8 - mask % 8))
    mask % 8 = 0 || addr.getD n 0 &&& m = dest.getD n 0 &&& m
  else false

def searchPath (addr : Bytes) (bitlen : Nat) : Tree → List Node
  | .nil => []
  | .node n l r =>
    let here := if n.pfx.isSome then [n] else []
    if n.bit < bitlen then here ++ (if bitTest addr n.bit then searchPath addr bitlen r else searchPath addr bitlen l)
    else here

/-- One round of the loop over the stack. -/
def searchStep (p : Prefix) (target : Option Node) (n : Node) : Option Node :=
  if p.bitlen < n.bit then target
  else
    match n.pfx with
    | none => target
    | some q =>
      if compWithMask q.add p.add q.bitlen then
        match (n.slots p.radixFamily).nodeNum, target with
        | none, _ => target
        | some _, none => some n
        | some num, some t => if (t.slots p.radixFamily).nodeNum.any (num < ·) then some n else target
      else target

/-- `isc_radix_search`. -/
def search (radix : RadixTree) (p : Prefix) : Option Node :=
  (searchPath p.add p.bitlen radix.head).foldr (fun n target => searchStep p target n) none

structure Frame where
  node : Node
  right : Bool
  other : Tree

/-- A node with its children and the path to the head. -/
structure Focus where
  node : Node
  l : Tree
  r : Tree
  path : List Frame

/-- A tree is put in the place that a frame leaves. -/
def Frame.plug (t : Tree) (f : Frame) : Tree :=
  if f.right then .node f.node f.other t else .node f.node t f.other

/-- The whole tree. -/
def Focus.tree (z : Focus) : Tree := z.path.foldl Frame.plug (.node z.node z.l z.r)

/-- Which way an address goes at a node. -/
def goesRight (addr : Bytes) (bit : Nat) : Bool := bit < MAXBITS && bitTest addr bit

/-- The walk down to a node with a prefix at or below which the new one belongs. It ends where there is no child. -/
def descend (addr : Bytes) (bitlen : Nat) : Tree → List Frame → Option Focus
  | .nil, _ => none
  | .node n l r, path =>
    if n.bit < bitlen ∨ n.pfx = none then
      if goesRight addr n.bit then (descend addr bitlen r (⟨n, true, l⟩ :: path)).or (some ⟨n, l, r, path⟩)
      else (descend addr bitlen l (⟨n, false, r⟩ :: path)).or (some ⟨n, l, r, path⟩)
    else some ⟨n, l, r, path⟩

/-- The first bit that is set in an octet that is not zero. -/
def firstBit (r : UInt8) : Nat := ((List.range 8).find? fun j => r.toNat.testBit (7 - j)).getD 8

/-- The loop that finds the first octet that differs. -/
def differLoop (addr test : Bytes) : (rounds i : Nat) → Nat
  | 0, i => i * 8
  | rounds + 1, i =>
    let r := addr.getD i 0 ^^^ test.getD i 0
    if r = 0 then differLoop addr test rounds (i + 1) else i * 8 + firstBit r

/-- The first bit that differs, but at most `checkBit`. -/
def differBit (addr test : Bytes) (checkBit : Nat) : Nat := min (differLoop addr test ((checkBit + 7) / 8) 0) checkBit

def climb (differ : Nat) (n : Node) (l r : Tree) : List Frame → Focus
  | [] => ⟨n, l, r, []⟩
  | f :: path =>
    if differ ≤ f.node.bit then
      if f.right then climb differ f.node f.other (.node n l r) path
      else climb differ f.node (.node n l r) f.other path
    else ⟨n, l, r, f :: path⟩

/-- The data of a new node, and the count of nodes. A node of another tree keeps its numbers, from the count on. -/
def numberNew (count : Nat) (p : Prefix) : Option Slots → Slots × Nat
  | some source => (fun i => match (source i).nodeNum with
      | some num => ⟨some (count + num), (source i).data⟩
      | none => ⟨none, none⟩, count)
  | none => (fun i => if p.family = .unspec ∨ i = p.radixFamily then ⟨some (count + 1), none⟩ else ⟨none, none⟩,
      count + 1)

/-- The data of a node that has the prefix already: only numbers that are not set are set. -/
def numberOld (count : Nat) (p : Prefix) (slots : Slots) : Option Slots → Slots × Nat
  | some source => (fun i => match (slots i).nodeNum, (source i).nodeNum with
      | none, some num => ⟨some (count + num), (source i).data⟩
      | _, _ => slots i, count)
  | none =>
    let free := fun i => (p.family = .unspec ∨ i = p.radixFamily) ∧ (slots i).nodeNum = none
    (fun i => if free i then ⟨some (count + 1), (slots i).data⟩ else slots i,
      if free .v4 ∨ free .v6 then count + 1 else count)

/-- What `_ref_prefix` insists on. -/
def Prefix.valid (p : Prefix) : Bool :=
  match p.family with
  | .inet => p.bitlen ≤ 32
  | .inet6 => p.bitlen ≤ 128
  | .unspec => p.bitlen = 0

def insist (cond : Bool) : Except Fault Unit := if cond then .ok () else .error .insist

/-- The new node goes below the node, above it, or beside it under a new parent without a prefix. -/
def place (p : Prefix) (test : Bytes) (differ : Nat) (new : Node) (z : Focus) : Except Fault Focus :=
  if z.node.bit = differ then
    if goesRight p.add z.node.bit then do
      insist (z.r matches .nil)
      return ⟨new, .nil, .nil, ⟨z.node, true, z.l⟩ :: z.path⟩
    else do
      insist (z.l matches .nil)
      return ⟨new, .nil, .nil, ⟨z.node, false, z.r⟩ :: z.path⟩
  else if p.bitlen = differ then
    if goesRight test p.bitlen then return ⟨new, .nil, .node z.node z.l z.r, z.path⟩
    else return ⟨new, .node z.node z.l z.r, .nil, z.path⟩
  else
    let glue : Node := ⟨differ, none, Slots.empty⟩
    if goesRight p.add differ then return ⟨new, .nil, .nil, ⟨glue, true, .node z.node z.l z.r⟩ :: z.path⟩
    else return ⟨new, .nil, .nil, ⟨glue, false, .node z.node z.l z.r⟩ :: z.path⟩

def insert (radix : RadixTree) (p : Prefix) (source : Option Slots) : Except Fault (Focus × Nat) :=
  match descend p.add p.bitlen radix.head [] with
  | none => do
    -- the tree is empty
    insist p.valid
    let (slots, count) := numberNew radix.numAddedNode p source
    return (⟨⟨p.bitlen, some p, slots⟩, .nil, .nil, []⟩, count)
  | some z =>
    match z.node.pfx with
    | none => .error .insist
    | some q => do
      let differ := differBit p.add q.add (min z.node.bit p.bitlen)
      let z := climb differ z.node z.l z.r z.path
      if differ = p.bitlen ∧ z.node.bit = p.bitlen then
        match z.node.pfx with
        | some _ =>
          let (slots, count) := numberOld radix.numAddedNode p z.node.slots source
          return ({ z with node := { z.node with slots } }, count)
        | none => do
          insist p.valid
          insist ((z.node.slots .v4).data = none ∧ (z.node.slots .v4).nodeNum = none)
          let (slots, count) := numberNew radix.numAddedNode p source
          return ({ z with node := { z.node with pfx := some p, slots } }, count)
      else do
        insist p.valid
        let (slots, count) := numberNew radix.numAddedNode p source
        let z ← place p q.add differ ⟨p.bitlen, some p, slots⟩ z
        return (z, count)

/-- The nodes that `RADIX_WALK` visits: those with a prefix, each before what is below it. -/
def walk : Tree → List (Prefix × Slots)
  | .nil => []
  | .node n l r =>
    match n.pfx with
    | some p => (p, n.slots) :: (walk l ++ walk r)
    | none => walk l ++ walk r

end OqsBind.Isc.Radix
