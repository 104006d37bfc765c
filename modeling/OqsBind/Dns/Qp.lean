import OqsBind.Dns.QpKey

/-! The qp-trie (`qp.c`, `qp_p.h`), single-threaded. A pointer to a cell is given by its reference. References and counters
    are plain numbers: no trie comes near the 2^22 chunks at which the 32-bit words of the source wrap. -/

namespace OqsBind.Dns.Qp
open Function

def QP_CHUNK_SIZE : Nat := 1024
def QP_MAX_FREE : Nat := QP_CHUNK_SIZE / 8
def QP_MIN_USED : Nat := QP_CHUNK_SIZE - QP_MAX_FREE

def makeRef (chunk cell : Nat) : Nat := QP_CHUNK_SIZE * chunk + cell
def refChunk (ref : Nat) : Nat := ref / QP_CHUNK_SIZE
def refCell (ref : Nat) : Nat := ref % QP_CHUNK_SIZE

/-- A leaf value: the pointer and the integer given to `dns_qp_insert`. -/
structure Leaf where
  pval : Nat
  ival : UInt32
deriving DecidableEq, Repr

/-- `qp_node_t`. The cells of a packed reader have constructors, in the place of `QPREADER_MAGIC`. -/
inductive Node where
  | leaf (l : Leaf)
  | branch (index : BitVec 64) (twigs : Nat)
  | readerMulti
  | readerBase (base : Nat) (root : Option Nat)
deriving DecidableEq, Repr

/-- A cell of zeros, which reads as a leaf with a null pointer. -/
def Node.zero : Node := .leaf ⟨0, 0⟩

/-- `popcountll`. -/
def popcount (w : BitVec 64) : Nat := (List.range 64).countP fun i => w.getLsbD i

/-- `branch_key_offset`. -/
def branchKeyOffset (index : BitVec 64) : Nat := (index >>> SHIFT_OFFSET).toNat

/-- `branch_count_bitmap_before`. -/
def branchCountBitmapBefore (index : BitVec 64) (bit : Nat) : Nat :=
  let mask := (1#64 <<< bit) - 1#64 - 3#64
  popcount (index &&& mask)

/-- `branch_twigs_size`. -/
def branchTwigsSize (index : BitVec 64) : Nat := branchCountBitmapBefore index SHIFT_OFFSET

/-- `branch_twig_pos`. -/
def branchTwigPos (index : BitVec 64) (bit : Nat) : Nat := branchCountBitmapBefore index bit

/-- `branch_has_twig`. -/
def branchHasTwig (index : BitVec 64) (bit : Nat) : Bool := (index &&& (1#64 <<< bit)) != 0#64

/-- `branch_keybit`. -/
def branchKeybit (index : BitVec 64) (key : Key) : Nat := qpkeyBit key (branchKeyOffset index)

/-- The index word of `MOVABLE_ROOT`, which makes the root a vector of one twig. -/
def movableRoot : BitVec 64 := 1#64 ||| (1#64 <<< SHIFT_NOBYTE)

/-- `qp_usage_t`. -/
structure Usage where
  used : Nat := 0
  free : Nat := 0
  existing : Bool := false
  immutable : Bool := false
  discounted : Bool := false
  snapshot : Bool := false
  snapfree : Bool := false
  snapmark : Bool := false
deriving DecidableEq, Repr

/-- `dns_qpbase_t`: chunk pointers by slot, `none` for `NULL`. -/
structure Base where
  refcount : Int
  ptr : Nat → Option Nat

structure Store where
  mem : Nat → Nat → Node
  allocated : Nat → Bool
  nextChunk : Nat
  bases : Nat → Base
  nextBase : Nat
  attached : Leaf → Int

/-- `transaction_mode`. -/
inductive Mode where
  | none | write | update
deriving DecidableEq, Repr

/-- `dns_qp_t`. -/
structure Writer where
  rootRef : Option Nat
  base : Option Nat
  usage : Nat → Usage
  chunkMax : Nat
  bump : Nat
  fender : Nat
  leafCount : Nat
  usedCount : Nat
  freeCount : Nat
  holdCount : Nat
  transactionMode : Mode
  compactAll : Bool

structure State extends Store, Writer

/-- The assertions, and two things that are not checked: that memory is freed once, and that a descent ends. -/
inductive Fault where
  /-- `INSIST(qp->base->ptr[chunk] == NULL)` in `chunk_alloc` -/
  | slotTaken
  /-- the `INSIST`s of `chunk_alloc` about the usage of a free slot -/
  | slotUsed
  /-- the `ENSURE`s and `INSIST`s about counters in `free_twigs`, `chunk_discount` and `destroy_guts` -/
  | counter
  | shape
  | transaction
  | badFree
  | depth
deriving DecidableEq, Repr

/-- `INSIST` and its like. -/
def insist (fault : Fault) (cond : Prop) [Decidable cond] : Except Fault Unit :=
  if cond then .ok () else .error fault

inductive Result where
  | success | exists_ | notfound
deriving DecidableEq, Repr

namespace State

/-- `qp->base->ptr[chunk]`. -/
def ptr (s : State) (chunk : Nat) : Option Nat :=
  match s.base with
  | none => none
  | some b => (s.bases b).ptr chunk

/-- The node that `ref_ptr` points to. -/
def cell (s : State) (ref : Nat) : Node :=
  match s.ptr (refChunk ref) with
  | none => .zero
  | some p => s.mem p (refCell ref)

/-- The cells of a chunk after the nodes `ns` have been stored from `start` on. -/
def overwrite (cells : Nat → Node) (start : Nat) (ns : List Node) (i : Nat) : Node :=
  if start ≤ i then (ns[i - start]?).getD (cells i) else cells i

/-- The nodes `ns` are stored from `ref` on. -/
def writeTwigs (s : State) (ref : Nat) (ns : List Node) : State :=
  { s with
    mem := match s.ptr (refChunk ref) with
      | none => s.mem
      | some p => update s.mem p (overwrite (s.mem p) (refCell ref) ns) }

def setCell (s : State) (ref : Nat) (n : Node) : State := s.writeTwigs ref [n]

def setPtr (s : State) (chunk : Nat) (p : Option Nat) : State :=
  { s with
    bases := match s.base with
      | none => s.bases
      | some b => update s.bases b ⟨(s.bases b).refcount, update (s.bases b).ptr chunk p⟩ }

def setUsage (s : State) (chunk : Nat) (u : Usage) : State :=
  { s with usage := update s.usage chunk u }

def attachLeaf (s : State) (l : Leaf) : State :=
  { s with attached := update s.attached l (s.attached l + 1) }

def detachLeaf (s : State) (l : Leaf) : State :=
  { s with attached := update s.attached l (s.attached l - 1) }

/-- `isc_refcount_decrement` on a base array. -/
def unrefBase (s : State) (b : Nat) : State :=
  { s with bases := update s.bases b ⟨(s.bases b).refcount - 1, (s.bases b).ptr⟩ }

/-- `cells_immutable`. -/
def cellsImmutable (s : State) (ref : Nat) : Bool :=
  if refChunk ref = s.bump then refCell ref < s.fender else (s.usage (refChunk ref)).immutable

/-- `chunk_alloc`. Nothing reads the new cells before they are written, so they start as zeros here. -/
def chunkAlloc (s : State) (chunk size : Nat) : Except Fault (Nat × State) := do
  insist .slotTaken (s.ptr chunk = none)
  insist .slotUsed ((s.usage chunk).used = 0)
  insist .slotUsed ((s.usage chunk).free = 0)
  let p := s.nextChunk
  let s := { s with
    mem := update s.mem p fun _ => .zero
    allocated := update s.allocated p true
    nextChunk := p + 1 }
  let s := s.setPtr chunk (some p)
  let s := s.setUsage chunk { existing := true, used := size }
  return (makeRef chunk 0, { s with usedCount := s.usedCount + size, bump := chunk, fender := 0 })

/-- `realloc_chunk_arrays`. An array that has no other owner is resized in place, others are cloned. -/
def reallocChunkArrays (s : State) (newmax : Nat) : State :=
  let usage := fun chunk => if chunk < s.chunkMax then s.usage chunk else {}
  match s.base with
  | none =>
    { s with
      bases := update s.bases s.nextBase ⟨1, fun _ => none⟩
      nextBase := s.nextBase + 1
      base := some s.nextBase
      usage := usage
      chunkMax := newmax }
  | some b =>
    let ptr := fun chunk => if chunk < s.chunkMax then (s.bases b).ptr chunk else none
    if (s.bases b).refcount = 1 then
      { s with
        bases := update s.bases b ⟨1, ptr⟩
        usage := usage
        chunkMax := newmax }
    else
      let s := s.unrefBase b
      { s with
        bases := update s.bases s.nextBase ⟨1, ptr⟩
        nextBase := s.nextBase + 1
        base := some s.nextBase
        usage := usage
        chunkMax := newmax }

/-- `GROWTH_FACTOR`. -/
def growthFactor (size : Nat) : Nat := size + size / 2 + 2

/-- `alloc_slow`. -/
def allocSlow (s : State) (size : Nat) : Except Fault (Nat × State) :=
  match (List.range s.chunkMax).find? fun chunk => !(s.usage chunk).existing with
  | some chunk => s.chunkAlloc chunk size
  | none => (s.reallocChunkArrays (growthFactor s.chunkMax)).chunkAlloc s.chunkMax size

/-- `alloc_reset`. -/
def allocReset (s : State) : Except Fault State := do
  let (_, s) ← s.allocSlow 0
  return s

/-- `alloc_twigs`. -/
def allocTwigs (s : State) (size : Nat) : Except Fault (Nat × State) :=
  let chunk := s.bump
  let u := s.usage chunk
  if u.used + size ≤ QP_CHUNK_SIZE then
    let s := s.setUsage chunk { u with used := u.used + size }
    .ok (makeRef chunk u.used, { s with usedCount := s.usedCount + size })
  else s.allocSlow size

/-- The cells of a vector. -/
def twigs (s : State) (ref : Nat) (size : Nat) : List Node := (List.range size).map fun pos => s.cell (ref + pos)

/-- `move_twigs`. -/
def moveTwigs (s : State) (dst src : Nat) (size : Nat) : State := s.writeTwigs dst (s.twigs src size)

/-- `zero_twigs`. -/
def zeroTwigs (s : State) (ref : Nat) (size : Nat) : State := s.writeTwigs ref (List.replicate size .zero)

/-- `free_twigs`: whether the twigs were destroyed at once. -/
def freeTwigs (s : State) (ref : Nat) (size : Nat) : Except Fault (Bool × State) := do
  let chunk := refChunk ref
  let u := s.usage chunk
  let s := { s with freeCount := s.freeCount + size }
  let s := s.setUsage chunk { u with free := u.free + size }
  insist .counter (s.freeCount ≤ s.usedCount)
  insist .counter (u.free + size ≤ u.used)
  if s.cellsImmutable ref then
    let s := { s with holdCount := s.holdCount + size }
    insist .counter (s.holdCount ≤ s.freeCount)
    return (false, s)
  else return (true, s.zeroTwigs ref size)

/-- One round of `attach_twigs`. -/
def attachNode (s : State) (n : Node) : State :=
  match n with
  | .leaf l => s.attachLeaf l
  | _ => s

/-- `attach_twigs`. -/
def attachTwigs (s : State) (ref : Nat) (size : Nat) : State := (s.twigs ref size).foldl attachNode s

/-- `chunk_usage`. -/
def chunkUsage (s : State) (chunk : Nat) : Nat := (s.usage chunk).used - (s.usage chunk).free

/-- `chunk_discount`. -/
def chunkDiscount (s : State) (chunk : Nat) : Except Fault State := do
  let u := s.usage chunk
  if u.discounted then return s
  else
    insist .counter (u.used ≤ s.usedCount)
    insist .counter (u.free ≤ s.freeCount)
    let s := { s with usedCount := s.usedCount - u.used, freeCount := s.freeCount - u.free }
    return s.setUsage chunk { u with discounted := true }

def chunkFreeCell (p used : Nat) (s : State) (i : Nat) : State :=
  match s.mem p i with
  | .leaf l => if l.pval ≠ 0 then s.detachLeaf l else s
  | .readerMulti =>
    if used - i > 1 then
      match s.mem p (i + 1) with
      | .readerBase b _ => s.unrefBase b
      | _ => s
    else s
  | _ => s

/-- `chunk_free`. -/
def chunkFree (s : State) (chunk : Nat) : Except Fault State :=
  match s.ptr chunk with
  | none => .error .badFree
  | some p => do
    let used := (s.usage chunk).used
    let s := (List.range used).foldl (chunkFreeCell p used) s
    let s ← s.chunkDiscount chunk
    insist .badFree (s.allocated p = true)
    let s := { s with allocated := update s.allocated p false }
    return (s.setPtr chunk none).setUsage chunk {}

/-- One round of `recycle`. -/
def recycleChunk (s : State) (chunk : Nat) : Except Fault State :=
  if chunk ≠ s.bump ∧ s.chunkUsage chunk = 0 ∧ (s.usage chunk).existing ∧ ¬(s.usage chunk).immutable then
    s.chunkFree chunk
  else .ok s

/-- `recycle`. -/
def recycle (s : State) : Except Fault State := (List.range s.chunkMax).foldlM recycleChunk s

/-- `evacuate`, on the node made of `index` and `old`. -/
def evacuate (s : State) (index : BitVec 64) (old : Nat) : Except Fault (Nat × State) := do
  let size := branchTwigsSize index
  let (new, s) ← s.allocTwigs size
  let s := s.moveTwigs new old size
  let (destroyed, s) ← s.freeTwigs old size
  if destroyed then return (new, s)
  else return (new, s.attachTwigs new size)

/-- `make_root_mutable`. -/
def makeRootMutable (s : State) : Except Fault (Nat × State) :=
  match s.rootRef with
  | none => .error .shape
  | some root =>
    if s.cellsImmutable root then do
      let (new, s) ← s.evacuate movableRoot root
      return (new, { s with rootRef := some new })
    else .ok (root, s)

/-- `make_twigs_mutable`, on the branch in the cell `n`. -/
def makeTwigsMutable (s : State) (n : Nat) (index : BitVec 64) (twigs : Nat) : Except Fault (Nat × State) :=
  if s.cellsImmutable twigs then do
    let (new, s) ← s.evacuate index twigs
    return (new, s.setCell n (.branch index new))
  else .ok (twigs, s)

def compactTwig (rec : State → BitVec 64 → Nat → Except Fault (Nat × State)) (index : BitVec 64) (parentTwigs : Nat) :
    Nat × Bool × State → Nat → Except Fault (Nat × Bool × State)
  | (twigsRef, immutable, s), pos =>
    match s.cell (twigsRef + pos) with
    | .branch childIndex oldGrandtwigs => do
      let (newGrandtwigs, s) ← rec s childIndex oldGrandtwigs
      if oldGrandtwigs = newGrandtwigs then return (twigsRef, immutable, s)
      else if immutable then
        let (twigsRef, s) ← s.evacuate index parentTwigs
        return (twigsRef, false, s.setCell (twigsRef + pos) (.branch childIndex newGrandtwigs))
      else return (twigsRef, false, s.setCell (twigsRef + pos) (.branch childIndex newGrandtwigs))
    | _ => .ok (twigsRef, immutable, s)

/-- `compact_recursive`, on the parent node made of `index` and `parentTwigs`. -/
def compactRecursive : Nat → State → BitVec 64 → Nat → Except Fault (Nat × State)
  | 0, _, _, _ => .error .depth
  | fuel + 1, s, index, parentTwigs => do
    let size := branchTwigsSize index
    let chunk := refChunk parentTwigs
    let (twigsRef, s) ←
      if s.compactAll ∨ (chunk ≠ s.bump ∧ s.chunkUsage chunk < QP_MIN_USED) then s.evacuate index parentTwigs
      else .ok (parentTwigs, s)
    let immutable := s.cellsImmutable twigsRef
    let (twigsRef, _, s) ← (List.range size).foldlM (compactTwig (compactRecursive fuel) index parentTwigs)
      (twigsRef, immutable, s)
    return (twigsRef, s)

/-- Deeper than any trie: the root, and a branch for each offset into a key. -/
def maxDepth : Nat := QP_MAXKEY + 2

/-- `compact`. -/
def compact (s : State) : Except Fault State := do
  let s ← if (s.usage s.bump).free > QP_MAX_FREE then s.allocReset else .ok s
  let s ←
    if s.leafCount > 0 then
      match s.rootRef with
      | none => .error .shape
      | some root => do
        let (new, s) ← compactRecursive maxDepth s movableRoot root
        pure { s with rootRef := some new }
    else .ok s
  return { s with compactAll := false }

/-- `QP_GC_HEURISTIC`. -/
def gcHeuristic (s : State) (free : Nat) : Bool := free > QP_CHUNK_SIZE * 4 && free > s.usedCount / 2

/-- `QP_NEEDGC`. -/
def needgc (s : State) : Bool := s.gcHeuristic s.freeCount

/-- `QP_AUTOGC`. -/
def autogc (s : State) : Bool := s.gcHeuristic (s.freeCount - s.holdCount)

end State

/-- `dns_qpgc_t`. -/
inductive Gc where
  | maybe | now | all
deriving DecidableEq, Repr

namespace State

/-- `dns_qp_compact`. -/
def qpCompact (s : State) (mode : Gc) : Except Fault State := do
  if mode = .maybe ∧ ¬s.needgc then return s
  else
    let s ← if mode = .all then do
        let s ← s.allocReset
        pure { s with compactAll := true }
      else .ok s
    let s ← s.compact
    s.recycle

/-- `squash_twigs`. -/
def squashTwigs (s : State) (ref : Nat) (size : Nat) : Except Fault (Bool × State) := do
  let (destroyed, s) ← s.freeTwigs ref size
  if destroyed ∧ s.autogc then
    let s ← s.compact
    let s ← s.recycle
    return (destroyed, if s.autogc then { s with compactAll := true } else s)
  else return (destroyed, s)

section
variable (makekey : Leaf → Key)

def insertSearch (s : State) (key : Key) : Nat → Nat → Except Fault Leaf
  | 0, _ => .error .depth
  | fuel + 1, n =>
    match s.cell n with
    | .branch index twigs =>
      let bit := branchKeybit index key
      let pos := if branchHasTwig index bit then branchTwigPos index bit else 0
      s.insertSearch key fuel (twigs + pos)
    | .leaf l => .ok l
    | _ => .error .shape

def insertDescend (key : Key) (offset : Nat) : Nat → State → Nat → Except Fault (Nat × State)
  | 0, _, _ => .error .depth
  | fuel + 1, s, n =>
    match s.cell n with
    | .branch index twigs =>
      if offset ≤ branchKeyOffset index then .ok (n, s)
      else do
        let (twigs, s) ← s.makeTwigsMutable n index twigs
        let bit := branchKeybit index key
        insist .shape (branchHasTwig index bit)
        insertDescend key offset fuel s (twigs + branchTwigPos index bit)
    | _ => .ok (n, s)

/-- The label `newbranch` of `dns_qp_insert`. -/
def insertNewbranch (s : State) (n : Nat) (new : Leaf) (offset newBit oldBit : Nat) :
    Except Fault (Result × State) := do
  let (newRef, s) ← s.allocTwigs 2
  let oldNode := s.cell n
  let index := 1#64 ||| (1#64 <<< newBit) ||| (1#64 <<< oldBit) ||| (BitVec.ofNat 64 offset <<< SHIFT_OFFSET)
  let s := s.setCell n (.branch index newRef)
  let s := s.setCell (newRef + if oldBit > newBit then 1 else 0) oldNode
  let s := s.setCell (newRef + if newBit > oldBit then 1 else 0) (.leaf new)
  let s := s.attachLeaf new
  return (.success, { s with leafCount := s.leafCount + 1 })

/-- The label `growbranch` of `dns_qp_insert`, for the branch in the cell `n`. -/
def insertGrowbranch (s : State) (n : Nat) (index : BitVec 64) (oldRef : Nat) (new : Leaf) (newBit : Nat) :
    Except Fault (Result × State) := do
  insist .shape (¬branchHasTwig index newBit)
  let oldSize := branchTwigsSize index
  let newSize := oldSize + 1
  let (newRef, s) ← s.allocTwigs newSize
  let index := index ||| (1#64 <<< newBit)
  let s := s.setCell n (.branch index newRef)
  let pos := branchTwigPos index newBit
  let s := s.moveTwigs newRef oldRef pos
  let s := s.setCell (newRef + pos) (.leaf new)
  let s := s.moveTwigs (newRef + pos + 1) (oldRef + pos) (oldSize - pos)
  let (destroyed, s) ← s.squashTwigs oldRef oldSize
  let s := if destroyed then s.attachLeaf new else s.attachTwigs newRef newSize
  return (.success, { s with leafCount := s.leafCount + 1 })

/-- `dns_qp_insert`. -/
def insert (s : State) (new : Leaf) : Except Fault (Result × State) := do
  let newKey := makekey new
  if s.leafCount = 0 then
    let (newRef, s) ← s.allocTwigs 1
    let s := s.setCell newRef (.leaf new)
    let s := s.attachLeaf new
    return (.success, { s with leafCount := s.leafCount + 1, rootRef := some newRef })
  else
    match s.rootRef with
    | none => .error .shape
    | some root => do
      let old ← s.insertSearch newKey maxDepth root
      match qpkeyCompare newKey (makekey old) with
      | none => return (.exists_, s)
      | some offset =>
        let newBit := qpkeyBit newKey offset
        let oldBit := qpkeyBit (makekey old) offset
        let (root, s) ← s.makeRootMutable
        let (n, s) ← insertDescend newKey offset maxDepth s root
        match s.cell n with
        | .branch index oldRef =>
          if offset = branchKeyOffset index then s.insertGrowbranch n index oldRef new newBit
          else s.insertNewbranch n new offset newBit oldBit
        | _ => s.insertNewbranch n new offset newBit oldBit

def deleteDescend (key : Key) : Nat → State → Option Nat → Nat → Except Fault (Option (Option Nat × Leaf) × State)
  | 0, _, _, _ => .error .depth
  | fuel + 1, s, parent, n =>
    match s.cell n with
    | .branch index twigs =>
      let bit := branchKeybit index key
      if branchHasTwig index bit then do
        let (twigs, s) ← s.makeTwigsMutable n index twigs
        deleteDescend key fuel s (some n) (twigs + branchTwigPos index bit)
      else .ok (none, s)
    | .leaf l => .ok (some (parent, l), s)
    | _ => .error .shape

def deleteTwig (s : State) (n : Nat) (index : BitVec 64) (ref : Nat) (bit : Nat) : Except Fault State := do
  insist .shape (bit ≠ 0)
  let size := branchTwigsSize index
  let pos := branchTwigPos index bit
  if size = 2 then
    let s := s.setCell n (s.cell (ref + if pos = 0 then 1 else 0))
    let (_, s) ← s.squashTwigs ref 2
    return s
  else
    let s := s.setCell n (.branch (index &&& ~~~(1#64 <<< bit)) ref)
    let s := s.moveTwigs (ref + pos) (ref + pos + 1) (size - pos - 1)
    let (_, s) ← s.squashTwigs (ref + size - 1) 1
    return s

def deletekey (s : State) (key : Key) : Except Fault (Result × Option Leaf × State) :=
  match s.rootRef with
  | none => .ok (.notfound, none, s)
  | some _ => do
    let (root, s) ← s.makeRootMutable
    let (found, s) ← deleteDescend key maxDepth s none root
    match found with
    | none => return (.notfound, none, s)
    | some (parent, l) =>
      if qpkeyCompare key (makekey l) ≠ none then return (.notfound, none, s)
      else
        let s := s.detachLeaf l
        let s := { s with leafCount := s.leafCount - 1 }
        if s.leafCount = 0 then
          insist .shape (parent = none)
          let (_, s) ← s.freeTwigs root 1
          return (.success, some l, { s with rootRef := none })
        else
          match parent with
          | none => .error .shape
          | some n =>
            match s.cell n with
            | .branch index ref => do
              let s ← s.deleteTwig n index ref (branchKeybit index key)
              return (.success, some l, s)
            | _ => .error .shape

end

end State

section
variable (makekey : Leaf → Key)

/-- The loop of `dns_qp_getkey` on the cells that a reader sees. -/
def getLoop (cell : Nat → Node) (key : Key) : Nat → Nat → Except Fault (Option Leaf)
  | 0, _ => .error .depth
  | fuel + 1, n =>
    match cell n with
    | .branch index twigs =>
      let bit := branchKeybit index key
      if branchHasTwig index bit then getLoop cell key fuel (twigs + branchTwigPos index bit) else .ok none
    | .leaf l => .ok (some l)
    | _ => .error .shape

/-- `dns_qp_getkey`. -/
def getkey (cell : Nat → Node) (root : Option Nat) (key : Key) : Except Fault (Result × Option Leaf) :=
  match root with
  | none => .ok (.notfound, none)
  | some n => do
    match ← getLoop cell key State.maxDepth n with
    | none => return (.notfound, none)
    | some l => if qpkeyCompare key (makekey l) ≠ none then return (.notfound, none) else return (.success, some l)

end

/-- The calls that use a trie, on keys or on what keys are made from. -/
inductive Call (κ : Type) where
  | insert (l : Leaf)
  | delete (key : κ)
  | get (key : κ)
  | compact (mode : Gc)

def Call.map {κ κ' : Type} (f : κ → κ') : Call κ → Call κ'
  | .insert l => .insert l
  | .delete key => .delete (f key)
  | .get key => .get (f key)
  | .compact mode => .compact mode

/-- What a call returns, and the leaf that it stores through its pointers. -/
abbrev Reply := Option (Result × Option Leaf)

/-- `dns_qp_insert`, `dns_qp_deletekey`, `dns_qp_getkey` and `dns_qp_compact`. -/
def State.call (makekey : Leaf → Key) (s : State) : Call Key → Except Fault (Reply × State)
  | .insert l => do
    let (result, s) ← s.insert makekey l
    return (some (result, none), s)
  | .delete key => do
    let (result, l, s) ← s.deletekey makekey key
    return (some (result, l), s)
  | .get key => do
    let reply ← getkey makekey s.cell s.rootRef key
    return (some reply, s)
  | .compact mode => do
    let s ← s.qpCompact mode
    return (none, s)

def State.calls (makekey : Leaf → Key) (s : State) : List (Call Key) → Except Fault (List Reply × State)
  | [] => .ok ([], s)
  | c :: cs => do
    let (reply, s) ← s.call makekey c
    let (replies, s) ← s.calls makekey cs
    return (reply :: replies, s)

/-- `REQUIRE(name->labels > 0)` in `dns_qpkey_fromname`. -/
abbrev TrieName := { name : Name // 0 < name.nlabels }

/-- The `makekey` method of a trie whose leaves have names. -/
def leafKey (nameOf : Leaf → TrieName) (l : Leaf) : Key := qpkeyFromname (nameOf l).val

def nameCall : Call TrieName → Call Key := Call.map fun name => qpkeyFromname name.val

/-- An empty heap. -/
def Store.empty : Store where
  mem := fun _ _ => .zero
  allocated := fun _ => false
  nextChunk := 0
  bases := fun _ => ⟨0, fun _ => none⟩
  nextBase := 0
  attached := fun _ => 0

/-- `QP_INIT`. -/
def Writer.init : Writer where
  rootRef := none
  base := none
  usage := fun _ => {}
  chunkMax := 0
  bump := 0
  fender := 0
  leafCount := 0
  usedCount := 0
  freeCount := 0
  holdCount := 0
  transactionMode := .none
  compactAll := false

/-- `dns_qp_create`. -/
def qpCreate : Except Fault State := State.allocReset { Store.empty, Writer.init with }

end OqsBind.Dns.Qp
