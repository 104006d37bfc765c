import OqsBind.Isc.Ascii

/-! The hash map of `isc/hashmap.c`: a Robin Hood table, and next to it, while the map is rehashed, the table that
    it grows or shrinks out of. Each call that adds or deletes moves one entry of the old table over. -/

namespace OqsBind.Isc.Hashmap

/-- A `REQUIRE` or an `INSIST` stops the program, or a loop has looked at every slot and goes on. -/
inductive Fault where
  | require
  | insist
  | loop
deriving DecidableEq, Repr

/-- `ISC_R_SUCCESS`, `ISC_R_EXISTS` and `ISC_R_NOTFOUND`. -/
inductive Result where
  | success
  | alreadyExists
  | notfound
deriving DecidableEq, Repr

/-- A key that the calls accept: they require `keysize <= UINT16_MAX`. -/
structure Key where
  octets : Bytes
  size_le : octets.length ≤ 65535
deriving DecidableEq

def sameKey (caseSensitive : Bool) (a b : Key) : Bool :=
  a.octets.length == b.octets.length &&
    if caseSensitive then a.octets == b.octets else lowerequal a.octets b.octets

/-- `isc_hash_bits32`. -/
def hashBits32 (val : UInt32) (bits : Nat) : Nat := (val * 0x61C88647).toNat >>> (32 - bits)

def approx90Percent (x : Nat) : Nat := (x * 921) >>> 10
def approx40Percent (x : Nat) : Nat := (x * 409) >>> 10
def approx20Percent (x : Nat) : Nat := (x * 205) >>> 10

def minBits : Nat := 1
def maxBits : Nat := 32

/-- `hashmap_node_t` in use; `psl` is its distance from the slot that its hash names. -/
structure Node (V : Type) where
  key : Key
  value : V
  hashval : UInt32
  psl : Nat

/-- `hashmap_table_t`. A slot whose key is `NULL` is `none`. -/
structure Table (V : Type) where
  hashbits : Nat
  slots : Nat → Option (Node V)

variable {V : Type}

/-- `hashmap_match`. -/
def hashmapMatch (caseSensitive : Bool) (node : Node V) (hashval : UInt32) (key : Key) : Bool :=
  node.hashval == hashval && sameKey caseSensitive node.key key

namespace Table

def size (t : Table V) : Nat := 2 ^ t.hashbits

def hashmask (t : Table V) : Nat := 2 ^ t.hashbits - 1

def set (t : Table V) (i : Nat) (x : Option (Node V)) : Table V := { t with slots := Function.update t.slots i x }

/-- `(hash + psl) & hashmask` in 32 bits. -/
def pos (t : Table V) (hash psl : Nat) : Nat := (hash + psl) % 2 ^ 32 &&& t.hashmask

/-- `hashmap_create_table`. -/
def create (bits : Nat) : Except Fault (Table V) :=
  if minBits ≤ bits ∧ bits ≤ maxBits then .ok ⟨bits, fun _ => none⟩ else .error .require

def findLoop (caseSensitive : Bool) (t : Table V) (hash : Nat) (hashval : UInt32) (key : Key) :
    Nat → Nat → Except Fault (Option (Node V × Nat))
  | 0, _ => .error .loop
  | fuel + 1, psl =>
    match t.slots (t.pos hash psl) with
    | none => .ok none
    | some node =>
      if node.psl < psl then .ok none
      else if hashmapMatch caseSensitive node hashval key then .ok (some (node, psl))
      else findLoop caseSensitive t hash hashval key fuel ((psl + 1) % 2 ^ 32)

def find (caseSensitive : Bool) (t : Table V) (hashval : UInt32) (key : Key) : Except Fault (Option (Node V × Nat)) :=
  findLoop caseSensitive t (hashBits32 hashval t.hashbits) hashval key (t.size + 1) 0

/-- The loop of `hashmap_delete_node`, with a hole in slot `entry`. -/
def shift : Nat → Table V → Nat → Nat → Except Fault (Table V)
  | 0, _, _, _ => .error .loop
  | fuel + 1, t, pos, entry =>
    if t.size ≤ t.pos pos 1 then .error .insist
    else
      match t.slots (t.pos pos 1) with
      | none => .ok (t.set entry none)
      | some node =>
        if node.psl = 0 then .ok (t.set entry none)
        else
          let moved := some { node with psl := node.psl - 1 }
          shift fuel ((t.set (t.pos pos 1) moved).set entry moved) (t.pos pos 1) (t.pos pos 1)

/-- `hashmap_delete_node` on the node in slot `entry`; the caller counts. -/
def deleteNode (t : Table V) (entry : Nat) (hashval : UInt32) (psl : Nat) : Except Fault (Table V) :=
  shift (t.size + 1) t (hashBits32 hashval t.hashbits + psl) entry

/-- The loop of `hashmap_add`. The comparison is with the key that is added, also when `node` is another one. -/
def addLoop (caseSensitive : Bool) (hash : Nat) (hashval : UInt32) (key : Key) :
    Nat → Table V → Nat → Node V → Except Fault (Result × Table V)
  | 0, _, _, _ => .error .loop
  | fuel + 1, t, psl, node =>
    match t.slots (t.pos hash psl) with
    | none => .ok (.success, t.set (t.pos hash psl) (some node))
    | some current =>
      if hashmapMatch caseSensitive current hashval key then .ok (.alreadyExists, t)
      else if current.psl < node.psl then
        addLoop caseSensitive hash hashval key fuel (t.set (t.pos hash psl) (some node)) ((psl + 1) % 2 ^ 32)
          { current with psl := (current.psl + 1) % 2 ^ 32 }
      else
        addLoop caseSensitive hash hashval key fuel t ((psl + 1) % 2 ^ 32) { node with psl := (node.psl + 1) % 2 ^ 32 }

def add (caseSensitive : Bool) (t : Table V) (hashval : UInt32) (key : Key) (value : V) :
    Except Fault (Result × Table V) :=
  addLoop caseSensitive (hashBits32 hashval t.hashbits) hashval key (t.size + 1) t 0 ⟨key, value, hashval, 0⟩

def skipEmpty (t : Table V) : Nat → Nat → Nat
  | 0, hiter => hiter
  | left + 1, hiter => if (t.slots hiter).isNone then skipEmpty t left (hiter + 1) else hiter

end Table

/-- `isc_hashmap_t`: `table` is `tables[hindex]` and `old` the other table, `none` when it is `NULL`. -/
structure Map (V : Type) where
  caseSensitive : Bool
  hiter : Nat
  count : Nat
  table : Table V
  old : Option (Table V)

/-- `isc_hashmap_create`. -/
def create (caseSensitive : Bool) (bits : Nat) : Except Fault (Map V) := do
  let table ← Table.create bits
  .ok ⟨caseSensitive, 0, 0, table, none⟩

/-- Which of the two tables a node was found in. -/
inductive Idx where
  | hindex
  | nexttable
deriving DecidableEq, Repr

namespace Map

/-- `hashmap_find` from `hindex` on. Started at the other table it looks there only, which is `Table.find`. -/
def find (m : Map V) (hashval : UInt32) (key : Key) : Except Fault (Option (Node V × Nat × Idx)) := do
  match ← m.table.find m.caseSensitive hashval key with
  | some (node, psl) => .ok (some (node, psl, .hindex))
  | none =>
    match m.old with
    | none => .ok none
    | some old =>
      match ← old.find m.caseSensitive hashval key with
      | some (node, psl) => .ok (some (node, psl, .nexttable))
      | none => .ok none

/-- `hashmap_add` into `tables[hindex]`. -/
def add (m : Map V) (hashval : UInt32) (key : Key) (value : V) : Except Fault (Result × Map V) := do
  let (result, table) ← m.table.add m.caseSensitive hashval key value
  if result = .success then .ok (result, { m with table := table, count := m.count + 1 })
  else .ok (result, { m with table := table })

/-- `hashmap_rehash_one`. `oldsize` has 32 bits in the source, and the size of the table does not always fit. -/
def rehashOne (m : Map V) : Except Fault (Map V) :=
  match m.old with
  | none => .error .require
  | some old =>
    let oldsize := old.size % 2 ^ 32
    let hiter := old.skipEmpty (oldsize - m.hiter) m.hiter
    if hiter = oldsize then .ok { m with old := none, hiter := 0 }
    else
      match old.slots hiter with
      | none => .error .require
      | some node => do
        let old ← old.deleteNode hiter node.hashval node.psl
        let (result, m) ← ({ m with old := some old, hiter := hiter, count := m.count - 1 } : Map V).add
          node.hashval node.key node.value
        if result = .success then .ok m else .error .insist

/-- The loop of `grow_bits`; the sizes fit their 64 bits for `newbits` up to 54. -/
def growLoop (count : Nat) : Nat → Nat → Except Fault Nat
  | 0, _ => .error .loop
  | fuel + 1, newbits =>
    if approx40Percent (2 ^ newbits) < count then growLoop count fuel (newbits + 1) else .ok newbits

def growBits (m : Map V) : Except Fault Nat := do
  let newbits ← growLoop m.count (55 - m.table.hashbits) (m.table.hashbits + 1)
  .ok (if maxBits < newbits then maxBits else newbits)

def shrinkBits (m : Map V) : Nat :=
  if m.table.hashbits - 1 ≤ minBits then minBits else m.table.hashbits - 1

def overThreshold (m : Map V) : Bool :=
  m.table.hashbits != maxBits && approx90Percent (2 ^ m.table.hashbits) < m.count

def underThreshold (m : Map V) : Bool :=
  m.table.hashbits != minBits && m.count < approx20Percent (2 ^ m.table.hashbits)

/-- `hashmap_rehash_start_grow`. -/
def rehashStartGrow (m : Map V) : Except Fault (Map V) := do
  if m.old.isSome then .error .require
  else
    let newbits ← m.growBits
    if m.table.hashbits < newbits then
      let table ← Table.create newbits
      .ok { m with table := table, old := some m.table }
    else .ok m

/-- `hashmap_rehash_start_shrink`. -/
def rehashStartShrink (m : Map V) : Except Fault (Map V) := do
  if m.old.isSome then .error .require
  else if m.shrinkBits < m.table.hashbits then
    let table ← Table.create m.shrinkBits
    .ok { m with table := table, old := some m.table }
  else .ok m

/-- The rehashing that `isc_hashmap_add` begins with. -/
def rehashForAdd (m : Map V) : Except Fault (Map V) :=
  if m.old.isSome then m.rehashOne
  else if m.overThreshold then do (← m.rehashStartGrow).rehashOne
  else .ok m

/-- The rehashing that `isc_hashmap_delete` begins with. -/
def rehashForDelete (m : Map V) : Except Fault (Map V) :=
  if m.old.isSome then m.rehashOne
  else if m.underThreshold then do (← m.rehashStartShrink).rehashOne
  else .ok m

end Map

/-- What a call hands back: its result and, from `isc_hashmap_find`, the value. -/
structure Reply (V : Type) where
  result : Result
  value : Option V
deriving DecidableEq

/-- `isc_hashmap_find`. -/
def find (m : Map V) (hashval : UInt32) (key : Key) : Except Fault (Reply V) := do
  match ← m.find hashval key with
  | none => .ok ⟨.notfound, none⟩
  | some (node, _, _) => .ok ⟨.success, some node.value⟩

/-- `isc_hashmap_add`. -/
def add (m : Map V) (hashval : UInt32) (key : Key) (value : V) : Except Fault (Reply V × Map V) := do
  let m ← m.rehashForAdd
  let found ←
    match m.old with
    | none => .ok none
    | some old => old.find m.caseSensitive hashval key
  if found.isSome then .ok (⟨.alreadyExists, none⟩, m)
  else
    let (result, m) ← m.add hashval key value
    .ok (⟨result, none⟩, m)

/-- `isc_hashmap_delete`. -/
def delete (m : Map V) (hashval : UInt32) (key : Key) : Except Fault (Reply V × Map V) := do
  let m ← m.rehashForDelete
  match ← m.find hashval key with
  | none => .ok (⟨.notfound, none⟩, m)
  | some (_, psl, .hindex) =>
    let table ← m.table.deleteNode (m.table.pos (hashBits32 hashval m.table.hashbits) psl) hashval psl
    .ok (⟨.success, none⟩, { m with table := table, count := m.count - 1 })
  | some (_, psl, .nexttable) =>
    match m.old with
    | none => .error .require
    | some old =>
      let old ← old.deleteNode (old.pos (hashBits32 hashval old.hashbits) psl) hashval psl
      .ok (⟨.success, none⟩, { m with old := some old, count := m.count - 1 })

/-- The calls on a hash map. -/
inductive Op (V : Type) where
  | add (key : Key) (value : V)
  | find (key : Key)
  | delete (key : Key)

def step (hash : Key → UInt32) (m : Map V) : Op V → Except Fault (Reply V × Map V)
  | .add key value => add m (hash key) key value
  | .find key => do .ok (← find m (hash key) key, m)
  | .delete key => delete m (hash key) key

/-- A sequence of calls, with all they hand back. -/
def run (hash : Key → UInt32) (m : Map V) : List (Op V) → Except Fault (List (Reply V) × Map V)
  | [] => .ok ([], m)
  | op :: ops => do
    let (reply, m) ← step hash m op
    let (replies, m) ← run hash m ops
    .ok (reply :: replies, m)

/-- `tables[idx]`. -/
def Map.tableAt (m : Map V) : Idx → Option (Table V)
  | .hindex => some m.table
  | .nexttable => m.old

/-- The first slot in use from `i` on. -/
def Table.firstUsed (t : Table V) (i : Nat) : Option (Nat × Node V) :=
  let i := t.skipEmpty (t.size - i) i
  if i < t.size then (t.slots i).map (i, ·) else none

def Map.iterNext (m : Map V) (idx : Idx) (i : Nat) : Option (Idx × Nat × Node V) :=
  match (m.tableAt idx).bind (·.firstUsed i), idx with
  | some (i, node), idx => some (idx, i, node)
  | none, .hindex => (m.old.bind (·.firstUsed 0)).map fun (i, node) => (.nexttable, i, node)
  | none, .nexttable => none

/-- The deletion in `isc_hashmap_iter_delcurrent_next`. -/
def Map.delcurrent (m : Map V) (idx : Idx) (i : Nat) (node : Node V) : Except Fault (Map V) :=
  match idx, m.old with
  | .hindex, _ => do
    let table ← m.table.deleteNode i node.hashval node.psl
    .ok { m with table := table, count := m.count - 1 }
  | .nexttable, some old => do
    let old ← old.deleteNode i node.hashval node.psl
    .ok { m with old := some old, count := m.count - 1 }
  | .nexttable, none => .error .require

/-- A caller goes on until `ISC_R_NOMORE`. It decides by what it has seen what to delete, which is marked. -/
def iterate (choose : List ((Key × V) × Bool) → Key × V → Bool) : Nat → Map V → Idx → Nat → List ((Key × V) × Bool) →
    Except Fault (List ((Key × V) × Bool) × Map V)
  | 0, _, _, _, _ => .error .loop
  | fuel + 1, m, idx, i, seen =>
    match m.iterNext idx i with
    | none => .ok (seen, m)
    | some (idx, i, node) =>
      if choose seen (node.key, node.value) then do
        let m ← m.delcurrent idx i node
        iterate choose fuel m idx i (seen ++ [((node.key, node.value), true)])
      else iterate choose fuel m idx (i + 1) (seen ++ [((node.key, node.value), false)])

end OqsBind.Isc.Hashmap
