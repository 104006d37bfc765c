import OqsBind.Dns.Qp

/-! The search for the closest ancestor of a name in a trie (`dns_qp_findname_ancestor`). -/

namespace OqsBind.Dns.Qp

/-- `qpkey_trim_label`. -/
def qpkeyTrimLabel (key : Key) (max : Nat) : Nat :=
  (List.range max).foldl (fun stop offset =>
    if qpkeyBit key offset = SHIFT_NOBYTE ∧ qpkeyBit key (offset + 1) ≠ SHIFT_NOBYTE then offset + 1 else stop) 0

/-- `qpkey_bit(search, searchlen, offset - 1)`: at the offset 0 it reads beyond the key. -/
def bitBefore (key : Key) : (offset : Nat) → Nat
  | 0 => SHIFT_NOBYTE
  | offset + 1 => qpkeyBit key offset

/-- What `dns_qp_findname_ancestor` returns. -/
inductive FindResult where
  | success | partialmatch | notfound
deriving DecidableEq, Repr

def Node.isBranch : Node → Bool
  | .branch _ _ => true
  | _ => false

def ancestorLoop (cell : Nat → Node) (search : Key) : Nat → Nat → List (Nat × Nat) → Except Fault (Nat × List (Nat × Nat))
  | 0, _, _ => .error .depth
  | fuel + 1, n, labels =>
    match cell n with
    | .branch index twigs => do
      let offset := branchKeyOffset index
      let bit := qpkeyBit search offset
      let labels :=
        if bit ≠ SHIFT_NOBYTE ∧ branchHasTwig index SHIFT_NOBYTE = true ∧ bitBefore search offset = SHIFT_NOBYTE ∧
            (cell twigs).isBranch = false then
          (offset, twigs) :: labels
        else labels
      insist .shape (labels.length ≤ NAME_MAXLABELS)
      if branchHasTwig index bit then ancestorLoop cell search fuel (twigs + branchTwigPos index bit) labels
      else
        match labels with
        | [] => ancestorLoop cell search fuel twigs labels
        | (_, ref) :: _ => .ok (ref, labels)
    | _ => .ok (n, labels)

/-- The last loop of `dns_qp_findname_ancestor`. -/
def lastLabel (offset : Nat) : List (Nat × Nat) → Option Nat
  | [] => none
  | (off, ref) :: labels => if off < offset then some ref else lastLabel offset labels

/-- `leaf_qpkey` is only called on leaves. -/
def leafAt (cell : Nat → Node) (n : Nat) : Except Fault Leaf :=
  match cell n with
  | .leaf l => .ok l
  | _ => .error .shape

def findnameAncestor (makekey : Leaf → Key) (cell : Nat → Node) (root : Option Nat) (name : Name) (noexact : Bool) :
    Except Fault (FindResult × Option Leaf) := do
  let key := qpkeyFromname name
  let search := if noexact then key.take (qpkeyTrimLabel key key.length) else key
  let result : FindResult := if noexact then .partialmatch else .success
  match root with
  | none => return (.notfound, none)
  | some root =>
    let (n, labels) ← ancestorLoop cell search State.maxDepth root []
    let l ← leafAt cell n
    let found := makekey l
    match qpkeyCompare search found with
    | none => return (result, some l)
    | some offset =>
      if offset = found.length then return (.partialmatch, some l)
      else
        match lastLabel offset labels with
        | none => return (.notfound, none)
        | some ref =>
          let l ← leafAt cell ref
          return (.partialmatch, some l)

/-! What the search is for: a walk upwards in a map of names, which are given by their labels. -/

section
variable {α : Type} (table : List Isc.Bytes → Option α)

/-- The entry with the most labels among those of a name and the names above it. -/
def nearest : List Isc.Bytes → Option α
  | [] => table []
  | l :: ls => (table (l :: ls)).or (nearest ls)

/-- The entry with the most labels among those of the names above a name. -/
def above : List Isc.Bytes → Option α
  | [] => none
  | _ :: ls => nearest table ls

/-- The closest name above. -/
def findAbove (name : List Isc.Bytes) : FindResult × Option α :=
  match above table name with
  | some l => (.partialmatch, some l)
  | none => (.notfound, none)

/-- The name, or else the closest name above. -/
def findAncestor (name : List Isc.Bytes) : FindResult × Option α :=
  match table name with
  | some l => (.success, some l)
  | none => findAbove table name

end

end OqsBind.Dns.Qp
