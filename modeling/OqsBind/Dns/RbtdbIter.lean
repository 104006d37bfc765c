import OqsBind.Dns.Rbtdb

/-! Iterators over the rdatasets of a node in a version of a zone (`dns/rbtdb.c`), without `DNS_DB_EXPIREDOK`. The field
    `next` of the header on top of a chain is the top of the next chain, and that of a header below is the one above it:
    this is what `dns__rbtdb_add` and `dns__rbtdb_subtractrdataset` make of it when they put a header on top. -/

namespace OqsBind.Dns.Rbtdb

variable {N S : Type}

/-- The header that an iterator is at, and its type. -/
abbrev Cursor (S : Type) := Option (TypePair × Header S)

/-- The headers that `next` leads to from the header of type `t` at an address, each with those below it. -/
def nexts (data : List (Chain S)) (t : TypePair) (address : Nat) : List (TypePair × List (Header S)) :=
  match data.dropWhile (·.type ≠ t) with
  | [] => []
  | c :: cs =>
    ((List.range (c.headers.findIdx (·.address = address))).reverse.map fun i => (t, c.headers.drop i)) ++
      cs.map fun c => (c.type, c.headers)

/-- The loops of `rdatasetiter_first` and `rdatasetiter_next`. The latter walks past the headers of the type where it is;
    the other type of a negative entry is not found in a zone. -/
def iterLoop (serial : Nat) (skip : Option TypePair) : List (TypePair × List (Header S)) → Cursor S
  | [] => none
  | (t, headers) :: rest =>
    if some t = skip then iterLoop serial skip rest
    else
      match (visible serial headers).filter (·.rdataset.isSome) with
      | some header => some (t, header)
      | none => iterLoop serial skip rest

def rdatasetiterFirst (node : Node S) (serial : Nat) : Cursor S :=
  iterLoop serial none (node.data.map fun c => (c.type, c.headers))

def rdatasetiterNext (node : Node S) (serial : Nat) : Cursor S → Cursor S
  | none => none
  | some (t, header) => iterLoop serial (some t) (nexts node.data t header.address)

/-- What the iterator returns: the rdataset that it is at, or `ISC_R_NOMORE`. -/
def rdatasetiterCurrent (current : Cursor S) : Option (TypePair × Rdataset S) :=
  current.bind fun (t, header) => header.rdataset.map (t, ·)

variable [DecidableEq N]

/-- Calls that are allowed lead from one state to another, with `P` after each of them. -/
inductive Runs (slabs : Slabs S) (origin : N) (P : State N S → Prop) : State N S → State N S → Prop
  | refl (s : State N S) : Runs slabs origin P s s
  | step {s s' s'' : State N S} {op : Op N S} : Allowed s op → step slabs origin s op = .ok s' → P s' →
    Runs slabs origin P s' s'' → Runs slabs origin P s s''

/-- What the calls of `rdatasetiter_next` return in turn, with other calls before each of them. The iterator keeps its
    references to the node and to the version. -/
inductive Iteration (slabs : Slabs S) (origin n : N) (serial : Nat) :
    State N S → Cursor S → List (Option (TypePair × Rdataset S)) → Prop
  | stop (s : State N S) (current : Cursor S) : Iteration slabs origin n serial s current []
  | next {s s' : State N S} {current : Cursor S} {rest : List (Option (TypePair × Rdataset S))} :
    Runs slabs origin (fun s => serial ∈ s.handles ∧ s.held n ≠ 0) s s' →
    Iteration slabs origin n serial s' (rdatasetiterNext (s'.db.nodes n) serial current) rest →
    Iteration slabs origin n serial s current
      (rdatasetiterCurrent (rdatasetiterNext (s'.db.nodes n) serial current) :: rest)

end OqsBind.Dns.Rbtdb
