import OqsBind.Dns.Qp

/-! Iteration over a trie (`dns_qpiter_init` and `dns_qpiter_next`). -/

namespace OqsBind.Dns.Qp

/-- An element of the array `stack`; the reference is `none` for `INVALID_REF`. -/
structure Frame where
  ref : Option Nat
  more : Nat
deriving DecidableEq, Repr

/-- `dns_qpiter_t`: `stack[sp]`, and the elements below it. -/
structure Iter where
  top : Frame
  below : List Frame
deriving DecidableEq, Repr

namespace Iter

def sp (it : Iter) : Nat := it.below.length

/-- `dns_qpiter_init`. -/
def init (root : Option Nat) : Iter := ⟨⟨root, 0⟩, []⟩

/-- The first loop of `dns_qpiter_next`: down to a leaf. -/
def push (cell : Nat → Node) : Nat → Iter → Except Fault (Leaf × Iter)
  | 0, _ => .error .depth
  | fuel + 1, it =>
    match it.top.ref with
    | none => .error .shape
    | some ref =>
      match cell ref with
      | .leaf l => .ok (l, it)
      | .branch index twigs => do
        let it : Iter := ⟨⟨some twigs, branchTwigsSize index - 1⟩, it.top :: it.below⟩
        insist .shape (it.sp < QP_MAXKEY)
        push cell fuel it
      | _ => .error .shape

/-- The second loop: up to a twig that has a successor. -/
def pop : Frame → List Frame → Iter
  | top, [] => ⟨top, []⟩
  | top, frame :: below => if top.more = 0 then pop frame below else ⟨top, frame :: below⟩

/-- The end of `dns_qpiter_next`: across to the next twig. -/
def across (it : Iter) : Except Fault Iter :=
  if 0 < it.top.more then .ok { it with top := ⟨it.top.ref.map (· + 1), it.top.more - 1⟩ }
  else do
    insist .shape (it.sp = 0)
    return { it with top := { it.top with ref := none } }

/-- `dns_qpiter_next`: the leaf, or `none` for `ISC_R_NOMORE`. -/
def next (cell : Nat → Node) (it : Iter) : Except Fault (Option Leaf × Iter) :=
  match it.top.ref with
  | none => do
    insist .shape (it.sp = 0)
    return (none, it)
  | some _ => do
    let (l, it) ← it.push cell State.maxDepth
    let it ← (pop it.top it.below).across
    return (some l, it)

/-- What calls of `dns_qpiter_next` return. -/
def calls (cell : Nat → Node) : Nat → Iter → Except Fault (List (Option Leaf))
  | 0, _ => .ok []
  | n + 1, it => do
    let (l, it) ← it.next cell
    let ls ← it.calls cell n
    return l :: ls

end Iter

end OqsBind.Dns.Qp
