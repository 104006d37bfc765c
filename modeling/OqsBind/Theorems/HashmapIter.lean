import Mathlib.Algebra.BigOperators.Intervals
import OqsBind.Theorems.Hashmap

/-! Iteration with deletion. What an iterator has yet to present is what the slots from its cursor on hold, and a deletion
    takes the current entry away from it. For this no entry may move over the end of a table: slot 0 is free or its node
    at home (`Steady`), which deletions keep. Otherwise the deletion of the entry in the last slot moves the one of slot 0,
    presented long before, under the cursor. -/

namespace OqsBind.Isc.Hashmap

open RobinHood Finset Option

variable {V : Type} {m m' : Map V} {hash : Key → UInt32} {t t' : Table V} {i : Nat} {node : Node V}

namespace Table

/-- The entries in the slots from `i` on. -/
def above (t : Table V) (i : Nat) : Multiset (Key × V) := ∑ s ∈ Ico i t.size, held (t.slots s)

end Table

namespace Map

/-- What is yet to be presented. -/
def ahead (m : Map V) (i : Nat) : Idx → Multiset (Key × V)
  | .hindex => m.table.above i + m.old.elim 0 Table.entries
  | .nexttable => m.old.elim 0 (·.above i)

variable {idx idx' : Idx} {i' : Nat}

/-- What the deletion of the current entry leaves, in the table `t'` that it changes and in the other one. -/
structure Deleted (hash : Key → UInt32) (m : Map V) (idx : Idx) (t t' : Table V) (e : Key × V) (m' : Map V) : Prop where
  inv : ∃ f, m'.Inv hash 0 f
  tableAt : m'.tableAt = Function.update m.tableAt idx (some t')
  ahead : ∀ {i j : Nat} {x : Multiset (Key × V)}, t'.above i = x + t.above j → m'.ahead i idx = x + m.ahead j idx
  entries : m.entries = e ::ₘ m'.entries
  caseSensitive : m'.caseSensitive = m.caseSensitive
  roomy : m.Roomy → m'.Roomy

end Map

open Map

section
variable {f : Store V} {idx₀ : Idx} {first last : Node V} {l : Nat} (h : m.Inv hash 0 f) (ht : m.tableAt idx₀ = some t)
  (hfirst : t.slots 0 = some first) (hl : l + 1 = t.size) (hlast : t.slots l = some last)
include h ht hfirst hl hlast

variable (hpsl : first.psl ≠ 0)
include hpsl

end

end OqsBind.Isc.Hashmap
