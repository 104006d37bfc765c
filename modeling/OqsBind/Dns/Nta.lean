import OqsBind.Dns.QpAncestor
import Mathlib.Logic.Function.Basic

/-! Negative trust anchors (`nta.c`). The trie is the map that its calls amount to, with the search of that map. The timers
    that recheck an anchor are left out. -/

namespace OqsBind.Dns.NegativeTrust
open Isc Function

/-- An absolute name, by its labels in lower case as the keys of the trie are, without the root. -/
abbrev Owner := List Bytes

/-- `dns__nta_t`. The numbers tell anchors of one name apart. Times are 32-bit numbers. -/
structure Nta where
  number : Nat
  name : Owner
  expiry : Nat
deriving DecidableEq, Repr

/-- `dns_ntatable_t` with the `delete_expired` jobs that are queued. `shuttingdown` has the anchors with that flag. -/
structure Ntatable where
  table : Owner → Option Nta
  created : Nat
  shuttingdown : List Nat
  jobs : List Nta

/-- `dns_ntatable_create`. -/
def create : Ntatable := ⟨fun _ => none, 0, [], []⟩

/-- `dns_ntatable_add`. An anchor that is there already is left as it is, and the new one is thrown away. -/
def add (t : Ntatable) (name : Owner) (now lifetime : Nat) : Ntatable :=
  match t.table name with
  | some _ => { t with created := t.created + 1 }
  | none =>
    { t with
      table := update t.table name (some ⟨t.created, name, (now + lifetime) % 2 ^ 32⟩)
      created := t.created + 1 }

/-- `dns_ntatable_delete`. -/
def delete (t : Ntatable) (name : Owner) : Ntatable :=
  match t.table name with
  | none => t
  | some nta => { t with table := update t.table name none, shuttingdown := nta.number :: t.shuttingdown }

/-- `delete_expired`: the job that a lookup queues for an anchor that has expired. -/
def deleteExpired (t : Ntatable) (nta : Nta) : Ntatable :=
  match t.table nta.name with
  | none => t
  | some pval =>
    if pval.expiry = nta.expiry ∧ nta.number ∉ t.shuttingdown then
      { t with table := update t.table nta.name none, shuttingdown := nta.number :: t.shuttingdown }
    else t

/-- `dns_ntatable_covered`. -/
def covered (t : Ntatable) (now : Nat) (name anchor : Owner) : Bool × Ntatable :=
  match Qp.findAncestor t.table name with
  | (_, none) => (false, t)
  | (result, some nta) =>
    if result = .partialmatch ∧ ¬ anchor <:+ nta.name then (false, t)
    else if nta.expiry ≤ now then (false, { t with jobs := t.jobs ++ [nta] })
    else (true, t)

/-- The calls, and the run of a queued job by its place in the queue. -/
inductive Op where
  | add (name : Owner) (now lifetime : Nat)
  | delete (name : Owner)
  | covered (now : Nat) (name anchor : Owner)
  | deleteExpired (job : Nat)

def step (t : Ntatable) : Op → Ntatable
  | .add name now lifetime => add t name now lifetime
  | .delete name => delete t name
  | .covered now name anchor => (covered t now name anchor).2
  | .deleteExpired job =>
    match t.jobs[job]? with
    | none => t
    | some nta => deleteExpired { t with jobs := t.jobs.eraseIdx job } nta

end OqsBind.Dns.NegativeTrust
