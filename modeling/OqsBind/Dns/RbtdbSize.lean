import Mathlib.Algebra.Group.Prod
import Mathlib.Algebra.Ring.Int.Defs
import Mathlib.Algebra.Ring.Nat
import OqsBind.Dns.Rbtdb

/-! The totals of each version of a zone (`dns/rbtdb.c`): its records and the size of a transfer, counted rdataset by
    rdataset where `dns__rbtdb_add` and `dns__rbtdb_subtractrdataset` change something. No zone has so many records that a
    counter of 64 bits overflows. -/

namespace OqsBind.Dns.Rbtdb

variable {N S : Type}

/-- What `dns_rdataslab_count` and `dns_rdataslab_rdatasize` read in a slab: the lengths of its rdatas, one at least. -/
structure Stored (S : Type) where
  lengths : S → List Nat
  lengths_ne_nil : ∀ slab, lengths slab ≠ []

/-- `records` and `xfrsize` of a version. -/
abbrev Sizes := Int × Int

section
variable (stored : Stored S)

def recordsize (header : Rdataset S) (namelen : Nat) : Nat := (stored.lengths header.slab).sum + 4 + 2 + 2 + namelen

/-- What is counted for a header: nothing if it does not exist. -/
def headerSizes (namelen : Nat) : Option (Rdataset S) → Sizes
  | none => 0
  | some header => ((stored.lengths header.slab).length, recordsize stored header namelen)

/-- Headers that do not exist are not counted. -/
def updateRecordsandxfrsize (add : Bool) (version : Sizes) (header : Option (Rdataset S)) (namelen : Nat) : Sizes :=
  if add then version + headerSizes stored namelen header else version - headerSizes stored namelen header

variable (slabs : Slabs S)

/-- The totals of the writer after `dns__rbtdb_add`. -/
def addSizes (node : Node S) (t : TypePair) (newheader : Option (Rdataset S)) (options : AddOptions) (namelen : Nat)
    (version : Sizes) : Sizes :=
  match (node.chain? t).bind (·.headers.find? (!·.ignore)) with
  | none => updateRecordsandxfrsize stored true version newheader namelen
  | some header =>
    if header.rdataset.isNone && newheader.isNone then version
    else
      match mergeHeader slabs t options header.rdataset newheader with
      | .error _ => version
      | .ok rdataset =>
        let version := updateRecordsandxfrsize stored false version header.rdataset namelen
        updateRecordsandxfrsize stored true version rdataset namelen

/-- The totals of the writer after `dns__rbtdb_subtractrdataset`. -/
def subtractSizes (node : Node S) (t : TypePair) (rdataset : Rdataset S) (exact : Bool) (namelen : Nat) (version : Sizes) :
    Sizes :=
  match ((node.chain? t).bind (·.headers.find? (!·.ignore))).bind (·.rdataset) with
  | none => version
  | some header =>
    match subtractHeader slabs t exact header rdataset with
    | .error _ => version
    | .ok remaining =>
      let version := updateRecordsandxfrsize stored true version remaining namelen
      updateRecordsandxfrsize stored false version (some header) namelen

variable [DecidableEq N] (origin : N) (namelen : N → Nat)

/-- A zone that is being loaded into the first version. -/
structure Load (N S : Type) where
  zone : N → List (TypePair × Rdataset S)
  sizes : Sizes

/-- `loading_addrdataset`: what is there already of the type is merged, and replaced at once. -/
def loadingAddrdataset (load : Load N S) (n : N) (t : TypePair) (rdataset : Rdataset S) : Load N S :=
  if t.type = TYPE_SOA ∧ n ≠ origin then load
  else
    match (load.zone n).find? (·.1 = t) with
    | none =>
      ⟨Function.update load.zone n ((t, rdataset) :: load.zone n),
        updateRecordsandxfrsize stored true load.sizes (some rdataset) (namelen n)⟩
    | some (_, header) =>
      match mergeHeader slabs t ⟨true, false, false⟩ (some header) (some rdataset) with
      | .ok (some merged) =>
        let sizes := updateRecordsandxfrsize stored false load.sizes (some header) (namelen n)
        ⟨Function.update load.zone n ((load.zone n).map fun e => if e.1 = t then (t, merged) else e),
          updateRecordsandxfrsize stored true sizes (some merged) (namelen n)⟩
      | _ => load

def loadZone (input : List (N × TypePair × Rdataset S)) : Load N S :=
  input.foldl (fun load (n, t, rdataset) => loadingAddrdataset stored slabs origin namelen load n t rdataset)
    ⟨fun _ => [], 0⟩

/-- A database with the totals of its versions, by serial. -/
structure Sized (N S : Type) where
  state : State N S
  sizes : Nat → Sizes

def Sized.loaded (load : Load N S) : Sized N S := ⟨Rbtdb.loaded load.zone, fun _ => load.sizes⟩

/-- The totals of the writer change. -/
def Sized.count (z : Sized N S) (f : Sizes → Sizes) : Nat → Sizes :=
  match z.state.db.futureVersion with
  | none => z.sizes
  | some w => Function.update z.sizes w.serial (f (z.sizes w.serial))

def Sized.sizesAfter (z : Sized N S) : Op N S → Nat → Sizes
  | .newversion => Function.update z.sizes z.state.db.nextSerial (z.sizes z.state.db.currentVersion)
  | .addrdataset n t rdataset options _ =>
    if t.type = TYPE_SOA ∧ n ≠ origin then z.sizes
    else z.count (addSizes stored slabs (z.state.db.nodes n) t (some rdataset) options (namelen n))
  | .subtractrdataset n t rdataset exact _ =>
    z.count (subtractSizes stored slabs (z.state.db.nodes n) t rdataset exact (namelen n))
  | .deleterdataset n t =>
    if t.type = TYPE_ANY then z.sizes
    else if t.type = TYPE_RRSIG ∧ t.covers = 0 then z.sizes
    else z.count (addSizes stored slabs (z.state.db.nodes n) t none ⟨false, false, false⟩ (namelen n))
  | _ => z.sizes

def Sized.step (z : Sized N S) (op : Op N S) : Except Fault (Sized N S) := do
  .ok ⟨← Rbtdb.step slabs origin z.state op, z.sizesAfter stored slabs origin namelen op⟩

end

def getsize (z : Sized N S) (version : Option Nat) : Sizes := z.sizes (version.getD z.state.db.currentVersion)

end OqsBind.Dns.Rbtdb
