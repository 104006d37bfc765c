import OqsBind.Isc.Endian

/-! Rdata slabs (`rdataslab.c`). Cursors are given by the octets from there on; the order of `dns_rdata_compare` is a
    parameter. -/

namespace OqsBind.Dns.Slab
open Isc

def TYPE_RRSIG : Nat := 46

/-- `DNS_RDATASLAB_OFFLINE`. -/
def OFFLINE : UInt8 := 1

/-- The build option `DNS_RDATASET_FIXED`, and the type with what `dns_rdatatype_issingleton` says of it. -/
structure Format where
  fixed : Bool
  type : Nat
  singleton : Bool

def Format.rrsig (f : Format) : Bool := f.type = TYPE_RRSIG

/-- `dns_rdata_t`: the data, and `DNS_RDATA_OFFLINE` of the flags. -/
@[ext] structure Rdata where
  data : Bytes
  offline : Bool
deriving DecidableEq, Repr

/-- `struct xrdata`. -/
structure XRdata extends Rdata where
  order : Nat
deriving DecidableEq, Repr

inductive Fault where
  | insist
  | overrun
deriving DecidableEq, Repr

inductive Outcome where
  | success (slab : Bytes)
  | failure
  | nospace
  | singleton
  | notexact
  | unchanged
  | nxrrset
deriving DecidableEq, Repr

def insist (cond : Prop) [Decidable cond] : Except Fault Unit := if cond then .ok () else .error .insist

section
variable (f : Format) (cmp : Bytes → Bytes → Ordering)

/-- A slab that is being written, and the temporary offset table, which only the fixed format has. -/
structure Out where
  buf : Bytes
  offsettable : List Nat

/-- The count and the space for the offset table. -/
def startOut (header : Bytes) (count nalloc : Nat) : Out :=
  ⟨header ++ be16 count ++ (if f.fixed then List.replicate (4 * count) 0 else []), List.replicate nalloc 0⟩

/-- A record is copied to the slab, which has `limit` octets. -/
def writeRecord (limit offsetbase : Nat) (o : Out) (order : Nat) (record : Bytes) : Except Fault Out :=
  let buf := o.buf ++ record
  if limit < buf.length then .error .overrun
  else .ok ⟨buf, o.offsettable.set order ((o.buf.length - offsetbase) % 2 ^ 32)⟩

/-- A record with its length; its order is filled in later. -/
def newRecord (part : Bytes) : Bytes := be16 part.length ++ (if f.fixed then [0, 0] else []) ++ part

/-- The loop of `fillin_offsets`. -/
def fillinLoop (offsetbase : Nat) : List Nat → Nat → Bytes → Bytes
  | [], _, buf => buf
  | offset :: offsets, j, buf =>
    if offset = 0 then fillinLoop offsetbase offsets j buf
    else
      let buf := setBytes buf (offsetbase + (j * 4 + 2)) (be32 offset)
      let buf := setBytes buf (offsetbase + offset + 2) (be16 j)
      fillinLoop offsetbase offsets (j + 1) buf

/-- `fillin_offsets`. -/
def fillinOffsets (offsetbase : Nat) (o : Out) : Bytes :=
  if f.fixed then fillinLoop offsetbase o.offsettable 0 o.buf else o.buf

/-- The space that an rdata takes, with its entry in the offset table. -/
def Format.space (length : Nat) : Nat := (if f.fixed then 8 else 2) + length + (if f.rrsig then 1 else 0)

/-- Of equal rdatas the last one is kept, and it gets the least order. -/
def removeDuplicates (x : XRdata) : List XRdata → List XRdata
  | [] => [x]
  | y :: rest =>
    if cmp x.data y.data = .eq then removeDuplicates { y with order := min x.order y.order } rest
    else x :: removeDuplicates y rest

/-- The rdatas that `dns_rdataslab_fromrdataset` keeps, in DNSSEC order. `sort` is `qsort`. -/
def keep (sort : List XRdata → List XRdata) (rdatas : List Rdata) : List XRdata :=
  match sort (rdatas.zipIdx.map fun r => ⟨r.1, r.2⟩) with
  | [] => []
  | x :: rest => removeDuplicates cmp x rest

/-- The meta data and the data of an rdata. -/
def Format.part (r : Rdata) : Bytes :=
  if f.rrsig then (if r.offline then OFFLINE else 0) :: r.data else r.data

/-- One round of the loop that copies the rdatas. -/
def copyRdata (limit offsetbase : Nat) (o : Out) (x : XRdata) : Except Fault Out := do
  insist ((f.part x.toRdata).length ≤ 0xffff)
  writeRecord limit offsetbase o x.order (newRecord f (f.part x.toRdata))

/-- `dns_rdataslab_fromrdataset`, for the rdatas of the rdataset in load order. -/
def fromrdataset (sort : List XRdata → List XRdata) (rdatas : List Rdata) (reservelen : Nat) : Except Fault Outcome :=
  if rdatas.length = 0 then
    if f.type ≠ 0 then .ok .failure
    else if (reservelen + 2) % 2 ^ 32 < reservelen + 2 then .error .overrun
    else .ok (.success (List.replicate reservelen 0 ++ be16 0))
  else if rdatas.length > 0xffff then .ok .nospace
  else
    let kept := keep cmp sort rdatas
    let buflen := (reservelen + 2 + (kept.map fun x => f.space x.data.length).sum) % 2 ^ 32
    if kept.length > 1 ∧ f.singleton then .ok .singleton
    else do
      let o ← kept.foldlM (copyRdata f buflen reservelen)
        (startOut f (List.replicate reservelen 0) kept.length rdatas.length)
      return .success (fillinOffsets f reservelen o)

/-- The octets of a record before its data. -/
def Format.overhead : Nat := 2 + (if f.rrsig then 1 else 0) + (if f.fixed then 2 else 0)

/-- An rdata of a slab, and its record. -/
structure SlabRdata extends Rdata where
  record : Bytes
deriving DecidableEq, Repr

/-- The order in a record of the fixed format. -/
def SlabRdata.order (r : SlabRdata) : Nat := get16 (r.record.drop 2)

/-- `rdata_from_slab`: the rdata at a cursor, and the cursor behind it. -/
def rdataFromSlab (current : Bytes) : SlabRdata × Bytes :=
  let length := if f.rrsig then get16 current - 1 else get16 current
  let offline := f.rrsig && current.getD 2 0 &&& OFFLINE != 0
  let next := f.overhead + length
  (⟨⟨(current.drop f.overhead).take length, offline⟩, current.take next⟩, current.drop next)

/-- `count` rdatas from a cursor on. -/
def readRdatas : (count : Nat) → Bytes → List SlabRdata
  | 0, _ => []
  | count + 1, current => (rdataFromSlab f current).1 :: readRdatas count (rdataFromSlab f current).2

/-- `dns_rdataslab_count`. -/
def slabCount (slab : Bytes) (reservelen : Nat) : Nat := get16 (slab.drop reservelen)

/-- The position of the first rdata. -/
def slabStart (slab : Bytes) (reservelen : Nat) : Nat :=
  reservelen + 2 + if f.fixed then 4 * slabCount slab reservelen else 0

/-- The rdatas of a slab, as they are read one after the other. -/
def decode (slab : Bytes) (reservelen : Nat) : List SlabRdata :=
  readRdatas f (slabCount slab reservelen) (slab.drop (slabStart f slab reservelen))

def loadOrder (slab : Bytes) (reservelen : Nat) : List SlabRdata :=
  (List.range (slabCount slab reservelen)).map fun j =>
    (rdataFromSlab f (slab.drop (reservelen + get32 (slab.drop (reservelen + 2 + 4 * j))))).1

/-- The loop of `dns_rdataslab_size`. -/
def sizeLoop (slab : Bytes) : (count : Nat) → (current : Nat) → Nat
  | 0, current => current
  | count + 1, current =>
    sizeLoop slab count (current + 2 + get16 (slab.drop current) + if f.fixed then 2 else 0)

/-- `dns_rdataslab_size`. -/
def slabSize (slab : Bytes) (reservelen : Nat) : Nat :=
  sizeLoop f slab (slabCount slab reservelen) (slabStart f slab reservelen) % 2 ^ 32

/-- `rdata_in_slab`, for the rdatas of the slab; it stops at a greater one. -/
def rdataInSlab (rdata : Bytes) : List SlabRdata → Bool
  | [] => false
  | trdata :: rest =>
    match cmp trdata.data rdata with
    | .eq => true
    | .gt => false
    | .lt => rdataInSlab rdata rest

/-- `DNS_RDATASLAB_EXACT` and `DNS_RDATASLAB_FORCE`. -/
structure Flags where
  exactly : Bool
  force : Bool

def Format.slabPart (r : SlabRdata) : Bytes := if f.rrsig then r.record.drop (f.overhead - 1) else r.data

/-- The new slab is read up to an rdata that is not in the old one. -/
def nextNew (olds : List SlabRdata) (oncount : Nat) : List SlabRdata → Except Fault (List SlabRdata)
  | [] => .error .overrun
  | nrdata :: ns => do
    insist (f.fixed → nrdata.order < oncount)
    if rdataInSlab cmp nrdata.data olds then nextNew olds oncount ns else return nrdata :: ns

/-- The new slab is read on, unless all of it has been added. -/
def advanceNew (olds : List SlabRdata) (oncount nleft : Nat) (ns : List SlabRdata) : Except Fault (List SlabRdata) :=
  if nleft > 0 then nextNew f cmp olds oncount ns else .ok ns

/-- The old slab is read on, unless it is at its end. -/
def nextOld (ocount : Nat) (os : List SlabRdata) : Except Fault (List SlabRdata) := do
  insist (∀ ordata ∈ os.head?, f.fixed → ordata.order < ocount)
  return os

def mergeLoop (limit offsetbase : Nat) (olds : List SlabRdata) (ocount oncount : Nat) :
    (rounds : Nat) → (os ns : List SlabRdata) → (nleft : Nat) → Out → Except Fault Out
  | 0, _, _, _, o => .ok o
  | rounds + 1, os, ns, nleft, o =>
    let fromold := match os, ns with
      | [], _ => false
      | ordata :: _, nrdata :: _ => nleft = 0 || cmp ordata.data nrdata.data = .lt
      | _ :: _, [] => true
    match fromold, os, ns with
    | true, ordata :: os, ns => do
      let o ← writeRecord limit offsetbase o ordata.order (newRecord f (f.slabPart ordata))
      let os ← nextOld f ocount os
      mergeLoop limit offsetbase olds ocount oncount rounds os ns nleft o
    | false, os, nrdata :: ns => do
      let o ← writeRecord limit offsetbase o (ocount + nrdata.order) (newRecord f (f.slabPart nrdata))
      let ns ← advanceNew f cmp olds oncount (nleft - 1) ns
      mergeLoop limit offsetbase olds ocount oncount rounds os ns (nleft - 1) o
    | _, _, _ => .error .overrun

/-- `dns_rdataslab_merge`. -/
def merge (oslab nslab : Bytes) (reservelen : Nat) (flags : Flags) : Except Fault Outcome := do
  let ocount := slabCount oslab reservelen
  let oncount := slabCount nslab reservelen
  insist (ocount > 0 ∧ oncount > 0)
  let olds := decode f oslab reservelen
  let olength := (olds.map fun r => get16 r.record + if f.fixed then 8 else 2).sum
  let news := decode f nslab reservelen
  let added := news.filter fun r => !rdataInSlab cmp r.data olds
  let tlength := (reservelen + 2 + olength + (added.map fun r => f.space r.data.length).sum) % 2 ^ 32
  let tcount := ocount + added.length
  -- the count of the new slab is replaced before it is looked at
  let ncount := added.length
  if flags.exactly ∧ tcount ≠ ncount + ocount then return .notexact
  else if added = [] ∧ ¬flags.force then return .unchanged
  else if tcount > 1 ∧ f.singleton then return .singleton
  else if tcount > 0xffff then return .nospace
  else
    let os ← nextOld f ocount olds
    let ns ← advanceNew f cmp olds oncount ncount news
    let o ← mergeLoop f cmp tlength reservelen olds ocount oncount (ocount + ncount) os ns ncount
      (startOut f (nslab.take reservelen) tcount (ocount + oncount))
    insist (o.buf.length = tlength)
    return .success (fillinOffsets f reservelen o)

/-- Whether an rdata is among those of the slab that is subtracted. -/
def subtracted (subs : List SlabRdata) (r : SlabRdata) : Bool := subs.any fun s => cmp r.data s.data = .eq

/-- One round of the loop that copies what is not subtracted. -/
def copyRest (limit offsetbase mcount : Nat) (subs : List SlabRdata) (o : Out) (r : SlabRdata) : Except Fault Out := do
  insist (f.fixed → r.order < mcount)
  if subtracted cmp subs r then return o else writeRecord limit offsetbase o r.order r.record

/-- `dns_rdataslab_subtract`. -/
def subtract (mslab sslab : Bytes) (reservelen : Nat) (flags : Flags) : Except Fault Outcome := do
  let mcount := slabCount mslab reservelen
  let scount := slabCount sslab reservelen
  insist (mcount > 0 ∧ scount > 0)
  let mains := decode f mslab reservelen
  let subs := decode f sslab reservelen
  let rest := mains.filter fun r => !subtracted cmp subs r
  let tcount := rest.length
  let rcount := (mains.filter (subtracted cmp subs)).length
  let tlength := (reservelen + 2 + (rest.map fun r => r.record.length).sum + if f.fixed then 4 * tcount else 0) % 2 ^ 32
  if flags.exactly ∧ rcount ≠ scount then return .notexact
  else if tcount = 0 then return .nxrrset
  else if rcount = 0 then return .unchanged
  else
    let o ← mains.foldlM (copyRest f cmp tlength reservelen mcount subs)
      (startOut f (mslab.take reservelen) tcount mcount)
    insist (o.buf.length = tlength)
    return .success (fillinOffsets f reservelen o)

end

end OqsBind.Dns.Slab
