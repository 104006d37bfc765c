import OqsBind.Dns.Name

/-! Name compression contexts (`lib/dns/compress.c`): a Robin Hood hash set of offsets in the message. -/

namespace OqsBind.Dns
open Isc

/-- The written part of an `isc_buffer_t` and its capacity. -/
structure Buffer where
  used : Bytes
  length : Nat
  used_le : used.length ≤ length

namespace Buffer

def usedlength (b : Buffer) : Nat := b.used.length

def availablelength (b : Buffer) : Nat := b.length - b.usedlength

def put (b : Buffer) (bytes : Bytes) (h : bytes.length ≤ b.availablelength) : Buffer where
  used := b.used ++ bytes
  length := b.length
  used_le := by
    have := b.used_le
    unfold availablelength usedlength at h
    simp only [List.length_append]
    omega

end Buffer

/-- `dns_compress_slot_t`. A slot with a zero `coff` is unused. -/
structure CompressSlot where
  hash : UInt16
  coff : Nat
deriving DecidableEq, Repr

def CompressSlot.unused : CompressSlot := ⟨0, 0⟩

/-- The flags that `dns_compress_init` takes. -/
structure CompressFlags where
  disabled : Bool
  case : Bool
  large : Bool
deriving DecidableEq, Repr

def CompressFlags.mask (f : CompressFlags) : Nat := if f.large then 2 ^ 10 - 1 else 2 ^ 6 - 1

/-- `dns_compress_t`. `count` is a `uint16_t`. -/
structure Compress where
  flags : CompressFlags
  permitted : Bool
  count : Nat
  set : List CompressSlot
  size : set.length = flags.mask + 1

namespace Compress

/-- `dns_compress_init`. -/
def init (flags : CompressFlags) : Compress where
  flags := flags
  permitted := true
  count := 0
  set := List.replicate (flags.mask + 1) .unused
  size := List.length_replicate

def mask (c : Compress) : Nat := c.flags.mask

/-- `dns_compress_setpermitted`. -/
def setpermitted (c : Compress) (permitted : Bool) : Compress := { c with permitted }

/-- `cctx->set[slot]`. -/
def slot (c : Compress) (i : Nat) : CompressSlot := c.set.getD i .unused

/-- `cctx->set[i] = e`. -/
def setSlot (c : Compress) (i : Nat) (e : CompressSlot) : Compress where
  flags := c.flags
  permitted := c.permitted
  count := c.count
  set := c.set.set i e
  size := by rw [List.length_set, c.size]

/-- `cctx->count = n`. -/
def setCount (c : Compress) (n : Nat) : Compress := { c with count := n % 2 ^ 16 }

/-- `isc_hash_bits32(val, 16)`. -/
def hashBits (val : UInt32) : UInt16 := ((val * 0x61C88647) >>> 16).toUInt16

def hashLabel (init : UInt16) (ptr : Bytes) (sensitive : Bool) : UInt16 :=
  let len := (ptr.headD 0).toNat + 1
  hashBits ((ptr.take len).foldl
    (fun hash c => hash * 33 + (if sensitive then c else tolower c).toUInt32) init.toUInt32)

/-- `match_wirename` on two regions of one length. -/
def matchWirename (a b : Bytes) (sensitive : Bool) : Bool :=
  if sensitive then a == b else lowerequal a b

def pointer (coff : Nat) : Bytes := [UInt8.ofNat (0xC0 ||| coff / 256), UInt8.ofNat (coff % 256)]

def matchSuffix (buffer : Bytes) (newCoff : Nat) (sptr : Bytes) (oldCoff : Nat) (sensitive : Bool) : Bool :=
  let llen := (sptr.headD 0).toNat + 1
  if buffer.length < newCoff + llen then false
  else
    let bptr := buffer.drop newCoff
    -- does the first label of the suffix appear here?
    if !matchWirename (bptr.take llen) (sptr.take llen) sensitive then false
    -- is this label followed by the previously matched suffix?
    else if oldCoff == newCoff + llen then true
    else
      let bptr := bptr.drop llen
      let sptr := sptr.drop llen
      -- are both labels followed by the root label?
      if 1 ≤ bptr.length ∧ sptr.length = 1 ∧ bptr.headD 1 = 0 ∧ sptr.headD 1 = 0 then true
      -- is this label followed by a pointer to the previous match?
      else if 2 ≤ bptr.length ∧ bptr.take 2 = pointer oldCoff then true
      -- is this label followed by a copy of the rest of the suffix?
      else sptr.length ≤ bptr.length && matchWirename (bptr.take sptr.length) sptr sensitive

/-- `probe_distance`. -/
def probeDistance (c : Compress) (i : Nat) : Nat :=
  (UInt32.ofNat i - (c.slot i).hash.toUInt32).toNat &&& c.mask

/-- `slot_index`. -/
def slotIndex (c : Compress) (hash probe : Nat) : Nat := (hash + probe) &&& c.mask

/-- The loop of `insert_label`; `mask + 1` turns see all slots. -/
def insertLoop : Nat → Compress → UInt16 → Nat → Nat → Compress
  | 0, c, _, _, _ => c
  | fuel + 1, c, hash, coff, probe =>
    let i := c.slotIndex hash.toNat probe
    let e := c.slot i
    -- we can stop when we find an empty slot
    if e.coff = 0 then (c.setSlot i ⟨hash, coff⟩).setCount (c.count + 1)
    -- he steals from the rich and gives to the poor
    else if probe > c.probeDistance i then
      insertLoop fuel (c.setSlot i ⟨hash, coff⟩) e.hash e.coff (c.probeDistance i + 1)
    else insertLoop fuel c hash coff (probe + 1)

/-- `insert_label`. It refuses offsets that no pointer can hold, and a set that is 75% full. -/
def insertLabel (c : Compress) (used : Nat) (name : Name) (label : Nat) (hash : UInt16) (probe : Nat) :
    Option Compress :=
  let coff := used + name.offset label
  if coff ≥ 0x4000 ∨ c.count > c.mask * 3 / 4 then none
  else some (insertLoop (c.mask + 1) c hash coff probe)

def insert (used : Nat) (name : Name) : (label : Nat) → Compress → UInt16 → Nat → Compress
  | 0, c, hash, probe => (c.insertLabel used name 0 hash probe).getD c
  | label + 1, c, hash, probe =>
    match c.insertLabel used name (label + 1) hash probe with
    | none => c
    | some c =>
      insert used name label c (hashLabel hash (name.ndata.drop (name.offset label)) c.flags.case) 0

/-- A slot that matches, or the probe where the entry would have been inserted. -/
inductive ProbeResult where
  | found (slot : Nat)
  | absent (probe : Nat)
deriving DecidableEq, Repr

def probeLoop (c : Compress) (hash : UInt16) (isMatch : Nat → Bool) : Nat → Nat → ProbeResult
  | 0, probe => .absent probe
  | fuel + 1, probe =>
    let i := c.slotIndex hash.toNat probe
    if (c.slot i).coff = 0 ∨ probe > c.probeDistance i then .absent probe
    else if hash == (c.slot i).hash && isMatch i then .found i
    else probeLoop c hash isMatch fuel (probe + 1)

/-- The search of `dns_compress_name` for one suffix. -/
def probe (c : Compress) (hash : UInt16) (isMatch : Nat → Bool) : ProbeResult :=
  c.probeLoop hash isMatch (c.mask + 2) 0

structure Match where
  prefixLength : Nat
  coff : Nat
deriving DecidableEq, Repr

def nameLoop (buffer : Bytes) (name : Name) : (label : Nat) → Compress → UInt16 → Match → Compress × Match
  | 0, c, _, m => (c, m)
  | label + 1, c, hash, m =>
    let suffix := name.ndata.drop (name.offset label)
    let hash := hashLabel hash suffix c.flags.case
    match c.probe hash fun i => matchSuffix buffer (c.slot i).coff suffix m.coff c.flags.case with
    | .absent probe => (insert buffer.length name label c hash probe, m)
    | .found i => nameLoop buffer name label c hash ⟨name.offset label, (c.slot i).coff⟩

/-- `HASH_INIT_DJB2`. -/
def HASH_INIT_DJB2 : UInt16 := 5381

/-- `dns_compress_name`, on the written part of the message. -/
def name (c : Compress) (buffer : Bytes) (name : Name) : Compress × Match :=
  let m : Match := ⟨name.length, 0⟩
  if c.flags.disabled then (c, m)
  -- skip the root label
  else nameLoop buffer name (name.nlabels - 1) c HASH_INIT_DJB2 m

/-- The inner loop of `dns_compress_rollback`, from the slot after `prev` on. -/
def slide : Nat → Compress → Nat → Compress
  | 0, c, _ => c
  | fuel + 1, c, prev =>
    let next := c.slotIndex prev 1
    if (c.slot next).coff ≠ 0 ∧ c.probeDistance next ≠ 0 then
      slide fuel (c.setSlot prev (c.slot next)) next
    else c.setSlot prev .unused

/-- The body of the loop of `dns_compress_rollback` at one slot. -/
def rollbackSlot (coff : Nat) (c : Compress) (i : Nat) : Compress :=
  if (c.slot i).coff < coff then c
  else (slide (c.mask + 1) c i).setCount (c.count + (2 ^ 16 - 1))

/-- `dns_compress_rollback`. -/
def rollback (c : Compress) (coff : Nat) : Compress :=
  (List.range (c.mask + 1)).foldl (rollbackSlot coff) c

end Compress

end OqsBind.Dns
