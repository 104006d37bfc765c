import OqsBind.Dns.NameWire

/-! What a call of `dns_name_fromwire` leaves behind (`lib/dns/name.c`): the name, and the two buffers. -/

namespace OqsBind.Dns
open Isc

/-- The fields of a `dns_name_t`, which need not agree. -/
structure RawName where
  ndata : Bytes
  length : Nat
  labels : Nat
  absolute : Bool
  offsets : Option (List Nat)
deriving DecidableEq, Repr

namespace RawName

/-- `MAKE_EMPTY`. -/
def makeEmpty (name : RawName) : RawName := ⟨[], 0, 0, false, name.offsets.map fun _ => []⟩

def isvalidLoop (offsets : Option (List Nat)) (length : Nat) (ndata : Bytes) (offset nlabels : Nat) : Option (Nat × Nat) :=
  if offset = length then some (offset, nlabels)
  else
    match ndata with
    | [] => none
    | count :: ndata =>
      if count.toNat > NAME_LABELLEN then none
      else if offsets.any fun offsets => offsets[nlabels]? ≠ some offset then none
      else if offset + (count.toNat + 1) > length then none
      else if count.toNat = 0 then some (offset + (count.toNat + 1), nlabels + 1)
      else isvalidLoop offsets length (ndata.drop count.toNat) (offset + (count.toNat + 1)) (nlabels + 1)
termination_by ndata.length
decreasing_by
  rw [List.length_drop, List.length_cons]
  omega

/-- `dns_name_isvalid`. -/
def isvalid (name : RawName) : Bool :=
  if name.length > NAME_MAXWIRE ∨ name.labels > NAME_MAXLABELS then false
  else
    match isvalidLoop name.offsets name.length name.ndata 0 0 with
    | none => false
    | some (offset, nlabels) => nlabels = name.labels ∧ offset = name.length

end RawName

/-- A valid name, with or without a table of offsets. -/
def Name.raw (n : Name) (offsets : Bool) : RawName :=
  ⟨n.ndata, n.length, n.nlabels, n.absolute, if offsets then some n.offsets else none⟩

structure Source where
  used : Bytes
  current : Nat
  current_le : current ≤ used.length

/-- `isc_buffer_forward`; `none` is a failed `REQUIRE`. -/
def Source.forward (s : Source) (n : Nat) : Option Source :=
  if h : s.current + n ≤ s.used.length then some ⟨s.used, s.current + n, h⟩ else none

def Buffer.add (b : Buffer) (bytes : Bytes) : Option Buffer :=
  if h : bytes.length ≤ b.availablelength then some (b.put bytes h) else none

/-- What `dns_name_fromwire` leaves behind. -/
structure FromwireCall where
  result : Except ReadError Unit
  name : RawName
  source : Source
  target : Buffer

/-- A call of `dns_name_fromwire`. `target` is the caller's buffer, or the name's own, which has been cleared. -/
def RawName.fromwire (name : RawName) (source : Source) (dctx : Decompress) (target : Buffer) : Option FromwireCall :=
  match Dns.fromwire source.used source.current dctx target.availablelength with
  | .error e => some ⟨.error e, name.makeEmpty, source, target⟩
  | .ok r => do
    let source ← source.forward r.consumed
    let target ← target.add r.ndata
    some ⟨.ok (), ⟨r.ndata, r.offsets.getLastD 0 + 1, r.offsets.length, true, name.offsets.map fun _ => r.offsets⟩, source,
      target⟩

end OqsBind.Dns
