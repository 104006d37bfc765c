import OqsBind.Dns.Compress

/-! Names on the wire: `dns_name_towire` and `dns_name_fromwire` (`lib/dns/name.c`). -/

namespace OqsBind.Dns
open Isc

/-- The results of `dns_name_towire`. -/
inductive WriteResult where
  | success
  | nospace
deriving DecidableEq, Repr

structure Towire where
  result : WriteResult
  cctx : Compress
  target : Buffer
  nameCoff : Option Nat

/-- `dns_name_towire`. The context and the saved offset are updated before the space is checked. -/
def Name.towire (name : Name) (nocompress : Bool) (cctx : Compress) (target : Buffer) (nameCoff : Option Nat) :
    Towire :=
  let compress := !nocompress && cctx.permitted
  match nameCoff.filter fun coff => compress && decide (coff < 0x4000) with
  | some coff =>
    -- write a compression pointer directly
    if h : (Compress.pointer coff).length ≤ target.availablelength then
      ⟨.success, cctx, target.put (Compress.pointer coff) h, nameCoff⟩
    else ⟨.nospace, cctx, target, nameCoff⟩
  | none =>
    let (cctx, found) := cctx.name target.used name
    -- if compression is off, reset the return values before writing the name
    let found := if compress then found else ⟨name.length, 0⟩
    let here := target.usedlength
    let nameCoff := if here < 0x4000 ∧ found.prefixLength > 1 then nameCoff.map fun _ => here else nameCoff
    let label := name.ndata.take found.prefixLength
    if h : label.length ≤ target.availablelength then
      let target := target.put label h
      if found.coff > 0 then
        let nameCoff := if found.prefixLength = 0 then nameCoff.map fun _ => found.coff else nameCoff
        if h : (Compress.pointer found.coff).length ≤ target.availablelength then
          ⟨.success, cctx, target.put (Compress.pointer found.coff) h, nameCoff⟩
        else ⟨.nospace, cctx, target, nameCoff⟩
      else ⟨.success, cctx, target, nameCoff⟩
    else ⟨.nospace, cctx, target, nameCoff⟩

/-- `dns_decompress_t`. -/
inductive Decompress where
  | default
  | permitted
  | never
  | always
deriving DecidableEq, Repr

/-- `dns_decompress_getpermitted`. -/
def Decompress.getpermitted : Decompress → Bool
  | .always | .permitted => true
  | .default | .never => false

/-- The errors of `dns_name_fromwire`. -/
inductive ReadError where
  | nametoolong
  | nospace
  | badlabeltype
  | disallowed
  | badpointer
  | unexpectedend
deriving DecidableEq, Repr

structure Fromwire where
  ndata : Bytes
  offsets : List Nat
  consumed : Nat
deriving DecidableEq, Repr

def fromwireLoop (source : Bytes) (permitted : Bool) (nameMax : Nat) (marker cursor : Nat)
    (consumed : Option Nat) (nameLen : Nat) (offsets : List Nat) (nameBuf : Bytes) : Except ReadError Fromwire :=
  if hsrc : cursor < source.length then
    let labelLen := source[cursor].toNat
    if labelLen ≤ NAME_LABELLEN then
      let offsets := offsets ++ [nameLen]
      let cursor' := cursor + 1 + labelLen
      let nameLen := nameLen + (labelLen + 1)
      if nameLen > nameMax then .error (if nameMax = NAME_MAXWIRE then .nametoolong else .nospace)
      else if labelLen = 0 then
        -- copy from the marker up to and including the root label
        let copyLen := cursor' - marker
        .ok ⟨nameBuf.take (nameLen - copyLen) ++ (source.drop marker).take copyLen, offsets, consumed.getD cursor'⟩
      else fromwireLoop source permitted nameMax marker cursor' consumed nameLen offsets nameBuf
    else if labelLen < 192 then .error .badlabeltype
    else if !permitted then .error .disallowed
    else if hlo : cursor + 1 < source.length then
      let pointer := 256 * (labelLen % 64) + source[cursor + 1].toNat
      if hback : pointer ≥ marker then .error .badpointer
      else
        -- copy from the marker up to just before the pointer
        let copyLen := cursor - marker
        fromwireLoop source permitted nameMax pointer pointer (some (consumed.getD (cursor + 2))) nameLen offsets
          (nameBuf.take (nameLen - copyLen) ++ (source.drop marker).take copyLen)
    else .error .unexpectedend
  else .error .unexpectedend
termination_by (marker, source.length - cursor)
decreasing_by
  · exact Prod.Lex.right _ (by omega)
  · exact Prod.Lex.left _ _ (by omega)

def fromwire (source : Bytes) (start : Nat) (dctx : Decompress) (available : Nat) : Except ReadError Fromwire :=
  (fromwireLoop source dctx.getpermitted (min NAME_MAXWIRE available) start start none 0 [] []).map
    fun r => { r with consumed := r.consumed - start }

end OqsBind.Dns
