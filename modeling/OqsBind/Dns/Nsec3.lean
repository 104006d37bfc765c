import OqsBind.Isc.Base32
import OqsBind.Isc.IteratedHash
import OqsBind.Dns.NameLabels
import OqsBind.Dns.TypeBitmap

/-! NSEC3 records (`nsec3.c`) and what they deny. -/

namespace OqsBind.Dns.Nsec3
open Isc Bitmap

/-- `dns_rdata_nsec3_t`. -/
structure Rdata where
  hash : UInt8
  flags : UInt8
  iterations : UInt16
  salt : Bytes
  next : Bytes
  typebits : Bytes
deriving DecidableEq, Repr

/-- `DNS_NSEC3FLAG_OPTOUT`. -/
def FLAG_OPTOUT : UInt8 := 0x01

/-- `DNS_NSEC3_MAXITERATIONS`. -/
def MAXITERATIONS : Nat := 150

/-- `dns_nsec3_typepresent`. -/
def typepresent (nsec3 : Rdata) (type : RdataType) : Except Fault Bool := Bitmap.typepresent nsec3.typebits type

/-- `dns_nsec3_supportedhash`. -/
def supportedhash (hash : UInt8) : Bool := hash = 1

inductive Result where
  | success | ignore | nomore | badbase32 | iterrange
deriving DecidableEq, Repr

/-- The pointers that are not `NULL`. -/
structure Wants where
  existsData : Bool
  optout : Bool
  unknown : Bool
  closest : Bool
  nearest : Bool
deriving DecidableEq, Repr

/-- The names that one call leaves to the next. -/
structure Names where
  zonename : Name
  closest : Name
  nearest : Name
deriving DecidableEq, Repr

structure Out extends Names where
  existsp : Option Bool
  datap : Option Bool
  optoutp : Option Bool
  unknown : Bool
  setclosest : Bool
  setnearest : Bool
deriving DecidableEq, Repr

/-- Nothing has been set yet. -/
def Out.start (names : Names) : Out := ⟨names, none, none, none, false, false, false⟩

def atOwner (type : RdataType) (nsec3 : Rdata) : Except Fault (Option Bool) := do
  let ns ← typepresent nsec3 .ns
  let soa ← typepresent nsec3 .soa
  if ns && !soa && !type.atparent then return none
  else if ns && soa && type.atparent then return none
  else if type = .cname ∨ type = .nxt ∨ type = .nsec ∨ type = .key then return some (← typepresent nsec3 type)
  else if ← typepresent nsec3 .cname then return none
  else return some (← typepresent nsec3 type)

/-- The record is from the parent side of a delegation: `NS` and no `SOA`. -/
def parentSide (nsec3 : Rdata) : Except Fault Bool := do
  if ← typepresent nsec3 .ns then
    return !(← typepresent nsec3 .soa)
  else
    return false

/-- The types of the record do not rule out that its name is the closest encloser. -/
def encloses (nsec3 : Rdata) : Except Fault Bool := do
  if ← typepresent nsec3 .ds then return false
  else if ← typepresent nsec3 .dname then return false
  else if ← typepresent nsec3 .soa then return true
  else return !(← typepresent nsec3 .ns)

/-- The part for a record of a super-domain: it may be the closest encloser. -/
def potentialClosest (w : Wants) (nsec3 : Rdata) (qname : Name) (out : Out) : Except Fault Out := do
  if w.closest && (out.closest.nlabels = 0 || qname.issubdomain out.closest) then
    if ← encloses nsec3 then
      return { out with closest := qname, setclosest := true }
    else
      return out
  else
    return out

/-- Whether a hash lies between that of the owner and the next one. -/
def covers (owner next hash : Bytes) : Bool :=
  (memcmp owner next < 0 && memcmp hash owner > 0 && memcmp hash next < 0) ||
    (memcmp owner next ≥ 0 && (memcmp hash owner > 0 || memcmp hash next < 0))

/-- The part for a name that is covered: it does not exist. -/
def notExists (w : Wants) (nsec3 : Rdata) (qname : Name) (out : Out) : Out :=
  let near := w.nearest && (out.nearest.nlabels = 0 || out.nearest.issubdomain qname)
  { out with
    nearest := if near then qname else out.nearest
    setnearest := if near then true else out.setnearest
    existsp := some false
    datap := some false
    optoutp := if w.optout then some (nsec3.flags &&& FLAG_OPTOUT ≠ 0) else out.optoutp }

def walk (sha1 : Sha1) (w : Wants) (type : RdataType) (nsec3 : Rdata) (owner : Bytes) (zlabels : Nat) :
    (qlabels : Nat) → (qname : Name) → (first : Bool) → (answer : Result) → Out → Except Fault (Result × Out)
  | 0, _, _, answer, out => .ok (answer, out)
  | qlabels + 1, qname, first, answer, out =>
    if qlabels + 1 < zlabels then .ok (answer, out)
    else if nsec3.iterations.toNat > MAXITERATIONS then .ok (.iterrange, out)
    else
      let hash := iteratedHash sha1 nsec3.hash nsec3.iterations.toNat nsec3.salt qname.ndata
      if hash.length ≠ nsec3.next.length then .ok (.ignore, out)
      else if memcmp hash owner = 0 then do
        if first then
          match ← atOwner type nsec3 with
          | none => return (.ignore, out)
          | some data => return (.success, { out with existsp := some true, datap := some data })
        else if ← parentSide nsec3 then return (.ignore, out)
        else return (answer, ← potentialClosest w nsec3 qname out)
      else
        let qname' := if qlabels > 0 then qname.suffix qlabels else qname
        if covers owner nsec3.next hash then
          walk sha1 w type nsec3 owner zlabels qlabels qname' false .success (notExists w nsec3 qname out)
        else walk sha1 w type nsec3 owner zlabels qlabels qname' false answer out

/-- `dns_nsec3_noexistnodata`. -/
def noexistnodata (sha1 : Sha1) (w : Wants) (type : RdataType) (name nsec3name : Name) (nsec3set : List Rdata)
    (names : Names) : Except Fault (Result × Out) :=
  match nsec3set with
  | [] => .ok (.nomore, .start names)
  | nsec3 :: _ =>
    if nsec3name.nlabels < 2 then .ok (.ignore, .start names)
    else
      let zlabels := nsec3name.nlabels - 1
      let zone := nsec3name.suffix zlabels
      if !name.issubdomain zone then .ok (.ignore, .start names)
      else
        let deeper := names.zonename.nlabels = 0 || zone.issubdomain names.zonename
        let out := Out.start (if deeper then { names with zonename := zone } else names)
        if !zone.equal out.zonename then .ok (.ignore, out)
        else if !w.existsData then .ok (.success, out)
        else if !supportedhash nsec3.hash then .ok (.ignore, if w.unknown then { out with unknown := true } else out)
        else
          match Base32.hexDecoderegion (nsec3name.label 0) with
          | none => .ok (.badbase32, out)
          | some owner =>
            if owner.length ≠ nsec3.next.length then .ok (.ignore, out)
            else
              walk sha1 w type nsec3 owner zlabels name.downcase.nlabels name.downcase true .ignore out

end OqsBind.Dns.Nsec3
