import OqsBind.Dns.NameLabels
import OqsBind.Dns.TypeBitmap

/-! NSEC records (`nsec.c`) and what they deny. -/

namespace OqsBind.Dns.Nsec
open Isc Bitmap

/-- `dns_rdata_nsec_t`. -/
structure Rdata where
  next : Name
  typebits : Bytes
deriving DecidableEq, Repr

/-- `dns_nsec_typepresent`. -/
def typepresent (nsec : Rdata) (type : RdataType) : Except Fault Bool := Bitmap.typepresent nsec.typebits type

inductive Result where
  | success | ignore | dname | nomore | nametoolong
deriving DecidableEq, Repr

/-- The code, and what has been set of `*exists`, `*data` and `*wild`. -/
structure Answer where
  result : Result
  existsp : Option Bool
  datap : Option Bool
  wildp : Option Name
deriving DecidableEq, Repr

/-- Nothing has been set. -/
def Answer.only (result : Result) : Answer := ⟨result, none, none, none⟩

/-- The NSEC record is from the parent side of a delegation: `NS` and no `SOA`. -/
def parentSide (nsec : Rdata) : Except Fault Bool := do
  if ← typepresent nsec .ns then
    return !(← typepresent nsec .soa)
  else
    return false

/-- The part for the owner of the record. The root has no parent: it is the only name with one label. -/
def atOwner (type : RdataType) (olabels : Nat) (nsec : Rdata) : Except Fault Answer := do
  let atparent := olabels ≠ 1 && type.atparent
  let ns ← typepresent nsec .ns
  let soa ← typepresent nsec .soa
  if ns && !soa && !atparent then
    return .only .ignore
  else if ns && soa && atparent then
    return .only .ignore
  else if type = .cname ∨ type = .nxt ∨ type = .nsec ∨ type = .key then
    return ⟨.success, some true, some (← typepresent nsec type), none⟩
  else if ← typepresent nsec .cname then
    return .only .ignore
  else
    return ⟨.success, some true, some (← typepresent nsec type), none⟩

def inRange (name nsecname : Name) (olabels : Nat) (nsec : Rdata) : Answer :=
  let c := nsec.next.fullcompare name
  if c.order = 0 then .only .ignore
  else if c.order < 0 && !nsecname.issubdomain nsec.next then .only .ignore
  else if c.order > 0 && c.namereln = .subdomain then ⟨.success, some true, some false, none⟩
  else
    let common := if olabels > c.nlabels then nsecname.suffix olabels else nsec.next.suffix c.nlabels
    match Name.wildcardname.concatenate common with
    | none => .only .nametoolong
    | some wild => ⟨.success, some false, none, some wild⟩

/-- `dns_nsec_noexistnodata`, when a name for `*wild` is given. -/
def noexistnodata (type : RdataType) (name nsecname : Name) (nsecset : List Rdata) : Except Fault Answer :=
  match nsecset with
  | [] => .ok (.only .nomore)
  | nsec :: _ =>
    let c := name.fullcompare nsecname
    if c.order < 0 then .ok (.only .ignore)
    else if c.order = 0 then atOwner type c.nlabels nsec
    else if c.namereln = .subdomain then do
      if ← parentSide nsec then
        return .only .ignore
      else if ← typepresent nsec .dname then
        return ⟨.dname, some false, none, none⟩
      else
        return inRange name nsecname c.nlabels nsec
    else .ok (inRange name nsecname c.nlabels nsec)

end OqsBind.Dns.Nsec
