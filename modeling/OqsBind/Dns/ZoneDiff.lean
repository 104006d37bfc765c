import OqsBind.Isc.Endian
import OqsBind.Dns.NameLabels
import OqsBind.Dns.Rdata
import OqsBind.Lib.MinimalDiff

/-! Changes of a version of a zone (`diff.c`). A version is given by its records: those of one owner, type and covered type
    are a set, which has one TTL and one spelling of its owner. The database is that of `rbtdb.c`, with what the calls of
    `diff_apply` make of its options; times of resigning are left out. -/

namespace OqsBind.Dns

namespace RdataType

def md : RdataType := 3
def mf : RdataType := 4
def wks : RdataType := 11
def cds : RdataType := 59
def cdnskey : RdataType := 60
def any : RdataType := 255

/-- `dns_rdatatype_ismeta`. -/
def ismeta (type : RdataType) : Bool := type = opt ∨ 128 ≤ type ∧ type ≤ 255

/-- `dns_rdatatype_issingleton`. -/
def issingleton (type : RdataType) : Bool := type ∈ [cname, dname, soa, opt]

/-- `dns_rdatatype_atcname`. -/
def atcname (type : RdataType) : Bool := type ∈ [key, nsec, rrsig]

/-- `dns_rdatatype_iskeymaterial`. -/
def iskeymaterial (type : RdataType) : Bool := type ∈ [dnskey, cdnskey, cds]

end RdataType

namespace ZoneDiff
open Isc

/-- `dns_rdata_t`. -/
structure Rdata where
  type : RdataType
  data : Bytes
deriving DecidableEq, Repr

def soaSerial (data : Bytes) : UInt32 := UInt32.ofNat (get32 (data.drop (data.length - 20)))

/-- What `dns_rdata_compare` and `dns_rdata_casecompare` look at: data are equal if their forms are. The second one folds
    the case of more names, and for NS records both are the same function. -/
structure Forms where
  canon : RdataType → Bytes → Bytes
  fold : RdataType → Bytes → Bytes
  fold_of_canon : ∀ type a b, canon type a = canon type b → fold type a = fold type b
  ns : ∀ a b, fold .ns a = fold .ns b → canon .ns a = canon .ns b
  soa : ∀ a b, canon .soa a = canon .soa b → soaSerial a = soaSerial b

/-- `dns_rdata_compare` finds the data equal. -/
def Rdata.same (forms : Forms) (a b : Rdata) : Bool := a.type = b.type ∧ forms.canon a.type a.data = forms.canon b.type b.data

/-- `dns_rdata_casecompare` finds the data equal. -/
def Rdata.casesame (forms : Forms) (a b : Rdata) : Bool :=
  a.type = b.type ∧ forms.fold a.type a.data = forms.fold b.type b.data

/-- `rdata_covers`. -/
def Rdata.covers (rdata : Rdata) : RdataType := if rdata.type = .rrsig then UInt16.ofNat (get16 rdata.data) else 0

/-- A record of a version, with the spelling that the set has for its owner. -/
structure RR where
  owner : Name
  covers : RdataType
  ttl : UInt32
  rdata : Rdata
deriving DecidableEq, Repr

/-- The record is in a set. -/
def RR.inSet (name : Name) (type covers : RdataType) (r : RR) : Bool :=
  r.owner.equal name && r.rdata.type == type && r.covers == covers

/-- The set is at a node of the tree of NSEC3 records. -/
def RR.nsec3 (r : RR) : Bool := r.rdata.type = .nsec3 ∨ r.covers = .nsec3

/-- `dns_diffop_t`, without the operations that also set a time of resigning. -/
inductive Op where
  | add | del
deriving DecidableEq, Repr

/-- `dns_difftuple_t`. -/
structure Tuple where
  op : Op
  name : Name
  ttl : UInt32
  rdata : Rdata
deriving DecidableEq, Repr

/-- What a function may fail with. -/
inductive Result where
  | notexact | singleton | nospace | notzonetop | notfound | notzone | formerr | refused | failure
  | insist | require
deriving DecidableEq, Repr

section
variable (forms : Forms)

/-- What `dns_diff_appendminimal` compares. -/
def Tuple.key (t : Tuple) : Bytes × UInt32 × RdataType × Bytes :=
  (t.name.ndata, t.ttl, t.rdata.type, forms.canon t.rdata.type t.rdata.data)

/-- `dns_diff_appendminimal`. -/
def appendminimal (diff : List Tuple) (t : Tuple) : List Tuple :=
  MinimalDiff.append (Tuple.key forms) (fun t => t.op = .add) diff t

/-- The set that a tuple is about. -/
def rrset (z : List RR) (name : Name) (type covers : RdataType) : List RR := z.filter (RR.inSet name type covers)

/-- `dns_slabheader_setownercase` for a header with the case of another one: a flag that all is lower case stays. -/
def mergedCase (old new : Name) : Name := if old.ndata = old.ndata.map tolower then old else new

/-- `dns_db_addrdataset` for one record, and the spelling that is then set. A record that is there already is no failure. -/
def addRecord (origin : Name) (z : List RR) (t : Tuple) : Except Result (List RR) :=
  if t.rdata.type = .soa ∧ ¬ t.name.equal origin then .error .notzonetop
  else
    match rrset z t.name t.rdata.type t.rdata.covers with
    | [] => .ok (z ++ [⟨t.name, t.rdata.covers, t.ttl, t.rdata⟩])
    | old :: rest =>
      if t.ttl ≠ old.ttl then .error .notexact
      else if (old :: rest).any fun r => r.rdata.same forms t.rdata then .ok z
      else if t.rdata.type.issingleton then .error .singleton
      else if 0xffff ≤ (old :: rest).length then .error .nospace
      else
        let owner := mergedCase old.owner t.name
        .ok ((z.map fun r => if r.inSet t.name t.rdata.type t.rdata.covers then { r with owner } else r) ++
          [⟨owner, t.rdata.covers, t.ttl, t.rdata⟩])

/-- `dns_db_subtractrdataset` for one record, and the spelling that the tuple then gets. -/
def subtractRecord (z : List RR) (t : Tuple) : Except Result (List RR × Name) :=
  match rrset z t.name t.rdata.type t.rdata.covers with
  | [] => .error .notexact
  | old :: rest =>
    if t.ttl ≠ old.ttl then .error .notexact
    else if (old :: rest).any fun r => r.rdata.same forms t.rdata then
      .ok (z.filter fun r => !(r.inSet t.name t.rdata.type t.rdata.covers && r.rdata.same forms t.rdata), old.owner)
    else .error .notexact

/-- A version that is being changed, with the changes so far. -/
structure Pending where
  zone : List RR
  diff : List Tuple
deriving DecidableEq, Repr

/-- `do_one_tuple`. -/
def doOneTuple (origin : Name) (s : Pending) (t : Tuple) : Except Result Pending :=
  match t.op with
  | .add => do
    let zone ← addRecord forms origin s.zone t
    return ⟨zone, appendminimal forms s.diff t⟩
  | .del => do
    let (zone, name) ← subtractRecord forms s.zone t
    return ⟨zone, appendminimal forms s.diff { t with name }⟩

end

end ZoneDiff

end OqsBind.Dns
