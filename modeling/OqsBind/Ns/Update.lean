import OqsBind.Dns.ZoneDiff
import OqsBind.Isc.Serial

/-! Dynamic updates (`ns/update.c`, and the serials of `dns/update.c`). The prerequisites and the logs are left out.
    Permissions, the checks after the update section and the signing are parameters. -/

namespace OqsBind.Ns.Update
open Isc Dns.ZoneDiff
open Dns (Name RdataType RdataClass)

/-- `dns_updatemethod_t`. -/
inductive UpdateMethod where
  | none | unixtime | increment | date
deriving DecidableEq, Repr

/-- The time of `isc_stdtime_now`, and its day as `epoch_to_yyyymmdd` gives it. -/
structure Clock where
  now : UInt32
  yyyymmdd : UInt32

/-- `dns__update_soaserial`. -/
def soaserialBy (serial : UInt32) (clock : Clock) : UpdateMethod → UInt32
  | .none => serial
  | .unixtime => clock.now
  | .date => clock.yyyymmdd * 100
  | .increment => if serial + 1 = 0 then 1 else serial + 1

/-- `dns_update_soaserial`. -/
def updateSoaserial (serial : UInt32) (clock : Clock) (method : UpdateMethod) : UInt32 :=
  let new := soaserialBy serial clock method
  match method with
  | .none | .increment => new
  | .unixtime | .date => if new ≠ 0 ∧ serialGt new serial then new else soaserialBy serial clock .increment

/-- `DNS_SERIAL_GE`. -/
def dnsSerialGe (a b : UInt32) : Bool := 0 ≤ (a - b).toInt32

/-- `dns_soa_getserial`. -/
def soaGetserial (rdata : Rdata) : Except Result UInt32 :=
  if rdata.type = .soa ∧ 20 ≤ rdata.data.length then .ok (soaSerial rdata.data) else .error .insist

/-- `dns_soa_setserial`. -/
def soaSetserial (rdata : Rdata) (serial : UInt32) : Rdata :=
  { rdata with data := setBytes rdata.data (rdata.data.length - 20) (be32 serial.toNat) }

/-- `dns_db_getsoaserial`. -/
def getsoaserial (origin : Name) (z : List RR) : Except Result UInt32 :=
  match rrset z origin .soa 0 with
  | [] => .error .notfound
  | [r] => if 20 < r.rdata.data.length then .ok (soaSerial r.rdata.data) else .error .insist
  | _ => .error .insist

/-- A record of the update section. `max` is what `dns_ssurule_max` tells for the rule that permits it, 0 if there is none. -/
structure UpdateRR where
  name : Name
  rdclass : RdataClass
  ttl : UInt32
  rdata : Rdata
  max : Nat
deriving DecidableEq, Repr

/-- `rdataset->covers`, as `dns_message_parse` has set it. -/
def UpdateRR.covers (u : UpdateRR) : RdataType :=
  if u.rdclass ≠ .any ∧ (u.rdata.type = .rrsig ∨ u.rdata.type = .sig) then UInt16.ofNat (get16 u.rdata.data) else 0

/-- The zone that is updated: `maxttl` is there with `DNS_ZONEOPT_CHECKTTL`. The main tree of the database has a node for
    each owner of its records, and may have others. -/
structure Conf where
  origin : Name
  rdclass : RdataClass
  privatetype : RdataType
  maxttl : Option UInt32
  forms : Forms
  dnskeyInuse : Rdata → Except Result Bool
  node : List RR → Name → Bool
  node_of_mem : ∀ z name, ∀ r ∈ z, r.nsec3 = false → r.owner.equal name = true → node z name = true

/-- The TTL, the data and the type fit the class of the record. -/
def UpdateRR.formOk (c : Conf) (u : UpdateRR) : Bool :=
  if u.rdclass = c.rdclass then !u.rdata.type.ismeta
  else if u.rdclass = .any then
    u.ttl = 0 ∧ u.rdata.data.length = 0 ∧ ¬ (u.rdata.type.ismeta ∧ u.rdata.type ≠ .any)
  else if u.rdclass = .none then u.ttl = 0 ∧ !u.rdata.type.ismeta
  else false

/-- The prescan of `send_update`. What the checks and the policy say of the record is `permitted`. -/
def prescan (c : Conf) (permitted : UpdateRR → Bool) (u : UpdateRR) : Except Result Unit :=
  if !u.name.issubdomain c.origin then .error .notzone
  else if !u.formOk c then .error .formerr
  else if u.rdata.type = .nsec3 ∨ u.rdata.type = .nsec then .error .refused
  else if u.rdata.type = .rrsig ∧ !u.name.equal c.origin then .error .refused
  else if !permitted u then .error .refused
  else .ok ()

/-- The records that `foreach_rr` visits. -/
def foreachRr (z : List RR) (name : Name) (type covers : RdataType) : List RR :=
  if type = .any then z.filter fun r => r.owner.equal name && !r.nsec3
  else
    z.filter fun r => r.inSet name type covers && r.nsec3 == decide (type = .nsec3 ∨ type = .rrsig ∧ covers = .nsec3)

/-- `rrset_exists`. -/
def rrsetExists (z : List RR) (name : Name) (type : RdataType) : Bool := !(foreachRr z name type 0).isEmpty

/-- `cname_incompatible_rrset_exists`. -/
def cnameIncompatibleRrsetExists (z : List RR) (name : Name) : Bool :=
  (foreachRr z name .any 0).any fun r => r.rdata.type ≠ .cname ∧ !r.rdata.type.atcname

/-- `check_soa_increment`. -/
def checkSoaIncrement (origin : Name) (z : List RR) (rdata : Rdata) : Except Result Bool := do
  let updateSerial ← soaGetserial rdata
  let dbSerial ← getsoaserial origin z
  return !dnsSerialGe dbSerial updateSerial

/-- `type_not_soa_nor_ns_p`. -/
def typeNotSoaNorNs (r : RR) : Bool := r.rdata.type ∉ [.soa, .ns, .nsec3param, .rrsig, .nsec]

/-- `type_not_dnssec`. -/
def typeNotDnssec (r : RR) : Bool := r.rdata.type ≠ .rrsig ∧ r.rdata.type ≠ .nsec

/-- `replaces_p`. -/
def replaces (update db : Rdata) : Bool :=
  db.type = update.type ∧
    (db.type ∈ [.cname, .dname, .soa, .nsec] ∨
      (db.type = .rrsig ∧ get16 (db.data.drop 16) = get16 (update.data.drop 16) ∧ get16 db.data = get16 update.data ∧
        db.data[2]? = update.data[2]?) ∨
      (db.type = .wks ∧ db.data.take 5 = update.data.take 5) ∨
      (db.type = .nsec3param ∧ db.data.length = update.data.length ∧ db.data[0]? = update.data[0]? ∧
        db.data.drop 2 = update.data.drop 2))

section
variable (c : Conf)

/-- `foreach_rr` calls `dns_db_findrdataset` if the name has a node. Of a type that is covered, this requires an RRSIG set. -/
def findrdataset (z : List RR) (name : Name) (type covers : RdataType) : Except Result Unit :=
  if c.node z name ∧ covers ≠ 0 ∧ type ≠ .rrsig then .error .require else .ok ()

/-- `delete_if`: the predicate is that of a record of the version, for the record of the update. -/
def deleteIf (p : RR → Bool) (name : Name) (type covers : RdataType) (s : Pending) : Except Result Pending := do
  findrdataset c s.zone name type covers
  ((foreachRr s.zone name type covers).filter p).foldlM
    (fun s r => doOneTuple c.forms c.origin s ⟨.del, name, r.ttl, r.rdata⟩) s

/-- `add_rr_prepare_ctx_t`, as far as `add_rr_prepare_action` changes it. -/
structure Prepared where
  ignoreAdd : Bool
  delDiff : List Tuple
  addDiff : List Tuple

/-- `add_rr_prepare_action`. -/
def addRrPrepare (oldname name : Name) (ttl : UInt32) (rdata : Rdata) (ctx : Prepared) (r : RR) : Prepared :=
  let caseEqual := name.caseequal oldname
  let ttlEqual : Bool := r.ttl = ttl
  let equal := r.rdata.casesame c.forms rdata
  let del : Tuple := ⟨.del, oldname, r.ttl, r.rdata⟩
  if equal && caseEqual && ttlEqual then { ctx with ignoreAdd := true }
  else if replaces rdata r.rdata then { ctx with delDiff := ctx.delDiff ++ [del] }
  else if !ttlEqual || !caseEqual then
    { ctx with
      delDiff := ctx.delDiff ++ [del]
      addDiff := if equal then ctx.addDiff else ctx.addDiff ++ [⟨.add, name, ttl, r.rdata⟩] }
  else ctx

/-- The addition of a record at the end of its branch in `update_action`. -/
def addRr (s : Pending) (name : Name) (ttl : UInt32) (rdata : Rdata) (covers : RdataType) : Except Result Pending := do
  let rrs := foreachRr s.zone name rdata.type covers
  let oldname := (rrs.head?.map RR.owner).getD name
  let ctx := rrs.foldl (addRrPrepare c oldname name ttl rdata) ⟨false, [], []⟩
  if ctx.ignoreAdd then return s
  let s ← ctx.delDiff.foldlM (doOneTuple c.forms c.origin) s
  let s ← ctx.addDiff.foldlM (doOneTuple c.forms c.origin) s
  doOneTuple c.forms c.origin s ⟨.add, name, ttl, rdata⟩

/-- The version, the changes, and `soa_serial_changed`. -/
structure Section extends Pending where
  soaSerialChanged : Bool

/-- The checks of a record to be added, up to those of a SOA record: whether it is to be added. -/
def addWanted (z : List RR) (u : UpdateRR) : Except Result Bool :=
  if u.rdata.type = .md ∨ u.rdata.type = .mf then .ok false
  else if (u.rdata.type = .ns ∨ u.rdata.type = .dname) ∧ u.name.ndata.take 2 = [1, 42] then .ok false
  else if u.rdata.type = .cname ∧ cnameIncompatibleRrsetExists z u.name then .ok false
  else if u.rdata.type ≠ .cname ∧ rrsetExists z u.name .cname ∧ !u.rdata.type.atcname then .ok false
  else if u.rdata.type = .soa then
    if !rrsetExists z u.name .soa then .ok false else checkSoaIncrement c.origin z u.rdata
  else .ok true

/-- The checks after that. -/
def addPermitted (u : UpdateRR) : Bool :=
  !(u.rdata.type.atparent && u.name.equal c.origin) && u.rdata.type ≠ c.privatetype &&
    !(u.rdata.type = .nsec3param && (u.rdata.data.getD 1 0 &&& ~~~1) ≠ 0)

/-- The policy lets the set have one more record. -/
def belowMax (z : List RR) (u : UpdateRR) : Bool :=
  u.max = 0 || (foreachRr z u.name u.rdata.type u.covers).length < u.max

/-- The TTL that a record gets. -/
def Conf.clamp (ttl : UInt32) : UInt32 :=
  match c.maxttl with
  | some maxttl => if maxttl < ttl then maxttl else ttl
  | none => ttl

/-- The branch for the class of the zone. -/
def updateAdd (s : Section) (u : UpdateRR) : Except Result Section := do
  if !(← addWanted c s.zone u) then return s
  let soaSerialChanged := s.soaSerialChanged || u.rdata.type = .soa
  if !addPermitted c u then return { s with soaSerialChanged }
  -- the next call is `foreach_rr`, to count the records for the policy or to prepare the addition
  findrdataset c s.zone u.name u.rdata.type u.covers
  if !belowMax s.zone u then return { s with soaSerialChanged }
  let p ← addRr c s.toPending u.name (c.clamp u.ttl) u.rdata u.covers
  return ⟨p, soaSerialChanged⟩

/-- The branch for the class ANY. -/
def updateDeleteRrset (s : Pending) (u : UpdateRR) : Except Result Pending :=
  if u.rdata.type = .any then
    deleteIf c (if u.name.equal c.origin then typeNotSoaNorNs else typeNotDnssec) u.name .any 0 s
  else if u.name.equal c.origin ∧ (u.rdata.type = .soa ∨ u.rdata.type = .ns) then .ok s
  else deleteIf c (fun _ => true) u.name u.rdata.type u.covers s

/-- Whether the record is a key of the zone that is in use. -/
def Conf.inuse (u : UpdateRR) : Except Result Bool :=
  if u.name.equal c.origin ∧ u.rdata.type.iskeymaterial then c.dnskeyInuse u.rdata else .ok false

/-- The branch for the class NONE. -/
def updateDeleteRr (s : Pending) (u : UpdateRR) : Except Result Pending := do
  if u.name.equal c.origin ∧ u.rdata.type = .soa then return s
  if u.name.equal c.origin ∧ u.rdata.type = .ns ∧ (foreachRr s.zone u.name .ns 0).length = 1 then return s
  if ← c.inuse u then return s
  deleteIf c (fun r => u.rdata.casesame c.forms r.rdata) u.name u.rdata.type u.covers s

/-- One record of the update section. -/
def updateRecord (s : Section) (u : UpdateRR) : Except Result Section :=
  if u.rdclass = c.rdclass then updateAdd c s u
  else if u.rdclass = .any then (updateDeleteRrset c s.toPending u).map fun p => { s with toPending := p }
  else if u.rdclass = .none then (updateDeleteRr c s.toPending u).map fun p => { s with toPending := p }
  else .ok s

/-- The update section. -/
def updateSection (z : List RR) (us : List UpdateRR) : Except Result Section :=
  us.foldlM (updateRecord c) ⟨⟨z, []⟩, false⟩

/-- `update_soa_serial`. -/
def updateSoaSerial (clock : Clock) (method : UpdateMethod) (s : Pending) : Except Result Pending := do
  match rrset s.zone c.origin .soa 0 with
  | [] => throw .notfound
  | r :: _ =>
    let serial ← soaGetserial r.rdata
    let s ← doOneTuple c.forms c.origin s ⟨.del, r.owner, r.ttl, r.rdata⟩
    doOneTuple c.forms c.origin s ⟨.add, r.owner, r.ttl, soaSetserial r.rdata (updateSoaserial serial clock method)⟩

/-- A round of the loop of `remove_orphaned_ds`, which has its own list of changes. -/
def removeDs (s : Pending) (t : Tuple) : Except Result Pending :=
  if ¬ (t.op = .del ∧ t.rdata.type = .ns ∨ t.op = .add ∧ t.rdata.type = .ds) then .ok s
  else if rrsetExists s.zone t.name .ns ∧ !t.name.equal c.origin then .ok s
  else deleteIf c (fun _ => true) t.name .ds 0 s

/-- `remove_orphaned_ds`. -/
def removeOrphanedDs (s : Pending) : Except Result Pending := do
  let temp ← s.diff.foldlM (removeDs c) ⟨s.zone, []⟩
  return ⟨temp.zone, temp.diff.foldl (appendminimal c.forms) s.diff⟩

/-- The checks after the update section, that of MX records, those before the commit, and what signing the zone changes. -/
structure Maintenance where
  checkSection : Pending → Except Result Unit
  checkMx : Pending → Except Result Unit
  sign : Pending → Except Result (List Tuple)
  checkCommit : Pending → Except Result Unit
  sign_soa : ∀ s ts, sign s = .ok ts → ∀ t ∈ ts, t.rdata.type ≠ .soa

/-- The serial is set, unless a SOA record of the update section is taken to have done so. -/
def bumpSerial (clock : Clock) (method : UpdateMethod) (s : Section) : Except Result Pending :=
  if s.soaSerialChanged then .ok s.toPending else updateSoaSerial c clock method s.toPending

/-- What follows the update section if there are changes, up to `remove_orphaned_ds`. -/
def finishSection (m : Maintenance) (clock : Clock) (method : UpdateMethod) (s : Section) : Except Result Pending := do
  m.checkSection s.toPending
  let p ← bumpSerial c clock method s
  m.checkMx p
  removeOrphanedDs c p

/-- `update_action` from the update section on: the version that is committed, and the changes. -/
def updateAction (m : Maintenance) (clock : Clock) (method : UpdateMethod) (z : List RR) (us : List UpdateRR) :
    Except Result Pending := do
  let s ← updateSection c z us
  if s.diff.isEmpty then return s.toPending
  let p ← finishSection c m clock method s
  let p ← (← m.sign p).foldlM (doOneTuple c.forms c.origin) p
  m.checkCommit p
  return p

end

end OqsBind.Ns.Update
