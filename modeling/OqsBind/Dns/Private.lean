import OqsBind.Isc.Endian
import OqsBind.Dns.TypeBitmap

/-! Which denial chains a zone is to have (`private.c`), told by the records at its apex. Private-type records ask for changes of
    chains and for signing. -/

namespace OqsBind.Dns.Private
open Isc

/-- NSEC3PARAM rdata: the octets before the salt, and the salt that follows the octet of its length. -/
structure Nsec3Param where
  hash : UInt8
  flags : UInt8
  iterations : UInt8 × UInt8
  salt : Bytes
  saltLength : salt.length < 256
deriving DecidableEq

def REMOVE (x : UInt8) : Bool := x &&& 0x40 ≠ 0
def CREATE (x : UInt8) : Bool := x &&& 0x80 ≠ 0
def NONSEC (x : UInt8) : Bool := x &&& 0x10 ≠ 0

def fromwireNsec3param : Bytes → Option Nsec3Param
  | hash :: flags :: high :: low :: saltlen :: salt =>
    if h : salt.length = saltlen.toNat then some ⟨hash, flags, (high, low), salt, h ▸ saltlen.toNat_lt⟩ else none
  | _ => none

/-- Algorithm 0 tells the NSEC3PARAM records among the private ones from pointers to keys. -/
def nsec3paramFromprivate : Bytes → Option Nsec3Param
  | algorithm :: wire => if algorithm ≠ 0 then none else fromwireNsec3param wire
  | [] => none

def differs (rdata param : Nsec3Param) : Bool :=
  rdata.hash ≠ param.hash || rdata.iterations ≠ param.iterations || rdata.salt.length ≠ param.salt.length ||
    rdata.salt.take param.salt.length ≠ param.salt

def ignore (param : Nsec3Param) : List Bytes → Bool
  | [] => false
  | record :: privateset =>
    match nsec3paramFromprivate record with
    | none => ignore param privateset
    | some rdata =>
      if CREATE rdata.flags then false
      else if differs rdata param then ignore param privateset
      else if NONSEC rdata.flags then false
      else true

structure Chains where
  nsec : Bool
  nsec3 : Bool
deriving DecidableEq, Repr

/-- What the lookups at the origin node give: a set that is not found is empty. -/
structure Db (ε : Type) where
  getoriginnode : Except ε Unit
  nsec : Except ε Bool
  nsec3param : Except ε (List Nsec3Param)
  privatetype : Except ε (List Bytes)

/-! The loops of `dns_private_chains`. -/

def anyKept : List Bytes → Bool
  | [] => false
  | record :: privateset =>
    match nsec3paramFromprivate record with
    | none => anyKept privateset
    | some rdata => if REMOVE rdata.flags then anyKept privateset else true

def anyCreated : List Bytes → Bool
  | [] => false
  | record :: privateset =>
    match nsec3paramFromprivate record with
    | none => anyCreated privateset
    | some rdata => if CREATE rdata.flags then true else anyCreated privateset

def noneLeft (privateset : List Bytes) : (count : Nat) → List Nsec3Param → Bool
  | _, [] => true
  | count, param :: nsec3paramset =>
    if count + 1 > 1 then false
    else if ignore param privateset then noneLeft privateset (count + 1) nsec3paramset
    else false

/-- A record that says that the zone is being signed with a key: neither removal nor completion is noted in it. -/
def isSigning : Bytes → Bool
  | [algorithm, _, _, removing, complete] => algorithm ≠ 0 && removing = 0 && complete = 0
  | _ => false

def findSigning : List Bytes → (signing nsec3chain : Bool) → Bool × Bool
  | [], signing, nsec3chain => (signing, nsec3chain)
  | record :: privateset, signing, nsec3chain =>
    match nsec3paramFromprivate record with
    | none => findSigning privateset (if isSigning record then true else signing) nsec3chain
    | some rdata => findSigning privateset signing (if CREATE rdata.flags then true else nsec3chain)

/-- What is left to do once the sets are found, where NSEC and NSEC3PARAM are not both there. -/
def chainsOf (nsec : Bool) (nsec3paramset : List Nsec3Param) (privateset : List Bytes) : Chains :=
  if nsec then ⟨true, anyKept privateset⟩
  else if nsec3paramset ≠ [] then
    if privateset = [] then ⟨false, true⟩
    else if anyCreated privateset then ⟨false, true⟩
    else ⟨noneLeft privateset 0 nsec3paramset, true⟩
  else
    match findSigning privateset false false with
    | (true, true) => ⟨false, true⟩
    | (true, false) => ⟨true, false⟩
    | (false, _) => ⟨false, false⟩

def privateChains {ε : Type} (db : Db ε) (privatetype : RdataType) : Except ε Chains := do
  db.getoriginnode
  let nsec ← db.nsec
  let nsec3paramset ← db.nsec3param
  if nsec ∧ nsec3paramset ≠ [] then return ⟨true, true⟩
  if privatetype = 0 then return chainsOf nsec nsec3paramset []
  return chainsOf nsec nsec3paramset (← db.privatetype)

end OqsBind.Dns.Private
