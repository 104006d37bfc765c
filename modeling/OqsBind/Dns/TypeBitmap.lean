import OqsBind.Isc.Ascii

/-! Type bitmaps (`nsec.c`), which tell the types of the data at a name. -/

namespace OqsBind.Dns
open Isc

/-- `dns_rdatatype_t`. -/
abbrev RdataType := UInt16

namespace RdataType

def ns : RdataType := 2
def cname : RdataType := 5
def soa : RdataType := 6
def key : RdataType := 25
def nxt : RdataType := 30
def dname : RdataType := 39
def ds : RdataType := 43
def nsec : RdataType := 47

/-- `dns_rdatatype_atparent`. -/
def atparent (type : RdataType) : Bool := type = ds

end RdataType

namespace Bitmap

inductive Fault where
  | insist
deriving DecidableEq, Repr

/-- `dns_nsec_setbit`, to set a bit. -/
def setbit (array : Bytes) (type : RdataType) : Bytes :=
  array.set (type.toNat / 8) (array.getD (type.toNat / 8) 0 ||| UInt8.ofNat (1 <<< (7 - type.toNat % 8)))

/-- `dns_nsec_isset`. -/
def isset (array : Bytes) (type : Nat) : Bool := (array.getD (type / 8) 0).toNat.testBit (7 - type % 8)

/-- The last octet of a window that is not zero, of the first `n`. -/
def lastOctet (raw : Bytes) : (n : Nat) → Option Nat
  | 0 => none
  | n + 1 => if raw.getD n 0 ≠ 0 then some n else lastOctet raw n

/-- The loop of `dns_nsec_compressbitmap`, with a number of windows left. -/
def compressLoop (maxType : Nat) : (windows window : Nat) → (raw : Bytes) → Bytes
  | 0, _, _ => []
  | windows + 1, window, raw =>
    if window * 256 > maxType then []
    else
      match lastOctet raw 32 with
      | none => compressLoop maxType windows (window + 1) (raw.drop 32)
      | some octet =>
        UInt8.ofNat window :: UInt8.ofNat (octet + 1) ::
          (raw.take (octet + 1) ++ compressLoop maxType windows (window + 1) (raw.drop 32))

/-- `dns_nsec_compressbitmap`. -/
def compressbitmap (raw : Bytes) (maxType : Nat) : Bytes := compressLoop maxType 256 0 raw

def ofTypes (types : List RdataType) : Bytes :=
  compressbitmap (types.foldl setbit (List.replicate 8192 0)) (types.foldl (fun m t => max m t.toNat) 0)

def typepresentLoop (type : RdataType) : (fuel : Nat) → (typebits : Bytes) → Except Fault Bool
  | 0, _ => .ok false
  | _ + 1, [] => .ok false
  | _ + 1, [_] => .error .insist
  | fuel + 1, window :: len :: rest =>
    if len = 0 ∨ 32 < len.toNat then .error .insist
    else if rest.length < len.toNat then .error .insist
    else if type.toNat < window.toNat * 256 then .ok false
    else if (window.toNat + 1) * 256 ≤ type.toNat then typepresentLoop type fuel (rest.drop len.toNat)
    else .ok (type.toNat < window.toNat * 256 + len.toNat * 8 && isset rest (type.toNat % 256))

def typepresent (typebits : Bytes) (type : RdataType) : Except Fault Bool :=
  typepresentLoop type typebits.length typebits

end Bitmap

end OqsBind.Dns
