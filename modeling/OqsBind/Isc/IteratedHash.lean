import OqsBind.Isc.Ascii

/-! Iterated hashes (`isc/iterated_hash.c`), over any digest of 20 octets, and `memcmp`. -/

namespace OqsBind.Isc

/-- A digest of `ISC_SHA1_DIGESTLENGTH` octets. -/
abbrev Sha1 := Bytes → Vector UInt8 20

def iteratedHash (sha1 : Sha1) (hashalg : UInt8) (iterations : Nat) (salt inp : Bytes) : Bytes :=
  if hashalg ≠ 1 then [] else (fun buf => (sha1 (buf ++ salt)).toList)^[iterations + 1] inp

/-- `memcmp`, on two regions of one length. -/
def memcmp : Bytes → Bytes → Int
  | a :: as, b :: bs => if a < b then -1 else if b < a then 1 else memcmp as bs
  | _, _ => 0

end OqsBind.Isc
