import OqsBind.Isc.Ascii

/-! Numbers in buffers, the high octet first. -/

namespace OqsBind.Isc

/-- The two low octets of a number. -/
def be16 (n : Nat) : Bytes := [UInt8.ofNat (n / 2 ^ 8), UInt8.ofNat n]

/-- The four low octets of a number. -/
def be32 (n : Nat) : Bytes :=
  [UInt8.ofNat (n / 2 ^ 24), UInt8.ofNat (n / 2 ^ 16), UInt8.ofNat (n / 2 ^ 8), UInt8.ofNat n]

/-- The number in the first two octets of a buffer. -/
def get16 (b : Bytes) : Nat := (b.getD 0 0).toNat * 2 ^ 8 + (b.getD 1 0).toNat

/-- The number in the first four octets of a buffer. -/
def get32 (b : Bytes) : Nat :=
  (b.getD 0 0).toNat * 2 ^ 24 + (b.getD 1 0).toNat * 2 ^ 16 + (b.getD 2 0).toNat * 2 ^ 8 + (b.getD 3 0).toNat

/-- The octets from `pos` on are overwritten. -/
def setBytes (buf : Bytes) (pos : Nat) (bs : Bytes) : Bytes := buf.take pos ++ bs ++ buf.drop (pos + bs.length)

@[simp] theorem length_be16 (n : Nat) : (be16 n).length = 2 := rfl

@[simp] theorem length_be32 (n : Nat) : (be32 n).length = 4 := rfl

theorem get16_be16 {n : Nat} (h : n < 2 ^ 16) (b : Bytes) : get16 (be16 n ++ b) = n := by
  simp [be16, get16]
  omega

theorem get32_be32 {n : Nat} (h : n < 2 ^ 32) (b : Bytes) : get32 (be32 n ++ b) = n := by
  simp [be32, get32]
  omega

theorem setBytes_append {a b d : Bytes} (c : Bytes) (h : d.length = b.length) :
    setBytes (a ++ b ++ c) a.length d = a ++ d ++ c := by
  simp [setBytes, h]

end OqsBind.Isc
