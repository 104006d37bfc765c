import Mathlib.Data.BitVec

/-! Serial number arithmetic (`serial.c`, RFC 1982). -/

namespace OqsBind.Isc

/-- `isc_serial_lt`. Of two serials that are half the space apart, neither is less. -/
def serialLt (a b : UInt32) : Bool :=
  if a = b ^^^ 0x80000000 then false else (a - b).toInt32 < 0

/-- `isc_serial_gt`. -/
def serialGt (a b : UInt32) : Bool := 0 < (a - b).toInt32

end OqsBind.Isc
