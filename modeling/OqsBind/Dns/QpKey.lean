import OqsBind.Dns.Name

/-! Trie keys (`qp.c`, "converting DNS names to trie keys"): arrays of bit positions, `qp_shift_t` in the source. -/

namespace OqsBind.Dns.Qp
open Isc

def SHIFT_NOBYTE : Nat := 2
def SHIFT_BITMAP : Nat := 3
def SHIFT_OFFSET : Nat := 49

def QP_MAXKEY : Nat := 512

abbrev Key := List Nat

/-- `qp_common_character`. -/
def commonCharacter (byte : Nat) : Bool :=
  (0x2D ≤ byte && byte ≤ 0x39) || (0x5F ≤ byte && byte ≤ 0x7A)

structure BitsForByte where
  bitOne : Nat
  bitTwo : Nat
  escaping : Bool
  table : List Nat
deriving DecidableEq, Repr

/-- One round of the loop of `initialize_bits_for_byte`. -/
def initializeByte (s : BitsForByte) (byte : Nat) : BitsForByte :=
  if commonCharacter byte then
    { s with escaping := false, bitOne := s.bitOne + 1, table := s.table ++ [s.bitOne + 1] }
  else if 0x41 ≤ byte && byte ≤ 0x5A then
    -- upper case takes the position its lower case will get, past the escape and the punctuation before `a`
    let afterEsc := s.bitOne + 1
    let skipPunct := 0x61 - 0x5F
    let letter := byte - 0x41
    { s with table := s.table ++ [afterEsc + skipPunct + letter], bitTwo := s.bitTwo + 1 }
  else
    let s := if !s.escaping || s.bitTwo ≥ SHIFT_OFFSET then
        { s with escaping := true, bitOne := s.bitOne + 1, bitTwo := SHIFT_BITMAP }
      else s
    { s with table := s.table ++ [s.bitTwo <<< 8 ||| s.bitOne], bitTwo := s.bitTwo + 1 }

/-- `initialize_bits_for_byte`. -/
def initializeBitsForByte : BitsForByte :=
  (List.range 256).foldl initializeByte ⟨SHIFT_BITMAP, SHIFT_BITMAP, true, []⟩

/-- `dns_qp_bits_for_byte`. -/
def bitsForByte (byte : UInt8) : Nat := initializeBitsForByte.table.getD byte.toNat 0

/-- The inner loop of `dns_qpkey_fromname`: one or two positions for each octet. -/
def labelBits : Bytes → Key
  | [] => []
  | byte :: ldata =>
    let bits := bitsForByte byte
    if bits >>> 8 ≠ 0 then (bits &&& 0xFF) :: (bits >>> 8) :: labelBits ldata
    else (bits &&& 0xFF) :: labelBits ldata

/-- The outer loop of `dns_qpkey_fromname`, with `label` labels to go. -/
def fromnameLoop (name : Name) : (label : Nat) → Key
  | 0 => []
  | label + 1 => labelBits (name.label label) ++ SHIFT_NOBYTE :: fromnameLoop name label

def qpkeyFromname (name : Name) : Key := fromnameLoop name name.nlabels

/-- `qpkey_bit`. -/
def qpkeyBit (key : Key) (offset : Nat) : Nat := key.getD offset SHIFT_NOBYTE

/-- `qpkey_compare`: the first offset at which the keys differ, `none` for `QPKEY_EQUAL`. -/
def qpkeyCompare (a b : Key) : Option Nat :=
  (List.range (max a.length b.length)).find? fun offset => qpkeyBit a offset != qpkeyBit b offset

end OqsBind.Dns.Qp
