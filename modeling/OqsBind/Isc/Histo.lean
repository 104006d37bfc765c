import Mathlib.Algebra.Group.Nat.Defs

/-! Buckets of a histogram (`histo.c`). A `uint` has 32 bits. -/

namespace OqsBind.Isc

def HISTO_MINBITS : Nat := 1
def HISTO_MAXBITS : Nat := 18
def CHUNKS : Nat := 64

/-- What `isc_histo_create` accepts. -/
structure Histo where
  sigbits : Nat
  minbits : HISTO_MINBITS ≤ sigbits
  maxbits : sigbits ≤ HISTO_MAXBITS

namespace Histo

def DENORMALS (hg : Histo) : Nat := hg.sigbits - 1
def MANTISSAS (hg : Histo) : Nat := 1 <<< hg.sigbits
def EXPONENTS (hg : Histo) : Nat := CHUNKS - hg.DENORMALS
def BUCKETS (hg : Histo) : Nat := hg.EXPONENTS * hg.MANTISSAS
def CHUNKSIZE (hg : Histo) : Nat := hg.MANTISSAS

/-- `__builtin_clzll`, of a value that is not 0. -/
def clzll (value : Nat) : Nat := 63 - value.log2

/-- `exponent` in `value_to_key`, by which the value is shifted. -/
def valueExponent (hg : Histo) (value : Nat) : Nat :=
  (63 + 2 ^ 32 - hg.sigbits - clzll (value ||| hg.CHUNKSIZE)) % 2 ^ 32

def valueToKey (hg : Histo) (value : Nat) : Nat :=
  let mantissa := (value >>> hg.valueExponent value) % 2 ^ 32
  (hg.valueExponent value <<< hg.sigbits + mantissa) % 2 ^ 32

/-- `exponent` in `key_to_minval`, by which the mantissa is shifted unless the key is in the first chunk. -/
def keyExponent (hg : Histo) (key : Nat) : Nat := (key / hg.CHUNKSIZE + 2 ^ 32 - 1) % 2 ^ 32

def keyToMinval (hg : Histo) (key : Nat) : Nat :=
  let mantissa := (key % hg.CHUNKSIZE + hg.CHUNKSIZE) % 2 ^ 32
  if key < hg.CHUNKSIZE then key else (mantissa <<< hg.keyExponent key) % 2 ^ 64

def keyToMaxval (hg : Histo) (key : Nat) : Nat := (hg.keyToMinval ((key + 1) % 2 ^ 32) + 2 ^ 64 - 1) % 2 ^ 64

end Histo

end OqsBind.Isc
