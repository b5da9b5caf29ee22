/-!
# Double-precision words

A `Binary64` is a 64-bit word read as sign, eleven exponent bits and fifty-two fraction bits. The
library never computes with the machine's floating-point type: a finite word has an exact magnitude,
a whole number of units of `2 ^ (-1074)` (`Binary64.units`), and every operation is stated on it.

Two words are equal when their bits are, so `0.0` and `-0.0` differ and every NaN equals itself.
-/

set_option autoImplicit false

namespace QCircuit

/-- Powers of numbers are those of the core library, also where algebraic ones are in scope. -/
@[default_instance high]
instance (priority := high) natPow {α : Type} [NatPow α] : Pow α Nat := instPowNat

/-- A double-precision word, kept as its bits. -/
structure Binary64 where
  bits : UInt64
deriving DecidableEq, Inhabited

namespace Binary64

/-- The sign bit. -/
def negative (x : Binary64) : Bool := 2 ^ 63 ≤ x.bits.toNat

/-- The eleven exponent bits. -/
def exponentField (x : Binary64) : Nat := x.bits.toNat / 2 ^ 52 % 2 ^ 11

/-- The fifty-two fraction bits. -/
def fractionField (x : Binary64) : Nat := x.bits.toNat % 2 ^ 52

/-- Neither infinite nor NaN. -/
def isFinite (x : Binary64) : Bool := x.exponentField < 2047

/-- An exponent of ones over a fraction that is not zero. -/
def isNaN (x : Binary64) : Bool := x.exponentField = 2047 && x.fractionField ≠ 0

/-- How many units of `2 ^ (-1074)` make one. -/
def unitsPerOne : Nat := 2 ^ 1074

/-- The magnitude of a finite word in units of `2 ^ (-1074)`. An exponent field of zero has no
leading one; the exponent field one has the same unit. -/
def units (x : Binary64) : Nat :=
  if x.exponentField = 0 then x.fractionField
  else (2 ^ 52 + x.fractionField) * 2 ^ (x.exponentField - 1)

/-- The word with the given sign and the given place in the order of magnitudes, infinity being the
last place. -/
def ofPlace (negative : Bool) (place : Nat) : Binary64 :=
  ⟨UInt64.ofNat ((if negative then 2 ^ 63 else 0) + min place (2047 * 2 ^ 52))⟩

/-- Zero with a sign. -/
def zero (negative : Bool) : Binary64 := ofPlace negative 0

/-- Infinity with a sign. -/
def infinity (negative : Bool) : Binary64 := ofPlace negative (2047 * 2 ^ 52)

/-- The word nearest to half a turn. -/
def pi : Binary64 := ⟨0x400921FB54442D18⟩

/-- The word nearest to a full turn. -/
def tau : Binary64 := ⟨0x401921FB54442D18⟩

/-- The word nearest to an eighth of a turn. -/
def quarterPi : Binary64 := ⟨0x3FE921FB54442D18⟩

/-- The word nearest to the square root of two. -/
def sqrtTwo : Binary64 := ⟨0x3FF6A09E667F3BCD⟩

end Binary64

end QCircuit
