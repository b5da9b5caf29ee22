import QCircuit.Binary64.Rounding

/-!
# Decimal magnitudes

A `Decimal` is a whole number times a power of ten, the magnitude of a number written in digits.
Reading one as a double-precision word rounds its exact value once (`Decimal.toBinary64`).
-/

set_option autoImplicit false

namespace QCircuit

/-- The magnitude `digits * 10 ^ exponent`. -/
structure Decimal where
  digits : Nat
  exponent : Int
deriving DecidableEq

namespace Decimal

/-- The digits of a natural number in base ten, without a leading zero. -/
def numeral (n : Nat) : List Char := Nat.toDigits 10 n

/-- Whether a character is one of the ten digits. -/
def isDigit (c : Char) : Bool := '0' ≤ c && c ≤ '9'

/-- The number that a row of digits writes. -/
def ofNumeral (digits : List Char) : Nat :=
  digits.foldl (fun value c => 10 * value + (c.toNat - '0'.toNat)) 0

/-- How many digits a number has in base ten. -/
def width (n : Nat) : Nat := (numeral n).length

/-- Numerator of the exact value. -/
def numerator (d : Decimal) : Nat := d.digits * 10 ^ d.exponent.toNat

/-- Denominator of the exact value. -/
def denominator (d : Decimal) : Nat := 10 ^ (-d.exponent).toNat

/-- The word nearest to the decimal. -/
def toBinary64 (negative : Bool) (d : Decimal) : Binary64 :=
  Binary64.ofRatio negative d.numerator d.denominator

/-- The word nearest to the decimal, without forming huge powers of ten: from `10 ^ 400` on every
decimal is infinite, and below `10 ^ (-400)` every one is zero. -/
def toBinary64Bounded (negative : Bool) (d : Decimal) : Binary64 :=
  let places := d.exponent + width d.digits
  if d.digits = 0 || places < -400 then Binary64.zero negative
  else if 400 < places then Binary64.infinity negative
  else d.toBinary64 negative

end Decimal

end QCircuit
