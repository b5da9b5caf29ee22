import QCircuit.Binary64

/-!
# Rounding to double precision

A quotient of two natural numbers is rounded to the nearest double-precision word, a tie going to the
word with the even fraction and anything past the largest finite word to infinity. Doubling, products
and division by a power of two are this rounding of the exact result.

Words of one sign are ordered as their bits, so the rounded word is found as a place in that order:
with the unit `2 ^ shift` chosen such that the quotient has fifty-three bits of it, the place is
`shift * 2 ^ 52` plus the quotient rounded to that unit, and a carry moves on to the next exponent.
-/

set_option autoImplicit false

namespace QCircuit.Binary64

/-- The whole number nearest to `num / den`, the even one of two that are equally near. -/
def roundHalfEven (num den : Nat) : Nat :=
  let quotient := num / den
  let twice := 2 * (num % den)
  if twice < den then quotient
  else if den < twice then quotient + 1
  else quotient + quotient % 2

/-- How far the unit of rounding lies above `2 ^ (-1074)` for the magnitude `num / den`. -/
def shiftOf (num den : Nat) : Nat := (num * unitsPerOne / den).log2 - 52

/-- The place of the word nearest to `num / den`. -/
def placeOfRatio (num den : Nat) : Nat :=
  let shift := shiftOf num den
  shift * 2 ^ 52 + roundHalfEven (num * unitsPerOne) (den * 2 ^ shift)

/-- The word nearest to `num / den`, with a sign. -/
def ofRatio (negative : Bool) (num den : Nat) : Binary64 :=
  ofPlace negative (placeOfRatio num den)

/-- Twice a word. What is not finite stays as it is. -/
def double (x : Binary64) : Binary64 :=
  if x.isFinite then ofRatio x.negative (2 * x.units) unitsPerOne else x

/-- The product of the proper fraction `num / den` and a finite word. -/
def scale (num den : Nat) (x : Binary64) : Binary64 :=
  ofRatio x.negative (num * x.units) (den * unitsPerOne)

/-- The product of two finite words. -/
def mul (x y : Binary64) : Binary64 :=
  ofRatio (x.negative ^^ y.negative) (x.units * y.units) (unitsPerOne * unitsPerOne)

/-- A finite word with the other sign, divided by the word of `2 ^ k`; that word is infinite from
`k = 1024` on, and the quotient then is zero. -/
def negDivTwoPow (x : Binary64) (k : Nat) : Binary64 :=
  if k < 1024 then ofRatio (!x.negative) x.units (unitsPerOne * 2 ^ k) else zero (!x.negative)

/-- The greatest whole number at most `2 ^ k` times a finite word that is not negative. -/
def floorMulTwoPow (x : Binary64) (k : Nat) : Nat := x.units * 2 ^ k / unitsPerOne

/-- Control: a tie goes to the even neighbour, above and below. -/
theorem roundHalfEven_ties : roundHalfEven 5 2 = 2 ∧ roundHalfEven 7 2 = 4 := by decide

end QCircuit.Binary64
