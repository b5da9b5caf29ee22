import QCircuit.Decimal.Shortest

/-!
# Written decimals

A `Layout` holds what a format decides about the text of a number: from which to which power of ten
the digits stand around a point, and which way a tie between two shortest decimals goes. A positional
text always has a digit on both sides of the point. Outside the positional powers the text is one
digit, a point and the other digits if there are any, and an exponent that always has a sign.
-/

set_option autoImplicit false

namespace QCircuit.Decimal

/-- The decisions of a format about the text of a number. -/
structure Layout where
  /-- Whether a magnitude whose leading digit has this power of ten is written positionally. -/
  positional : Int → Bool
  tie : Tie

/-- The digits around a point: zeros fill the places up to it on either side. -/
def positionalText (d : Decimal) : List Char :=
  let digits := numeral d.digits
  let fraction := (-d.exponent).toNat
  if d.exponent ≥ 0 then
    digits ++ List.replicate d.exponent.toNat '0' ++ ['.', '0']
  else if fraction < digits.length then
    digits.take (digits.length - fraction) ++ '.' :: digits.drop (digits.length - fraction)
  else
    '0' :: '.' :: List.replicate (fraction - digits.length) '0' ++ digits

/-- The power of ten of the leading digit. -/
def leading (d : Decimal) : Int := d.exponent + (width d.digits : Int) - 1

/-- A power of ten with its sign. -/
def exponentText (power : Int) : List Char :=
  'e' :: (if power < 0 then '-' else '+') :: numeral power.natAbs

/-- One digit, the rest after a point, and the power of ten of the leading digit. -/
def scientificText (d : Decimal) : List Char :=
  match numeral d.digits with
  | [] => exponentText d.leading
  | [digit] => digit :: exponentText d.leading
  | digit :: rest => digit :: '.' :: rest ++ exponentText d.leading

/-- The text of a finite word. -/
def Layout.text (layout : Layout) (x : Binary64) : List Char :=
  let d := shortest layout.tie x
  let magnitude := if layout.positional d.leading then positionalText d else scientificText d
  if x.negative then '-' :: magnitude else magnitude

end QCircuit.Decimal
