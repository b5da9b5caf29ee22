import QCircuit.Json
import QCircuit.Decimal.Layout

/-!
# Number literals

A literal with neither fraction nor exponent is a whole number, unless it is `-0` or outside the
range of 64-bit words, signed or unsigned; every other literal is the double-precision word nearest to
it. Writing keeps the two classes apart: a whole number has digits only, a word always has a point or
an exponent. What is not finite has no literal and is written as `null`.
-/

set_option autoImplicit false

namespace QCircuit.Json

/-- Words are written positionally from `1e-5` to below `1e16`, and a tie between two shortest
decimals goes to the even last digit. -/
def realLayout : Decimal.Layout := ⟨fun power => -5 ≤ power && power ≤ 15, .toEven⟩

/-- The text of a double-precision word. -/
def realText (x : Binary64) : List Char :=
  if x.isFinite then realLayout.text x else ['n', 'u', 'l', 'l']

/-- The text of a whole number. -/
def intText (z : Int) : List Char :=
  if z < 0 then '-' :: Decimal.numeral z.natAbs else Decimal.numeral z.natAbs

/-- The parts of a number literal. -/
structure Literal where
  negative : Bool
  whole : List Char
  fraction : List Char
  exponent : Option Int

namespace Literal

/-- A row of digits at the front of a text, which has to have one, and the rest. -/
def digits? (text : List Char) : Option (List Char × List Char) :=
  match text.takeWhile Decimal.isDigit with
  | [] => none
  | digits => some (digits, text.dropWhile Decimal.isDigit)

/-- The minus sign at the front of a text, if it has one, and the rest. -/
def sign (text : List Char) : Bool × List Char :=
  match text with
  | '-' :: rest => (true, rest)
  | rest => (false, rest)

/-- The digits before the point: a zero in front stands alone. -/
def whole? (text : List Char) : Option (List Char × List Char) := do
  let (digits, rest) ← digits? text
  if digits.head? = some '0' ∧ digits.length ≠ 1 then none else some (digits, rest)

/-- The digits after the point, if there is one. -/
def fraction? (text : List Char) : Option (List Char × List Char) :=
  match text with
  | '.' :: rest => digits? rest
  | rest => some ([], rest)

/-- The exponent, if there is one. -/
def exponent? (text : List Char) : Option (Option Int × List Char) :=
  let signed (negative : Bool) (text : List Char) : Option (Option Int × List Char) := do
    let (digits, rest) ← digits? text
    let value : Int := Decimal.ofNumeral digits
    some (some (if negative then -value else value), rest)
  match text with
  | mark :: rest =>
      if mark = 'e' ∨ mark = 'E' then
        match rest with
        | '-' :: rest => signed true rest
        | '+' :: rest => signed false rest
        | rest => signed false rest
      else some (none, mark :: rest)
  | [] => some (none, [])

/-- The parts of a text that is a number literal. -/
def read? (text : List Char) : Option Literal := do
  let (negative, rest) := sign text
  let (whole, rest) ← whole? rest
  let (fraction, rest) ← fraction? rest
  let (exponent, rest) ← exponent? rest
  if rest = [] then some ⟨negative, whole, fraction, exponent⟩ else none

/-- The magnitude of a literal. -/
def decimal (l : Literal) : Decimal :=
  ⟨Decimal.ofNumeral (l.whole ++ l.fraction), l.exponent.getD 0 - (l.fraction.length : Int)⟩

/-- The whole number of a literal without fraction and exponent. -/
def wholeNumber? (l : Literal) : Option Int :=
  if l.fraction = [] ∧ l.exponent = none then
    let magnitude : Int := Decimal.ofNumeral l.whole
    let value := if l.negative then -magnitude else magnitude
    let negativeZero := l.negative ∧ magnitude = 0
    if ¬ negativeZero ∧ -(2 ^ 63) ≤ value ∧ value < 2 ^ 64 then some value else none
  else none

/-- The value of a literal. -/
def value {τ : Type} (l : Literal) : Json τ :=
  match l.wholeNumber? with
  | some z => .int z
  | none => .real (l.decimal.toBinary64Bounded l.negative)

end Literal

end QCircuit.Json
