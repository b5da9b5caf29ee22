import QCircuit.Decimal

/-!
# Shortest decimals

The decimal written for a double-precision word has the fewest digits that read back as the word, and
among those of that many digits it is the nearest to the word's exact value. On the grid of decimals
with a given number of digits only the two neighbours of the exact value need a look: if any point of
the grid reads back, one of them does.

Which of two neighbours wins when both read back and are equally near is up to the format
(`Decimal.Tie`). Should no grid up to seventeen digits have a point that reads back, the exact value
is written, which every finite word has.
-/

set_option autoImplicit false

namespace QCircuit.Decimal

/-- What becomes of an exact tie between two neighbouring decimals: the one with the even last digit,
or the larger one. -/
inductive Tie where
  | toEven
  | away
deriving DecidableEq

/-- The power of ten of the leading digit of the magnitude `num / den`, which is not zero. -/
def leadingPower (num den : Nat) : Int :=
  if den ≤ num then (width (num / den) : Int) - 1 else -(width ((den - 1) / num) : Int)

/-- The neighbours of `num / den` among the multiples of `10 ^ exponent`, the one at most `num / den`
as a count of such multiples, together with twice the remainder and the divisor that it is compared
with. -/
def gridBelow (num den : Nat) (exponent : Int) : Nat × Nat × Nat :=
  let scaledNum := num * 10 ^ (-exponent).toNat
  let scaledDen := den * 10 ^ exponent.toNat
  (scaledNum / scaledDen, 2 * (scaledNum % scaledDen), scaledDen)

/-- The nearer neighbour of the two, when both will do. -/
def nearer (tie : Tie) (below twice divisor : Nat) : Nat :=
  if twice < divisor then below
  else if divisor < twice then below + 1
  else match tie with
    | .toEven => below + below % 2
    | .away => below + 1

/-- The neighbour that is written on a grid, of those that read back. -/
def chosen? (tie : Tie) (readsBack : Nat → Bool) : Nat × Nat × Nat → Option Nat
  | (below, twice, divisor) =>
      match readsBack below, readsBack (below + 1) with
      | true, true => some (nearer tie below twice divisor)
      | true, false => some below
      | false, true => some (below + 1)
      | false, false => none

/-- The decimal on the grid of multiples of `10 ^ exponent` that is written for `x`, if one reads back
as `x`. -/
def onGrid? (tie : Tie) (x : Binary64) (exponent : Int) : Option Decimal :=
  let readsBack (digits : Nat) : Bool := toBinary64 x.negative ⟨digits, exponent⟩ = x
  (chosen? tie readsBack (gridBelow x.units Binary64.unitsPerOne exponent)).map (⟨·, exponent⟩)

/-- The first grid that has a decimal for `x`, trying `fuel` grids from the given one towards finer
ones. -/
def firstGrid? (tie : Tie) (x : Binary64) : Nat → Int → Option Decimal
  | 0, _ => none
  | fuel + 1, exponent =>
      (onGrid? tie x exponent).orElse fun _ => firstGrid? tie x fuel (exponent - 1)

/-- The exact value of a finite word: a unit of `2 ^ (-1074)` is `5 ^ 1074` over `10 ^ 1074`. -/
def exact (x : Binary64) : Decimal := ⟨x.units * 5 ^ 1074, -1074⟩

/-- The decimal without the zeros at the end of its digits, at most `fuel` of them. -/
def trim : Nat → Decimal → Decimal
  | 0, d => d
  | fuel + 1, d =>
      if d.digits ≠ 0 ∧ d.digits % 10 = 0 then trim fuel ⟨d.digits / 10, d.exponent + 1⟩ else d

/-- The decimal written for the magnitude of a finite word. -/
def shortest (tie : Tie) (x : Binary64) : Decimal :=
  if x.units = 0 then ⟨0, 0⟩
  else
    match firstGrid? tie x 17 (leadingPower x.units Binary64.unitsPerOne) with
    | some d => trim 1 d
    | none => exact x

end QCircuit.Decimal
