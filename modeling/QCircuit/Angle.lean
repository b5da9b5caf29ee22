import QCircuit.Decimal.Layout

/-!
# Named angles

A rotation has an angle in radians under one of two names. The name is for description only: it shows
in the JSON form of a gate and nowhere else.

The text of an angle has the fewest digits that read back as the same double-precision word, never an
exponent, and always a point with a digit on either side.
-/

set_option autoImplicit false

namespace QCircuit

/-- The names an angle may have. -/
inductive AngleName where
  | theta
  | phi
deriving DecidableEq

/-- The name as it is written. -/
def AngleName.text : AngleName → String
  | .theta => "theta"
  | .phi => "phi"

/-- An angle in radians under a name. -/
structure Angle where
  name : AngleName
  value : Binary64
deriving DecidableEq

namespace Angle

/-- Angles are written positionally at every size; of two shortest decimals that are equally near, the
larger one is written. -/
def layout : Decimal.Layout := ⟨fun _ => true, .away⟩

/-- The text of an angle in radians. What is not finite has a word instead of digits. -/
def radiansText (x : Binary64) : String :=
  if x.isFinite then String.ofList (layout.text x)
  else if x.isNaN then "NaN"
  else if x.negative then "-inf"
  else "inf"

end Angle

end QCircuit
