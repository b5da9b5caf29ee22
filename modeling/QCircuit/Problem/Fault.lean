import QCircuit.Problem
import QCircuit.Settings

/-!
# Faults of the input

What can be wrong with the input of a request for a circuit, and what is said of it. A text that is no
problem data has one fault for all that may be wrong with it.
-/

set_option autoImplicit false

namespace QCircuit

/-- What is wrong with the input of a request. -/
inductive InputFault where
  /-- A text that is no problem data. -/
  | malformed
  | itemsNotPositive (numItems : Int64)
  | settingTooLarge (excess : Settings.Excess)
  | edgeOutside (i j width : Nat)
  | selfLoop (i j : Nat)
deriving DecidableEq

/-- What is said of an input fault. -/
def InputFault.message : InputFault → String
  | .malformed => "malformed auxiliary data"
  | .itemsNotPositive n => "num_items must be positive, got " ++ toString n.toInt
  | .settingTooLarge excess =>
      s!"{excess.name} must be at most {excess.bound}, got {excess.value}"
  | .edgeOutside i j width => s!"edge ({i}, {j}) references a qubit outside [0, {width})"
  | .selfLoop i j => s!"edge ({i}, {j}) is a self-loop"

/-- The problem data of a request, or its fault. -/
def Problem.parse (text : String) : Except InputFault Problem :=
  match Problem.read? text with
  | some problem => .ok problem
  | none => .error .malformed

end QCircuit
