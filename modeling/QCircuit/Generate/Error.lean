import QCircuit.Family
import QCircuit.Gate.Fault
import QCircuit.Problem.Fault

/-!
# Why nothing is generated

The causes for which a request for a circuit fails, and what is said of each.
-/

set_option autoImplicit false

namespace QCircuit

/-- Why a request fails. -/
inductive GenerationError where
  | invalidInput (fault : InputFault)
  | unknownFamily (id : String)
  | circuit (error : CircuitError)
deriving DecidableEq

/-- What is said of a failed request. -/
def GenerationError.message : GenerationError → String
  | .invalidInput fault => "Invalid input: " ++ fault.message
  | .unknownFamily id =>
      s!"Unknown algorithm '{id}' (expected one of: " ++
        ", ".intercalate (Family.all.map Family.id) ++ ")"
  | .circuit error => "Circuit error: " ++ error.message

end QCircuit
