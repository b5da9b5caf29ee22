import QCircuit.Circuit.Builder
import QCircuit.Family

/-!
# Bell pairs

Two qubits are entangled and measured. Neither the problem nor the settings have a say.
-/

set_option autoImplicit false

namespace QCircuit.Bell

/-- The gates of the circuit. -/
def gates : List Gate := [.h 0, .cx 0 1, .measure [0, 1]]

/-- The word nearest to the fidelity that is expected. -/
def fidelity : Binary64 := ⟨0x3FEFAE147AE147AE⟩

/-- What is recorded of the circuit. -/
def metadata : Json.Members :=
  [("type", .str "entanglement"), ("description", .str Family.bell.summary),
    ("expected_states", .arr [.str "00", .str "11"]), ("fidelity", .real fidelity)]

/-- The circuit. -/
def circuit : Except CircuitError Circuit :=
  Circuit.build Family.bell.title 2 gates metadata

end QCircuit.Bell
