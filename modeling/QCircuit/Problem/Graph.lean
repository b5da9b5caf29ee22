import QCircuit.Gate
import QCircuit.Problem
import QCircuit.Problem.Fault

/-!
# Problem graphs

The edges of a problem on a register, as pairs of qubits. Each has to join two different qubits of the
register; the first that does not is the fault. Without a list of edges the graph is the ring in which
every qubit is joined to the next.
-/

set_option autoImplicit false

namespace QCircuit.Graph

/-- The ring on a register. -/
def ring (width : Nat) : List Edge := (List.range width).map fun i => .vertex (UInt32.ofNat i)

/-- The qubits that an edge joins, or what is wrong with it. -/
def join (width : Nat) (edge : Edge) : Except InputFault (Qubit × Qubit) :=
  let (i, j) := edge.endpoints width
  if width ≤ i ∨ width ≤ j then .error (.edgeOutside i j width)
  else if i = j then .error (.selfLoop i j)
  else .ok (i, j)

/-- The qubits that each edge of a problem joins. -/
def edges (width : Nat) (edges : Option (List Edge)) : Except InputFault (List (Qubit × Qubit)) :=
  match edges with
  | some edges => edges.mapM (join width)
  | none => (ring width).mapM (join width)

end QCircuit.Graph
