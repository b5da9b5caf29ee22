import QCircuit.Circuit.Builder
import QCircuit.Draw
import QCircuit.Generate.Error
import QCircuit.Problem.Graph

/-!
# Approximate optimization circuits

All qubits are put in superposition. Each layer applies a phase for every edge of the problem graph and
then mixes by rotating every qubit about X; at the end all qubits are measured. A layer draws two
angles, the first for all of its phases and the second for all of its rotations, whatever the number
of edges. A register without qubits and a graph with a bad edge are refused, in that order and before
any draw.
-/

set_option autoImplicit false

namespace QCircuit.Qaoa

variable {σ : Type}

/-- The phase of one edge. -/
def edgePhase (gamma : Binary64) (edge : Qubit × Qubit) : List Gate :=
  [.cx edge.1 edge.2, .rz ⟨.phi, gamma.double⟩ edge.2, .cx edge.1 edge.2]

/-- The phases of all edges. -/
def cost (gamma : Binary64) (edges : List (Qubit × Qubit)) : List Gate :=
  edges.flatMap (edgePhase gamma)

/-- The mixing rotations. -/
def mixer (beta : Binary64) (width : Nat) : List Gate :=
  (List.range width).map (.rx ⟨.theta, beta.double⟩)

/-- The gates of some layers, and the source after their draws. -/
def layers (source : AngleSource σ) (width : Nat) (edges : List (Qubit × Qubit)) :
    Nat → σ → List Gate × σ
  | 0, s => ([], s)
  | count + 1, s =>
      let (gamma, s) := source.draw s
      let (beta, s) := source.draw s
      let (rest, s) := layers source width edges count s
      (cost gamma edges ++ mixer beta width ++ rest, s)

/-- What is recorded of a circuit. -/
def metadata (count : Nat) (edges : List (Qubit × Qubit)) : Json.Members :=
  [("type", .str "optimization"), ("description", .str Family.qaoa.summary),
    ("layers", .nat count), ("edges", .nat edges.length),
    ("classical_optimizer", .str "Nelder-Mead")]

/-- The circuit of a width and a list of edges, and the source after its draws. -/
def circuit (source : AngleSource σ) (width : Nat) (edges : Option (List Edge))
    (settings : Settings) (s : σ) : Except GenerationError Circuit × σ :=
  if width = 0 then (.error (.circuit (.zeroQubits Family.qaoa.title)), s)
  else
    match Graph.edges width edges with
    | .error fault => (.error (.invalidInput fault), s)
    | .ok edges =>
        let count := settings.qaoaLayers.toNat
        let (gates, s) := layers source width edges count s
        ((Circuit.build Family.qaoa.title width
          ((List.range width).map .h ++ gates ++ [.measure (List.range width)])
          (metadata count edges)).mapError .circuit, s)

end QCircuit.Qaoa
