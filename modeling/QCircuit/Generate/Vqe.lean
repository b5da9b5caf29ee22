import QCircuit.Circuit.Builder
import QCircuit.Draw
import QCircuit.Family
import QCircuit.Settings

/-!
# Variational eigensolver circuits

Each layer rotates every qubit about Y, joins neighbours in a chain, and rotates every qubit about Z.
Every rotation has an angle of its own, drawn in the order of the rotations. At the end all qubits are
measured. No angle is drawn for a register without qubits, which is refused.
-/

set_option autoImplicit false

namespace QCircuit.Vqe

variable {σ : Type}

/-- A rotation of each qubit in turn, one for each angle. -/
def rotations (rotation : Binary64 → Qubit → Gate) (angles : List Binary64) : List Gate :=
  angles.zipIdx.map fun (angle, q) => rotation angle q

/-- Every qubit controls the next. -/
def chain (width : Nat) : List Gate := (List.range (width - 1)).map fun i => .cx i (i + 1)

/-- The gates of a layer with the given angles. -/
def layer (width : Nat) (thetas phis : List Binary64) : List Gate :=
  rotations (fun angle q => .ry ⟨.theta, angle⟩ q) thetas ++ chain width ++
    rotations (fun angle q => .rz ⟨.phi, angle⟩ q) phis

/-- The gates of some layers, and the source after their draws. -/
def layers (source : AngleSource σ) (width : Nat) : Nat → σ → List Gate × σ
  | 0, s => ([], s)
  | count + 1, s =>
      let (thetas, s) := source.take width s
      let (phis, s) := source.take width s
      let (rest, s) := layers source width count s
      (layer width thetas phis ++ rest, s)

/-- What is recorded of a circuit. -/
def metadata (width count : Nat) : Json.Members :=
  [("type", .str "variational"), ("description", .str Family.vqe.summary),
    ("layers", .nat count), ("parameters", .nat (count * width * 2)),
    ("classical_optimizer", .str "COBYLA")]

/-- The circuit of a width, and the source after its draws. -/
def circuit (source : AngleSource σ) (width : Nat) (settings : Settings) (s : σ) :
    Except CircuitError Circuit × σ :=
  if width = 0 then (.error (.zeroQubits Family.vqe.title), s)
  else
    let count := settings.vqeLayers.toNat
    let (gates, s) := layers source width count s
    (Circuit.build Family.vqe.title width (gates ++ [.measure (List.range width)])
      (metadata width count), s)

end QCircuit.Vqe
