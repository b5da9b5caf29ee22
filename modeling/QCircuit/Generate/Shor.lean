import QCircuit.Binary64.Rounding
import QCircuit.Circuit.Builder
import QCircuit.Family
import QCircuit.Settings

/-!
# Shor period finding

The register is split into control qubits and target qubits, half and half, the odd qubit going to the
targets. The control qubits are put in superposition and each is entangled with every target; then
follows the inverse Fourier transform on the control qubits, which are measured.
-/

set_option autoImplicit false

namespace QCircuit.Shor

/-- The width of the circuit: that of the problem, or the least one of the settings. -/
def fullWidth (width : Nat) (settings : Settings) : Nat := max width settings.shorMinQubits.toNat

/-- The number of control qubits of a register. -/
def controls (width : Nat) : Nat := width / 2

/-- The number of target qubits of a register. -/
def targets (width : Nat) : Nat := width - controls width

/-- Every control qubit controls every target qubit. -/
def entangle (width : Nat) : List Gate :=
  (List.range (controls width)).flatMap fun i =>
    (List.range (targets width)).map fun j => .cx i (controls width + j)

/-- Reverses the order of the first qubits. -/
def reversal (count : Nat) : List Gate :=
  (List.range (count / 2)).map fun i => .swap i (count - 1 - i)

/-- The phase of qubit `i` that is controlled by qubit `j`: half a turn backwards, halved for each
place between them. -/
def phase (i j : Nat) : Binary64 := Binary64.pi.negDivTwoPow (i - j)

/-- The inverse Fourier transform of one qubit, controlled by those before it. -/
def transform (i : Nat) : List Gate :=
  .h i :: (List.range i).map fun j => .cp (phase i j) j i

/-- The inverse Fourier transform on the first qubits. -/
def inverseFourier (count : Nat) : List Gate :=
  reversal count ++ (List.range count).flatMap transform

/-- The gates of a circuit. -/
def gates (width : Nat) : List Gate :=
  (List.range (controls width)).map .h ++ entangle width ++ inverseFourier (controls width) ++
    [.measure (List.range (controls width))]

/-- What is recorded of a circuit. -/
def metadata (width : Nat) : Json.Members :=
  [("type", .str "factorization"), ("description", .str Family.shor.summary),
    ("control_qubits", .nat (controls width)), ("target_qubits", .nat (targets width)),
    ("classical_postprocessing", .bool true)]

/-- The circuit for a width. -/
def circuit (width : Nat) (settings : Settings) : Except CircuitError Circuit :=
  Circuit.build Family.shor.title (fullWidth width settings) (gates (fullWidth width settings))
    (metadata (fullWidth width settings))

end QCircuit.Shor
