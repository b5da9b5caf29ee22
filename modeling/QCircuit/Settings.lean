import QCircuit.Json.Printer
import QCircuit.Json.Record

/-!
# Generator settings

The four knobs of the generators. Reading them from JSON takes a record in which every field may be
absent and then keeps its usual value; it does not look at the bounds, which are checked before a
circuit is generated (`Settings.excess?`).
-/

set_option autoImplicit false

namespace QCircuit

/-- The knobs of the generators. -/
structure Settings where
  groverMaxIterations : UInt32
  shorMinQubits : UInt32
  vqeLayers : UInt32
  qaoaLayers : UInt32
deriving DecidableEq

namespace Settings

/-- The usual values. -/
def usual : Settings := ⟨3, 16, 3, 2⟩

/-- The most rounds of any kind that a generator takes. -/
def maxLayers : Nat := 64

/-- The greatest width that the settings may ask for. -/
def maxShorQubits : Nat := 128

/-- The names of the knobs. -/
def keys : List String := ["grover_max_iterations", "shor_min_qubits", "vqe_layers", "qaoa_layers"]

/-- A knob above its bound. -/
structure Excess where
  name : String
  bound : Nat
  value : Nat
deriving DecidableEq

/-- The knobs with their names and bounds. -/
def knobs (s : Settings) : List Excess :=
  [⟨"grover_max_iterations", maxLayers, s.groverMaxIterations.toNat⟩,
    ⟨"shor_min_qubits", maxShorQubits, s.shorMinQubits.toNat⟩,
    ⟨"vqe_layers", maxLayers, s.vqeLayers.toNat⟩,
    ⟨"qaoa_layers", maxLayers, s.qaoaLayers.toNat⟩]

/-- The first knob above its bound. -/
def excess? (s : Settings) : Option Excess := s.knobs.find? fun knob => knob.bound < knob.value

/-- The settings that a JSON value is. -/
def ofJson? (json : Json.Reading) : Option Settings := do
  match ← Json.Record.fields? keys json with
  | [grover, shor, vqe, qaoa] =>
      let grover ← Json.Record.default? Json.Record.uint32? usual.groverMaxIterations grover
      let shor ← Json.Record.default? Json.Record.uint32? usual.shorMinQubits shor
      let vqe ← Json.Record.default? Json.Record.uint32? usual.vqeLayers vqe
      let qaoa ← Json.Record.default? Json.Record.uint32? usual.qaoaLayers qaoa
      some ⟨grover, shor, vqe, qaoa⟩
  | _ => none

/-- The settings that a text is. -/
def read? (text : String) : Option Settings := (Json.read? text).bind ofJson?

/-- Settings as they are written. -/
def toJson (s : Settings) : Json String :=
  .obj (s.knobs.map fun knob => (knob.name, .nat knob.value))

end Settings

end QCircuit
