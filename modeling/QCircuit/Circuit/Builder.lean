import QCircuit.Circuit
import QCircuit.Gate.Fault

/-!
# Building circuits

A circuit under construction takes one edit after another. A gate is appended only if it has no fault on
the register, so that whether it is taken depends on the gate and the width alone. A refusal hands the
builder back beside the error, and the edits after it go on from there. Metadata is set key by key.
-/

set_option autoImplicit false

namespace QCircuit

/-- A circuit under construction. -/
structure Builder where
  algorithm : String
  width : Nat
  gates : Array Gate
  metadata : Json.Members

/-- A change to a circuit under construction. All but the last append one gate: one that is given as
a whole, one on the qubits that are named, or a measurement of the whole register. -/
inductive Edit where
  | push (gate : Gate)
  | h (q : Qubit)
  | x (q : Qubit)
  | y (q : Qubit)
  | z (q : Qubit)
  | rx (angle : Angle) (q : Qubit)
  | ry (angle : Angle) (q : Qubit)
  | rz (angle : Angle) (q : Qubit)
  | cx (control target : Qubit)
  | cp (theta : Binary64) (control target : Qubit)
  | swap (a b : Qubit)
  | custom (name : String) (qubits : List Qubit) (params : List Binary64)
  | measure (targets : List Qubit)
  | measureAll
  /-- Sets a metadata key. -/
  | describe (key : String) (value : Json String)

namespace Builder

/-- An empty circuit on a register, which has to have a qubit. -/
def start (algorithm : String) (width : Nat) : Except CircuitError Builder :=
  if width = 0 then .error (.zeroQubits algorithm) else .ok ⟨algorithm, width, #[], []⟩

/-- Appends a gate that has no fault on the register. -/
def push (b : Builder) (gate : Gate) : Except CircuitError Unit × Builder :=
  match gate.faultIn? b.width with
  | some fault => (.error (.invalidGate gate.name fault), b)
  | none => (.ok (), { b with gates := b.gates.push gate })

/-- Appends gates up to the first that has a fault. -/
def pushAll (b : Builder) : List Gate → Except CircuitError Unit × Builder
  | [] => (.ok (), b)
  | gate :: rest =>
      match b.push gate with
      | (.ok (), b) => b.pushAll rest
      | (.error e, b) => (.error e, b)

/-- Measures every qubit of the register. -/
def measureAll (b : Builder) : Except CircuitError Unit × Builder :=
  b.push (.measure (List.range b.width))

/-- Sets a metadata key. -/
def describe (b : Builder) (key : String) (value : Json String) : Builder :=
  { b with metadata := b.metadata.put key value }

/-- The answer to an edit, and the builder after it. -/
def apply (b : Builder) : Edit → Except CircuitError Unit × Builder
  | .push gate => b.push gate
  | .h q => b.push (.h q)
  | .x q => b.push (.x q)
  | .y q => b.push (.y q)
  | .z q => b.push (.z q)
  | .rx angle q => b.push (.rx angle q)
  | .ry angle q => b.push (.ry angle q)
  | .rz angle q => b.push (.rz angle q)
  | .cx control target => b.push (.cx control target)
  | .cp theta control target => b.push (.cp theta control target)
  | .swap p q => b.push (.swap p q)
  | .custom name qubits params => b.push (.custom name qubits params)
  | .measure targets => b.push (.measure targets)
  | .measureAll => b.measureAll
  | .describe key value => (.ok (), b.describe key value)

/-- The builder after a row of edits, refused ones among them. -/
def run (b : Builder) (edits : List Edit) : Builder :=
  edits.foldl (fun b edit => (b.apply edit).2) b

/-- Sets metadata keys one after another. -/
def describeAll (b : Builder) (entries : Json.Members) : Builder :=
  entries.foldl (fun b entry => b.describe entry.1 entry.2) b

/-- The finished circuit. -/
def finish (b : Builder) : Circuit := ⟨b.algorithm, b.width, b.gates.toList, b.metadata⟩

end Builder

/-- The circuit of a row of gates on a register, with its metadata, if no gate is refused. -/
def Circuit.build (algorithm : String) (width : Nat) (gates : List Gate) (entries : Json.Members) :
    Except CircuitError Circuit := do
  let b ← Builder.start algorithm width
  let (answer, b) := b.pushAll gates
  answer
  .ok (b.describeAll entries).finish

end QCircuit
