import QCircuit.Gate.Fault

/-!
# Gates from loose parts

A gate is put together from a kind, a list of targets, an optional control and a list of named angles.
The parts are checked in a fixed order, and the first broken rule is the fault: targets at all, the
names of the angles, whether there may be angles, whether there may be a control, how many targets the
kind takes, which angle it needs, and at last the rules of the finished gate.
-/

set_option autoImplicit false

namespace QCircuit

/-- Angles with their names as given. -/
abbrev NamedAngles : Type := List (String × Binary64)

namespace NamedAngles

/-- The first value under a name. -/
def value? (params : NamedAngles) (name : AngleName) : Option Binary64 := params.lookup name.text

/-- The first name that is no angle's. -/
def unknown? (params : NamedAngles) : Option String :=
  (params.find? fun (name, _) => name ≠ AngleName.theta.text ∧ name ≠ AngleName.phi.text).map
    Prod.fst

/-- The angle of a rotation: the first `theta`, else the first `phi`. -/
def rotationAngle? (params : NamedAngles) : Option Angle :=
  match params.value? .theta, params.value? .phi with
  | some theta, _ => some ⟨.theta, theta⟩
  | none, some phi => some ⟨.phi, phi⟩
  | none, none => none

end NamedAngles

namespace Gate

/-- The fault of the parts before a gate is put together from them. -/
def partsFault? (kind : GateKind) (targets : List Qubit) (control : Option Qubit)
    (params : NamedAngles) : Option Fault :=
  if targets = [] then some .emptyTargets
  else if let some name := params.unknown? then some (.unknownParam name)
  else if kind.takesAngle ∧ params = [] then some .missingParams
  else if ¬ kind.takesAngle ∧ params ≠ [] then some .unexpectedParams
  else if kind.takesControl ∧ control = none then some .missingControl
  else if ¬ kind.takesControl ∧ control ≠ none then some .unexpectedControl
  else none

/-- The rotation of the given parts. -/
def rotationOf (axis : Axis) (targets : List Qubit) (params : NamedAngles) : Except Fault Gate :=
  match params.rotationAngle? with
  | some angle => .ok (.rotation axis angle targets)
  | none => .error .missingParams

/-- The operands of a controlled gate: a control and one target. -/
def controlledOperands (targets : List Qubit) (control : Option Qubit) :
    Except Fault (Qubit × Qubit) :=
  match control, targets with
  | some control, [target] => .ok (control, target)
  | some _, targets => .error (.targetCount 1 targets.length)
  | none, _ => .error .missingControl

/-- The gate of the given parts, once `partsFault?` finds none. -/
def assemble (kind : GateKind) (targets : List Qubit) (control : Option Qubit)
    (params : NamedAngles) : Except Fault Gate :=
  match kind with
  | .h => .ok (.fixed .h targets)
  | .x => .ok (.fixed .x targets)
  | .y => .ok (.fixed .y targets)
  | .z => .ok (.fixed .z targets)
  | .rx => rotationOf .x targets params
  | .ry => rotationOf .y targets params
  | .rz => rotationOf .z targets params
  | .measure => .ok (.measure targets)
  | .swap =>
      match targets with
      | [a, b] => .ok (.swap a b)
      | targets => .error (.targetCount 2 targets.length)
  | .cx => do
      let (control, target) ← controlledOperands targets control
      .ok (.cx control target)
  | .cp => do
      let (control, target) ← controlledOperands targets control
      match params.value? .theta with
      | some theta => .ok (.cp theta control target)
      | none => .error .missingParams

/-- The gate of the given parts, or the first rule that they break. -/
def ofParts (kind : GateKind) (targets : List Qubit) (control : Option Qubit)
    (params : NamedAngles) : Except CircuitError Gate :=
  match partsFault? kind targets control params with
  | some fault => .error (.invalidGate kind.name fault)
  | none =>
      match assemble kind targets control params with
      | .error fault => .error (.invalidGate kind.name fault)
      | .ok gate => gate.validate

end Gate

end QCircuit
