import QCircuit.Angle
import QCircuit.Gate.Kind

/-!
# Gates

A gate is one operation with its operands. Each shape has exactly the parts that it needs: a rotation
has an angle, a controlled gate a control, a gate of the fixed kinds neither. A custom gate has a name
of its own and no meaning here.

Fixed gates, rotations and measurements act on each of their targets alone, so they are broadcast
gates; every other gate acts on all of its qubits at once.
-/

set_option autoImplicit false

namespace QCircuit

/-- A qubit is its index in the register. -/
abbrev Qubit : Type := Nat

/-- The kinds of gates on one qubit that take no angle. -/
inductive FixedKind where
  | h
  | x
  | y
  | z
deriving DecidableEq

/-- The axis of a rotation. -/
inductive Axis where
  | x
  | y
  | z
deriving DecidableEq

/-- A gate with its operands. -/
inductive Gate where
  | fixed (kind : FixedKind) (targets : List Qubit)
  | rotation (axis : Axis) (angle : Angle) (targets : List Qubit)
  | cx (control target : Qubit)
  | cp (theta : Binary64) (control target : Qubit)
  | swap (a b : Qubit)
  | measure (targets : List Qubit)
  | custom (name : String) (qubits : List Qubit) (params : List Binary64)
deriving DecidableEq

/-- The gate kind of a fixed kind. -/
def FixedKind.kind : FixedKind → GateKind
  | .h => .h
  | .x => .x
  | .y => .y
  | .z => .z

/-- The gate kind of rotations about an axis. -/
def Axis.kind : Axis → GateKind
  | .x => .rx
  | .y => .ry
  | .z => .rz

namespace Gate

/-- The Hadamard gate on one qubit. -/
def h (q : Qubit) : Gate := .fixed .h [q]

/-- The Pauli X gate on one qubit. -/
def x (q : Qubit) : Gate := .fixed .x [q]

/-- The Pauli Y gate on one qubit. -/
def y (q : Qubit) : Gate := .fixed .y [q]

/-- The Pauli Z gate on one qubit. -/
def z (q : Qubit) : Gate := .fixed .z [q]

/-- A rotation about the X axis of one qubit. -/
def rx (angle : Angle) (q : Qubit) : Gate := .rotation .x angle [q]

/-- A rotation about the Y axis of one qubit. -/
def ry (angle : Angle) (q : Qubit) : Gate := .rotation .y angle [q]

/-- A rotation about the Z axis of one qubit. -/
def rz (angle : Angle) (q : Qubit) : Gate := .rotation .z angle [q]

/-- The kind of a gate; a custom gate has none. -/
def kind? : Gate → Option GateKind
  | .fixed kind _ => some kind.kind
  | .rotation axis _ _ => some axis.kind
  | .cx _ _ => some .cx
  | .cp _ _ _ => some .cp
  | .swap _ _ => some .swap
  | .measure _ => some .measure
  | .custom _ _ _ => none

/-- The name of a gate: that of its kind, or its own. -/
def name : Gate → String
  | .fixed kind _ => kind.kind.name
  | .rotation axis _ _ => axis.kind.name
  | .cx _ _ => GateKind.cx.name
  | .cp _ _ _ => GateKind.cp.name
  | .swap _ _ => GateKind.swap.name
  | .measure _ => GateKind.measure.name
  | .custom name _ _ => name

/-- The control qubit of a controlled gate. -/
def control? : Gate → Option Qubit
  | .cx control _ => some control
  | .cp _ control _ => some control
  | _ => none

/-- The target qubits, in order. -/
def targets : Gate → List Qubit
  | .fixed _ targets => targets
  | .rotation _ _ targets => targets
  | .cx _ target => [target]
  | .cp _ _ target => [target]
  | .swap a b => [a, b]
  | .measure targets => targets
  | .custom _ qubits _ => qubits

/-- Every qubit that a gate names, the control first. -/
def qubits (g : Gate) : List Qubit := g.control?.toList ++ g.targets

@[simp] theorem qubits_fixed (kind : FixedKind) (targets : List Qubit) :
    (Gate.fixed kind targets).qubits = targets := rfl
@[simp] theorem qubits_rotation (axis : Axis) (angle : Angle) (targets : List Qubit) :
    (Gate.rotation axis angle targets).qubits = targets := rfl
@[simp] theorem qubits_cx (control target : Qubit) :
    (Gate.cx control target).qubits = [control, target] := rfl
@[simp] theorem qubits_cp (theta : Binary64) (control target : Qubit) :
    (Gate.cp theta control target).qubits = [control, target] := rfl
@[simp] theorem qubits_swap (a b : Qubit) : (Gate.swap a b).qubits = [a, b] := rfl
@[simp] theorem qubits_measure (targets : List Qubit) : (Gate.measure targets).qubits = targets := rfl
@[simp] theorem qubits_custom (name : String) (qubits : List Qubit) (params : List Binary64) :
    (Gate.custom name qubits params).qubits = qubits := rfl

/-- The angle that a gate acts with, in radians. -/
def radians? : Gate → Option Binary64
  | .rotation _ angle _ => some angle.value
  | .cp theta _ _ => some theta
  | _ => none

/-- Whether a gate acts on each of its targets alone. -/
def isBroadcast : Gate → Bool
  | .fixed _ _ | .rotation _ _ _ | .measure _ => true
  | _ => false

/-- Whether a gate is a measurement. -/
def isMeasure : Gate → Bool
  | .measure _ => true
  | _ => false

/-- The name of a gate that has a kind is the name of that kind. -/
theorem name_of_kind? {g : Gate} {kind : GateKind} (h : g.kind? = some kind) :
    g.name = kind.name := by
  cases g <;> simp_all [kind?, name]

end Gate

end QCircuit
