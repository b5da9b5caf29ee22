import QCircuit.Gate

/-!
# Faults of gates

The rules that the operands of a gate have to keep, one fault for each way to break them. A gate is
checked by itself (`Gate.fault?`) and then against the width of a register (`Gate.faultIn?`); of several
faults the first in that order is reported.
-/

set_option autoImplicit false

namespace QCircuit

/-- A rule that a gate breaks. -/
inductive Fault where
  | emptyTargets
  | targetCount (expected got : Nat)
  | missingParams
  | unexpectedParams
  | unknownParam (name : String)
  | missingControl
  | unexpectedControl
  | controlIsTarget (qubit : Qubit)
  | nonFiniteAngle (value : Binary64)
  | duplicateTarget (qubit : Qubit)
  | outOfRange (qubit : Qubit) (width : Nat)
deriving DecidableEq

/-- What is said of a fault. -/
def Fault.message : Fault → String
  | .emptyTargets => "targets must be non-empty"
  | .targetCount expected got => s!"expected {expected} target(s), got {got}"
  | .missingParams => "an angle parameter is required"
  | .unexpectedParams => "gate takes no parameters"
  | .unknownParam name => s!"unknown parameter '{name}' (expected 'theta' or 'phi')"
  | .missingControl => "a control qubit is required"
  | .unexpectedControl => "gate takes no control qubit"
  | .controlIsTarget q => s!"control q{q} is also a target"
  | .nonFiniteAngle value => "angle " ++ Angle.radiansText value ++ " is not finite"
  | .duplicateTarget q => s!"target q{q} appears more than once"
  | .outOfRange q width => s!"q{q} is outside the register [0, {width})"

/-- Why a circuit, or a gate of one, is refused. -/
inductive CircuitError where
  | zeroQubits (circuit : String)
  | invalidGate (gate : String) (fault : Fault)
deriving DecidableEq

/-- What is said of a refusal. -/
def CircuitError.message : CircuitError → String
  | .zeroQubits circuit => s!"Circuit '{circuit}' must have at least one qubit"
  | .invalidGate gate fault => "Invalid gate '" ++ gate ++ "': " ++ fault.message

namespace Gate

/-- The fault of an angle that is infinite or NaN. -/
def angleFault? (g : Gate) : Option Fault :=
  match g.radians? with
  | some value => if value.isFinite then none else some (.nonFiniteAngle value)
  | none => none

/-- The fault of operands that are missing or named twice where they may not be. -/
def operandFault? : Gate → Option Fault
  | .fixed _ targets => if targets = [] then some .emptyTargets else none
  | .rotation _ _ targets => if targets = [] then some .emptyTargets else none
  | .cx control target => if control = target then some (.controlIsTarget control) else none
  | .cp _ control target => if control = target then some (.controlIsTarget control) else none
  | .swap a b => if a = b then some (.duplicateTarget a) else none
  | .measure targets => if targets = [] then some .emptyTargets else none
  | .custom _ qubits _ => if qubits = [] then some .emptyTargets else none

/-- The first fault of a gate by itself, the angle before the operands. -/
def fault? (g : Gate) : Option Fault := g.angleFault?.or g.operandFault?

/-- The fault of the first qubit outside a register. -/
def rangeFault? (width : Nat) (g : Gate) : Option Fault :=
  (g.qubits.find? fun q => width ≤ q).map fun q => .outOfRange q width

/-- The first fault of a gate on a register. -/
def faultIn? (width : Nat) (g : Gate) : Option Fault := g.fault?.or (g.rangeFault? width)

/-- A gate without a fault of its own, or the refusal of it. -/
def validate (g : Gate) : Except CircuitError Gate :=
  match g.fault? with
  | some fault => .error (.invalidGate g.name fault)
  | none => .ok g

end Gate

end QCircuit
