import QCircuit.Gate

/-!
# OpenQASM statements

A statement is one line of a program's body. A broadcast gate is written as one statement for each of
its targets, in order; any other gate of a known kind is one statement. The name of an angle has no
place in a statement. A custom gate has no statement, as OpenQASM knows nothing of it.
-/

set_option autoImplicit false

namespace QCircuit.Qasm

/-- One line of a program's body. -/
inductive Statement where
  | fixed (kind : FixedKind) (target : Qubit)
  | rotation (axis : Axis) (radians : Binary64) (target : Qubit)
  | cx (control target : Qubit)
  | cp (radians : Binary64) (control target : Qubit)
  | swap (a b : Qubit)
  | measure (qubit : Qubit)
deriving DecidableEq

/-- The text of a statement. -/
def Statement.text : Statement → String
  | .fixed kind q => kind.kind.name ++ s!" q[{q}];"
  | .rotation axis radians q =>
      axis.kind.name ++ "(" ++ Angle.radiansText radians ++ s!") q[{q}];"
  | .cx control target => s!"cx q[{control}],q[{target}];"
  | .cp radians control target =>
      "cp(" ++ Angle.radiansText radians ++ s!") q[{control}],q[{target}];"
  | .swap a b => s!"swap q[{a}],q[{b}];"
  | .measure q => s!"measure q[{q}] -> c[{q}];"

/-- The statements of a gate. -/
def statements : Gate → List Statement
  | .fixed kind targets => targets.map (.fixed kind)
  | .rotation axis angle targets => targets.map (.rotation axis angle.value)
  | .cx control target => [.cx control target]
  | .cp theta control target => [.cp theta control target]
  | .swap a b => [.swap a b]
  | .measure targets => targets.map .measure
  | .custom _ _ _ => []

end QCircuit.Qasm
