import QCircuit.AsciiCase

/-!
# Gate kinds

The kinds of gates that have a meaning here, without their operands: their names, which of them take
an angle and which a control qubit.
-/

set_option autoImplicit false

namespace QCircuit

/-- A kind of gate. -/
inductive GateKind where
  | h
  | x
  | y
  | z
  | cx
  | swap
  | rx
  | ry
  | rz
  | cp
  | measure
deriving DecidableEq

namespace GateKind

/-- Every kind, in the order in which they are listed. -/
def all : List GateKind := [.h, .x, .y, .z, .cx, .swap, .rx, .ry, .rz, .cp, .measure]

/-- The name of a kind, in small letters. -/
def name : GateKind → String
  | .h => "h"
  | .x => "x"
  | .y => "y"
  | .z => "z"
  | .cx => "cx"
  | .swap => "swap"
  | .rx => "rx"
  | .ry => "ry"
  | .rz => "rz"
  | .cp => "cp"
  | .measure => "measure"

/-- Whether gates of this kind need an angle. -/
def takesAngle : GateKind → Bool
  | .rx | .ry | .rz | .cp => true
  | _ => false

/-- Whether gates of this kind need a control qubit. -/
def takesControl : GateKind → Bool
  | .cx | .cp => true
  | _ => false

/-- The kind with a given name in letters of either case. -/
def ofName? (name : String) : Option GateKind := all.find? fun kind => AsciiCase.same kind.name name

/-- What is said of a name that is no kind's. -/
def unknownMessage (name : String) : String := s!"unknown gate kind '{name}'"

/-- Every kind is listed. -/
theorem mem_all (kind : GateKind) : kind ∈ all := by cases kind <;> decide

/-- A kind is found under its own name. -/
theorem ofName?_name (kind : GateKind) : ofName? kind.name = some kind := by cases kind <;> decide

end GateKind

end QCircuit
