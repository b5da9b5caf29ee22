import QCircuit.Gate
import QCircuit.Json.Printer

/-!
# Gates as JSON records

The flat record of a gate: its name, its targets, the control if it has one, and its parameters. An
angle of a known kind stands under its name; the parameters of a custom gate are a plain list, left out
when it is empty.
-/

set_option autoImplicit false

namespace QCircuit

namespace Gate

/-- The parameters of a record. -/
inductive Params where
  | absent
  | named (angle : Angle)
  | positional (values : List Binary64)
deriving DecidableEq

/-- The parts of a gate as they are written. -/
structure Record where
  name : String
  targets : List Qubit
  control : Option Qubit
  params : Params
deriving DecidableEq

/-- The parameters of a gate. -/
def params : Gate → Params
  | .rotation _ angle _ => .named angle
  | .cp theta _ _ => .named ⟨.theta, theta⟩
  | .custom _ _ [] => .absent
  | .custom _ _ values => .positional values
  | _ => .absent

/-- The record of a gate. -/
def record (g : Gate) : Record := ⟨g.name, g.targets, g.control?, g.params⟩

/-- The member for the parameters, if there are any. -/
def Params.members : Params → Json.Members
  | .absent => []
  | .named angle => [("params", .obj [(angle.name.text, .real angle.value)])]
  | .positional values => [("params", .arr (values.map .real))]

/-- The JSON object of a record. -/
def Record.toJson (r : Record) : Json String :=
  .obj ([("gate", .str r.name), ("targets", .arr (r.targets.map .nat))] ++
    (match r.control with
      | some control => [("control", .nat control)]
      | none => []) ++
    r.params.members)

/-- The JSON object of a gate. -/
def toJson (g : Gate) : Json String := g.record.toJson

end Gate

end QCircuit
