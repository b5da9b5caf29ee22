import QCircuit.Family
import QCircuit.Problem.Fault
import QCircuit.Problem

/-!
# Sizing

The width of a circuit for a problem: enough qubits to number the items, and at least two; without an
item count the usual width of the family. An identifier that is no family's has a width as well.
-/

set_option autoImplicit false

namespace QCircuit

namespace Sizing

/-- The least width for any item count. -/
def minQubits : Nat := 2

/-- The width for an identifier that is no family's. -/
def fallbackQubits : Nat := 4

/-- How many bits a number has. -/
def bitLength (n : Nat) : Nat := if n = 0 then 0 else n.log2 + 1

/-- The width for an item count: the bits of the greatest item number, counting from zero. -/
def forItems (numItems : Int64) : Except InputFault Nat :=
  if numItems.toInt ≤ 0 then .error (.itemsNotPositive numItems)
  else .ok (max minQubits (bitLength (numItems.toInt.toNat - 1)))

/-- The width for a problem, given the width without an item count. -/
def forProblem (usual : Nat) (p : Problem) : Except InputFault Nat :=
  match p.numItems with
  | some n => forItems n
  | none => .ok usual

/-- The width for an identifier and a problem. -/
def forId (id : String) (p : Problem) : Except InputFault Nat :=
  forProblem (match Family.ofId? id with
    | some family => family.defaultWidth
    | none => fallbackQubits) p

end Sizing

/-- The width of a family's circuit for a problem, before the family has its own say. -/
def Family.widthFor (family : Family) (p : Problem) : Except InputFault Nat :=
  Sizing.forProblem family.defaultWidth p

end QCircuit
