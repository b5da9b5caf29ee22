import QCircuit.Circuit
import QCircuit.Qasm.Statement

/-!
# OpenQASM 2.0 programs

The program of a circuit declares one quantum and one classical register of the circuit's width and
then has one line for each statement. A circuit with a custom gate has no program, and the refusal
names the first such gate and its place; it comes before any text is made.
-/

set_option autoImplicit false

namespace QCircuit.Qasm

/-- A gate that OpenQASM has no statement for, and its index in the circuit. -/
structure Unsupported where
  gate : String
  position : Nat
deriving DecidableEq

/-- What is said of such a gate. -/
def Unsupported.message (u : Unsupported) : String :=
  "Unsupported gate '" ++ u.gate ++ s!"' at position {u.position}: no OpenQASM 2.0 emission rule"

/-- The first custom gate, counting positions from the given one. -/
def firstUnsupported? (position : Nat) : List Gate → Option Unsupported
  | [] => none
  | .custom name _ _ :: _ => some ⟨name, position⟩
  | _ :: rest => firstUnsupported? (position + 1) rest

/-- The lines before the body, for a register of the given width. -/
def header (width : Nat) : List String :=
  ["OPENQASM 2.0;", "include \"qelib1.inc\";", "", s!"qreg q[{width}];", s!"creg c[{width}];", ""]

/-- The statements of a row of gates. -/
def body (gates : List Gate) : List Statement := gates.flatMap statements

/-- The lines of a program. -/
def lines (c : Circuit) : List String := header c.width ++ (body c.gates).map Statement.text

/-- The program of a circuit, every line ended by a line feed. -/
def program (c : Circuit) : Except Unsupported String :=
  match firstUnsupported? 0 c.gates with
  | some unsupported => .error unsupported
  | none => .ok (String.join ((lines c).map fun line => line ++ "\n"))

end QCircuit.Qasm
