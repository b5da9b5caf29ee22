import QCircuit.Family

/-!
# Texts about the program

The list of families and the texts about the program itself.
-/

set_option autoImplicit false

namespace QCircuit.CommandLine.About

/-- The name of the program. -/
def program : String := "qgen"

/-- The version of the program. -/
def version : String := "0.3.0"

/-- A text made of lines, each ended by a line feed. -/
def ofLines (lines : List String) : String := String.join (lines.map fun line => line ++ "\n")

/-- The program and its version. -/
def versionLine : String := ofLines [program ++ " " ++ version]

/-- What the program is made of. -/
def versionText : String :=
  ofLines
    [program ++ " v" ++ version ++ " - quantum circuit generation and OpenQASM 2.0 emission",
      "",
      "Components:",
      "  qgen-ir    Gate and circuit intermediate representation",
      "  qgen-algo  Bell, Grover, Shor, VQE and QAOA generators",
      "  qgen-qasm  OpenQASM 2.0 emitter",
      "  qgen-cli   Command-line interface",
      "",
      "License:    Apache-2.0"]

/-- A text filled up with blanks to a width. -/
def padded (width : Nat) (text : String) : String :=
  text ++ String.ofList (List.replicate (width - text.length) ' ')

/-- The two lines of a family. -/
def familyLines (family : Family) : List String :=
  ["  ● " ++ padded 8 family.id ++ " " ++ family.summary,
    s!"    Default qubits: {family.defaultWidth}"]

/-- The list of families. -/
def families : String :=
  ofLines ([program ++ " Available algorithms:", ""] ++ Family.all.flatMap familyLines)

/-- What is said of arguments that break a rule. -/
def usage : List String :=
  ["error: the arguments make no command", "",
    "Usage: qgen [-v]... generate <ALGORITHM> [-d DATA] [-s SEED] [-f FORMAT] [-o FILE] [-c FILE]",
    "       qgen [-v]... sizing <ALGORITHM> [-d DATA]",
    "       qgen [-v]... algorithms",
    "       qgen [-v]... version"]

end QCircuit.CommandLine.About
