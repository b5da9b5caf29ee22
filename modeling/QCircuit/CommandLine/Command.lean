/-!
# Commands

What a command line asks for: one of four commands with its operands, and how much is to be said of the
work on the way.
-/

set_option autoImplicit false

namespace QCircuit.CommandLine

/-- The written form of a circuit. -/
inductive Format where
  /-- The OpenQASM program. -/
  | qasm
  /-- A report as JSON, with the program in it. -/
  | json
  /-- The circuit itself as JSON. -/
  | ir
deriving DecidableEq

namespace Format

/-- Every format. -/
def all : List Format := [.qasm, .json, .ir]

/-- The name of a format. -/
def name : Format → String
  | .qasm => "qasm"
  | .json => "json"
  | .ir => "ir"

/-- The format with a given name, letter by letter. -/
def ofName? (name : String) : Option Format := all.find? fun format => format.name = name

/-- A format is found under its own name. -/
theorem ofName?_name (format : Format) : ofName? format.name = some format := by
  cases format <;> decide

end Format

/-- What is to be generated, from what, and where it goes. -/
structure Generation where
  /-- The identifier of a family. -/
  id : String
  /-- Problem data, or the file that holds them. -/
  data : Option String
  seed : Option UInt64
  format : Format
  /-- The file to write; without it the document is printed. -/
  output : Option String
  /-- The file that holds the settings. -/
  config : Option String
deriving DecidableEq

/-- A command with its operands. -/
inductive Command where
  | generate (generation : Generation)
  | sizing (id : String) (data : Option String)
  | algorithms
  | version
deriving DecidableEq

/-- A command and how much is to be said on the way. -/
structure Invocation where
  verbosity : Nat
  command : Command
deriving DecidableEq

end QCircuit.CommandLine
