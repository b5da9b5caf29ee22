import QCircuit.Circuit.Depth
import QCircuit.CommandLine.Command
import QCircuit.Qasm

/-!
# Documents

The document of a circuit in each format. The report holds the program and the counts of the circuit;
it needs a program, as the plain program does, while the circuit itself can always be written.
-/

set_option autoImplicit false

namespace QCircuit.CommandLine

/-- The report of a circuit with a given program. -/
def report (c : Circuit) (program : String) : Json String :=
  .obj [("algorithm", .str c.algorithm), ("num_qubits", .nat c.width), ("num_gates", .nat c.size),
    ("depth", .nat c.depth), ("qasm", .str program), ("metadata", .obj c.metadata)]

/-- The document of a circuit. -/
def document (format : Format) (c : Circuit) : Except Qasm.Unsupported String :=
  match format with
  | .qasm => Qasm.program c
  | .json => (Qasm.program c).map fun program => (report c program).indented
  | .ir => .ok c.toJson.indented

end QCircuit.CommandLine
