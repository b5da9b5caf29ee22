import QCircuit.Gate.Record

/-!
# Circuits

A circuit is a list of gates in execution order on a register of qubits, with the name of what made it
and free descriptive metadata. Here are the counts of it that do not look at the order of the gates:
how often each name occurs, and which qubits are named at all.
-/

set_option autoImplicit false

namespace QCircuit

/-- A circuit. -/
structure Circuit where
  algorithm : String
  /-- The number of qubits, and of classical bits. -/
  width : Nat
  /-- The gates in execution order. -/
  gates : List Gate
  metadata : Json.Members

/-- Counts under names, in ascending order of the names. -/
abbrev Tally : Type := List (String × Nat)

/-- One more under a name. -/
def Tally.add (name : String) : Tally → Tally
  | [] => [(name, 1)]
  | (other, count) :: rest =>
      if name = other then (other, count + 1) :: rest
      else if name < other then (name, 1) :: (other, count) :: rest
      else (other, count) :: Tally.add name rest

/-- A qubit put in its place in an ascending list, unless it is there already. -/
def insertAscending (q : Qubit) : List Qubit → List Qubit
  | [] => [q]
  | p :: rest =>
      if q < p then q :: p :: rest
      else if q = p then p :: rest
      else p :: insertAscending q rest

namespace Circuit

/-- The number of gates. -/
def size (c : Circuit) : Nat := c.gates.length

/-- How often each gate name occurs. -/
def countOps (c : Circuit) : Tally := c.gates.foldl (fun tally g => tally.add g.name) []

/-- The qubits that some gate names, each once and in ascending order. -/
def qubitsUsed (c : Circuit) : List Qubit := (c.gates.flatMap Gate.qubits).foldr insertAscending []

/-- The JSON object of a circuit. -/
def toJson (c : Circuit) : Json String :=
  .obj [("algorithm", .str c.algorithm), ("num_qubits", .nat c.width),
    ("gates", .arr (c.gates.map Gate.toJson)), ("metadata", .obj c.metadata)]

end Circuit

end QCircuit
