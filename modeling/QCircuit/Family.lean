import QCircuit.AsciiCase

/-!
# Circuit families

The five families of circuits that can be generated, with the names they go by and the width that each
has when nothing is said about the size of the problem.
-/

set_option autoImplicit false

namespace QCircuit

/-- A family of circuits. -/
inductive Family where
  | bell
  | grover
  | shor
  | vqe
  | qaoa
deriving DecidableEq

namespace Family

/-- Every family, in the order in which they are listed. -/
def all : List Family := [.bell, .grover, .shor, .vqe, .qaoa]

/-- The identifier of a family, in small letters. -/
def id : Family → String
  | .bell => "bell"
  | .grover => "grover"
  | .shor => "shor"
  | .vqe => "vqe"
  | .qaoa => "qaoa"

/-- The name that circuits of a family bear. -/
def title : Family → String
  | .bell => "Bell"
  | .grover => "Grover"
  | .shor => "Shor"
  | .vqe => "VQE"
  | .qaoa => "QAOA"

/-- The name of a family as a JSON value. -/
def tag : Family → String
  | .bell => "Bell"
  | .grover => "Grover"
  | .shor => "Shor"
  | .vqe => "Vqe"
  | .qaoa => "Qaoa"

/-- What circuits of a family are for. -/
def summary : Family → String
  | .bell => "Creates maximally entangled Bell state"
  | .grover => "Grover search for unsorted database"
  | .shor => "Shor period finding for factoring"
  | .vqe => "VQE for ground state energy estimation"
  | .qaoa => "QAOA for combinatorial optimization"

/-- The width for a problem of unknown size. -/
def defaultWidth : Family → Nat
  | .bell => 2
  | .grover => 8
  | .shor => 16
  | .vqe => 12
  | .qaoa => 10

/-- The family with a given identifier in letters of either case. -/
def ofId? (id : String) : Option Family := all.find? fun family => AsciiCase.same family.id id

/-- Every family is listed. -/
theorem mem_all (family : Family) : family ∈ all := by cases family <;> decide

/-- A family is found under its own identifier. -/
theorem ofId?_id (family : Family) : ofId? family.id = some family := by cases family <;> decide

end Family

end QCircuit
