import QCircuit.Json.Printer
import QCircuit.Json.Record

/-!
# Problem data

What is known of the problem that a circuit is generated for: how many items it has, and the edges of
its graph. Either may be missing. An edge is a pair of vertices, or one vertex that is joined to the
next one around the register.

Problem data are read from JSON as a record; a text that is no such record is malformed, whatever is
wrong with it.
-/

set_option autoImplicit false

namespace QCircuit

/-- An edge of a problem graph. -/
inductive Edge where
  | pair (i j : UInt32)
  | vertex (v : UInt32)
deriving DecidableEq

/-- What is known of a problem. -/
structure Problem where
  numItems : Option Int64
  edges : Option (List Edge)
deriving DecidableEq

namespace Edge

/-- The two vertices of an edge on a register: those of a pair, or a vertex and the one after it,
counting around. A register without qubits counts as one qubit. -/
def endpoints (width : Nat) : Edge → Nat × Nat
  | .pair i j => (i.toNat, j.toNat)
  | .vertex v => (v.toNat, (v.toNat + 1) % max width 1)

/-- An edge as it is written: a pair as a list of two numbers, a vertex as its number. -/
def toJson : Edge → Json String
  | .pair i j => .arr [.nat i.toNat, .nat j.toNat]
  | .vertex v => .nat v.toNat

/-- The edge that a JSON value is. -/
def ofJson? : Json.Reading → Option Edge
  | .arr [i, j] => do
      let i ← Json.Record.uint32? i
      let j ← Json.Record.uint32? j
      some (.pair i j)
  | value => (Json.Record.uint32? value).map .vertex

end Edge

namespace Problem

/-- Nothing is known. -/
def unknown : Problem := ⟨none, none⟩

/-- The names of the two fields. -/
def keys : List String := ["num_items", "edges"]

/-- The edges that a JSON value lists. -/
def edges? : Json.Reading → Option (List Edge)
  | .arr items => items.mapM Edge.ofJson?
  | _ => none

/-- The problem data that a JSON value is. -/
def ofJson? (json : Json.Reading) : Option Problem := do
  match ← Json.Record.fields? keys json with
  | [numItems, edges] =>
      let numItems ← Json.Record.optional? Json.Record.int64? numItems
      let edges ← Json.Record.optional? edges? edges
      some ⟨numItems, edges⟩
  | _ => none

/-- The problem data that a text is. -/
def read? (text : String) : Option Problem := (Json.read? text).bind ofJson?

/-- Problem data as they are written, without what is missing. -/
def toJson (p : Problem) : Json String :=
  .obj (
    (match p.numItems with
      | some n => [("num_items", .int n.toInt)]
      | none => []) ++
    (match p.edges with
      | some edges => [("edges", .arr (edges.map Edge.toJson))]
      | none => []))

end Problem

end QCircuit
