import QCircuit.Json.Reader

/-!
# Records in JSON

A record of named fields is read from an object or from an array. In an object the fields go by their
keys, each at most once, and members under other keys are passed over; every key has to denote a
string. In an array the fields go by their order; missing ones at the end are absent, and there may be
no item past the last field.
-/

set_option autoImplicit false

namespace QCircuit.Json.Record

/-- The members of an object with their keys, if each key denotes a string. -/
def keyed? (members : List (Option String × Reading)) : Option (List (String × Reading)) :=
  members.mapM fun (key, value) => key.map fun key => (key, value)

/-- The value under a key that occurs at most once. -/
def field? (members : List (String × Reading)) (name : String) : Option (Option Reading) :=
  match members.filter (·.1 = name) with
  | [] => some none
  | [(_, value)] => some (some value)
  | _ => none

/-- The values of the named fields, `none` for a field that is absent. -/
def fields? (names : List String) : Reading → Option (List (Option Reading))
  | .obj members => do
      let members ← keyed? members
      names.mapM (field? members)
  | .arr items =>
      if items.length ≤ names.length then
        some (items.map some ++ List.replicate (names.length - items.length) none)
      else none
  | _ => none

/-- A whole number of 32 bits. -/
def uint32? : Reading → Option UInt32
  | .int z => if 0 ≤ z ∧ z < 2 ^ 32 then some (UInt32.ofNat z.toNat) else none
  | _ => none

/-- A signed whole number of 64 bits. -/
def int64? : Reading → Option Int64
  | .int z => if -(2 ^ 63) ≤ z ∧ z < 2 ^ 63 then some (Int64.ofInt z) else none
  | _ => none

/-- A field that may be absent or `null`. -/
def optional? {α : Type} (read : Reading → Option α) : Option Reading → Option (Option α)
  | none => some none
  | some .null => some none
  | some value => (read value).map some

/-- A field that may be absent, and then has a value of its own. -/
def default? {α : Type} (read : Reading → Option α) (absent : α) : Option Reading → Option α
  | none => some absent
  | some value => read value

end QCircuit.Json.Record
