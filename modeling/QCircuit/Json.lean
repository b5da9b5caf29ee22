import QCircuit.Binary64

/-!
# JSON values

A JSON value with its numbers kept in two classes, whole numbers and double-precision words, and the
members of an object in their written order.

The type `τ` is what a string is. Values that are written hold `String`s. What a text denotes holds
`Option String`s: a string literal may escape half of a surrogate pair, and then denotes no string.
-/

set_option autoImplicit false

namespace QCircuit

/-- A JSON value whose strings and keys are of type `τ`. -/
inductive Json (τ : Type) where
  | null
  | bool (value : Bool)
  | int (value : Int)
  | real (value : Binary64)
  | str (text : τ)
  | arr (items : List (Json τ))
  | obj (members : List (τ × Json τ))

namespace Json

/-- A natural number as a JSON number. -/
def nat {τ : Type} (n : Nat) : Json τ := .int n

mutual

/-- The value with every string in its place, if each literal denotes one. -/
def texts? : Json (Option String) → Option (Json String)
  | .null => some .null
  | .bool b => some (.bool b)
  | .int z => some (.int z)
  | .real x => some (.real x)
  | .str s => s.map .str
  | .arr items => (itemTexts? items).map .arr
  | .obj members => (memberTexts? members).map .obj

/-- `texts?` of every item. -/
def itemTexts? : List (Json (Option String)) → Option (List (Json String))
  | [] => some []
  | item :: rest => do
      let item ← texts? item
      let rest ← itemTexts? rest
      some (item :: rest)

/-- `texts?` of every member, its key included. -/
def memberTexts? : List (Option String × Json (Option String)) → Option (List (String × Json String))
  | [] => some []
  | (key, value) :: rest => do
      let key ← key
      let value ← texts? value
      let rest ← memberTexts? rest
      some ((key, value) :: rest)

end

/-- The members of an object that is written: keys with their values, in order. -/
abbrev Members : Type := List (String × Json String)

/-- Sets a key. A key that is present keeps its place, a new one comes last. -/
def Members.put (key : String) (value : Json String) : Members → Members
  | [] => [(key, value)]
  | (k, v) :: rest => if k = key then (key, value) :: rest else (k, v) :: Members.put key value rest

end Json

end QCircuit
