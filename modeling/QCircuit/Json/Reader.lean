import QCircuit.Json.Token

/-!
# Reading JSON

A row of tokens is read by a machine with a stack of the arrays and objects that are still open. It
takes one token at a time, so it needs no bound on the depth of nesting. A text is read when all of it
is one value with blanks around it.
-/

set_option autoImplicit false

namespace QCircuit.Json

/-- What a JSON text denotes: a value whose strings may be missing. -/
abbrev Reading : Type := Json (Option String)

/-- An array or object that is still open: what it holds so far, in reverse, and for an object the key
whose value is being read. -/
inductive Frame where
  | array (items : List Reading)
  | object (members : List (Option String × Reading)) (key : Option String)

/-- Where the machine stands: before a value; after an opening bracket, before an item or the closing
bracket; after an opening brace, before a key or the closing brace; before a key; before the colon
after a key; or after a value, before whatever the innermost open frame goes on with. -/
inductive State where
  | beforeValue (stack : List Frame)
  | beforeFirstItem (stack : List Frame)
  | beforeFirstKey (stack : List Frame)
  | beforeKey (members : List (Option String × Reading)) (stack : List Frame)
  | beforeColon (members : List (Option String × Reading)) (key : Option String)
      (stack : List Frame)
  | afterValue (value : Reading) (stack : List Frame)

namespace State

/-- The state after the first token of a value. -/
def begin? (stack : List Frame) : Token → Option State
  | .scalar value => some (.afterValue value stack)
  | .string text => some (.afterValue (.str text) stack)
  | .openArray => some (.beforeFirstItem stack)
  | .openObject => some (.beforeFirstKey stack)
  | _ => none

/-- The state after one more token. -/
def step? : State → Token → Option State
  | .beforeValue stack, token => begin? stack token
  | .beforeFirstItem stack, .closeArray => some (.afterValue (.arr []) stack)
  | .beforeFirstItem stack, token => begin? (.array [] :: stack) token
  | .beforeFirstKey stack, .closeObject => some (.afterValue (.obj []) stack)
  | .beforeFirstKey stack, .string key => some (.beforeColon [] key stack)
  | .beforeKey members stack, .string key => some (.beforeColon members key stack)
  | .beforeColon members key stack, .colon =>
      some (.beforeValue (.object members key :: stack))
  | .afterValue value (.array items :: stack), .comma =>
      some (.beforeValue (.array (value :: items) :: stack))
  | .afterValue value (.array items :: stack), .closeArray =>
      some (.afterValue (.arr (value :: items).reverse) stack)
  | .afterValue value (.object members key :: stack), .comma =>
      some (.beforeKey ((key, value) :: members) stack)
  | .afterValue value (.object members key :: stack), .closeObject =>
      some (.afterValue (.obj ((key, value) :: members).reverse) stack)
  | _, _ => none

/-- The state after a row of tokens. -/
def run? (state : State) : List Token → Option State
  | [] => some state
  | token :: rest => do
      let state ← state.step? token
      state.run? rest

/-- The value of a state in which nothing is open. -/
def result? : State → Option Reading
  | .afterValue value [] => some value
  | _ => none

end State

/-- What a text denotes, if it is JSON. -/
def readChars? (text : List Char) : Option Reading := do
  let tokens ← Token.scan? text
  let state ← State.run? (.beforeValue []) tokens
  state.result?

/-- What a text denotes, if it is JSON. -/
def read? (text : String) : Option Reading := readChars? text.toList

end QCircuit.Json
