import QCircuit.Json.Number
import QCircuit.Json.Quoted

/-!
# Written JSON

One printer writes a value with any spacing between its tokens. Two spacings are in use: `compact` has
none, `indented` starts every item and member on a line of its own, two blanks deeper than the line of
the bracket, and puts a blank after the colon. An empty array or object is its two brackets in both.
-/

set_option autoImplicit false

namespace QCircuit.Json

/-- The blanks between the tokens of a written value. -/
structure Spacing where
  /-- The blanks before an item, a member or a closing bracket at a depth of nesting. -/
  lineBreak : Nat → List Char
  /-- The blanks between the colon and the value of a member. -/
  afterColon : List Char

/-- No blanks at all. -/
def Spacing.compact : Spacing := ⟨fun _ => [], []⟩

/-- A line for each item, indented by two blanks for each level. -/
def Spacing.indented : Spacing := ⟨fun depth => '\n' :: List.replicate (2 * depth) ' ', [' ']⟩

/-- A string literal. -/
def quote (text : String) : List Char := '"' :: Quoted.escape text.toList ++ ['"']

mutual

/-- The text of a value at a depth of nesting. -/
def write (spacing : Spacing) (depth : Nat) : Json String → List Char
  | .null => ['n', 'u', 'l', 'l']
  | .bool true => ['t', 'r', 'u', 'e']
  | .bool false => ['f', 'a', 'l', 's', 'e']
  | .int z => intText z
  | .real x => realText x
  | .str s => quote s
  | .arr items => '[' :: writeItems spacing depth false items
  | .obj members => '\x7b' :: writeMembers spacing depth false members

/-- The items still to come of an array at a depth, and its closing bracket; `started` says whether an
item came before. -/
def writeItems (spacing : Spacing) (depth : Nat) (started : Bool) : List (Json String) → List Char
  | [] => if started then spacing.lineBreak depth ++ [']'] else [']']
  | item :: rest =>
      (if started then [','] else []) ++ spacing.lineBreak (depth + 1) ++
        write spacing (depth + 1) item ++ writeItems spacing depth true rest

/-- The members still to come of an object at a depth, and its closing bracket; `started` says whether
a member came before. -/
def writeMembers (spacing : Spacing) (depth : Nat) (started : Bool) :
    List (String × Json String) → List Char
  | [] => if started then spacing.lineBreak depth ++ ['\x7d'] else ['\x7d']
  | (key, value) :: rest =>
      (if started then [','] else []) ++ spacing.lineBreak (depth + 1) ++ quote key ++
        ':' :: spacing.afterColon ++ write spacing (depth + 1) value ++
          writeMembers spacing depth true rest

end

/-- The text of a value without blanks. -/
def compact (value : Json String) : String := String.ofList (write .compact 0 value)

/-- The text of a value over several lines. -/
def indented (value : Json String) : String := String.ofList (write .indented 0 value)

end QCircuit.Json
