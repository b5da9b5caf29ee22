import QCircuit.Json.Number
import QCircuit.Json.Quoted

/-!
# Tokens of JSON text

A text is cut into tokens by a machine that takes one character at a time. Between tokens it skips the
four blanks; a bare run of letters, digits, signs and points is one token, a word or a number literal;
a quote opens a string literal that lasts to the next quote without a backslash before it.

No two bare tokens may stand side by side in JSON, so the longest run is the right one.
-/

set_option autoImplicit false

namespace QCircuit.Json

/-- The tokens of a JSON text, each with what it denotes. -/
inductive Token where
  | openArray
  | closeArray
  | openObject
  | closeObject
  | colon
  | comma
  | scalar (value : Json (Option String))
  | string (text : Option String)

namespace Token

/-- The blanks between tokens. -/
def isBlank (c : Char) : Bool := c = ' ' || c = '\t' || c = '\n' || c = '\r'

/-- The characters of words and number literals. -/
def isBare (c : Char) : Bool := c.isAlphanum || c = '-' || c = '+' || c = '.'

/-- The token of one character that is a token by itself. -/
def punctuation? : Char → Option Token
  | '[' => some .openArray
  | ']' => some .closeArray
  | '\x7b' => some .openObject
  | '\x7d' => some .closeObject
  | ':' => some .colon
  | ',' => some .comma
  | _ => none

/-- The token of a bare run. -/
def ofBare? (run : List Char) : Option Token :=
  if run = ['n', 'u', 'l', 'l'] then some (.scalar .null)
  else if run = ['t', 'r', 'u', 'e'] then some (.scalar (.bool true))
  else if run = ['f', 'a', 'l', 's', 'e'] then some (.scalar (.bool false))
  else (Literal.read? run).map fun literal => .scalar literal.value

/-- Where the machine stands: between tokens, in a bare run, in a string literal, or in one directly
after a backslash. What it has read of the token is in reverse. -/
inductive Mode where
  | between
  | bare (run : List Char)
  | quoted (literal : List Char)
  | escaped (literal : List Char)

/-- The tokens finished by a character between tokens, and where the machine stands after it. -/
def startAt? (c : Char) : Option (List Token × Mode) :=
  if isBlank c then some ([], .between)
  else if c = '"' then some ([], .quoted [])
  else if isBare c then some ([], .bare [c])
  else (punctuation? c).map fun token => ([token], .between)

/-- The tokens finished by a character, and where the machine stands after it. -/
def step? : Mode → Char → Option (List Token × Mode)
  | .between, c => startAt? c
  | .bare run, c =>
      if isBare c then some ([], .bare (c :: run))
      else do
        let token ← ofBare? run.reverse
        let (tokens, mode) ← startAt? c
        some (token :: tokens, mode)
  | .quoted literal, c =>
      if c = '"' then (Quoted.unescape literal.reverse).map fun text => ([.string text], .between)
      else if c = '\\' then some ([], .escaped (c :: literal))
      else if c < ' ' then none
      else some ([], .quoted (c :: literal))
  | .escaped literal, c => if c < ' ' then none else some ([], .quoted (c :: literal))

/-- The tokens finished by the end of the text. -/
def finish? : Mode → Option (List Token)
  | .between => some []
  | .bare run => (ofBare? run.reverse).map fun token => [token]
  | .quoted _ => none
  | .escaped _ => none

/-- The tokens of a text from a mode on, after those already found, which are in reverse. -/
def scanFrom? (found : List Token) (mode : Mode) : List Char → Option (List Token)
  | [] => (finish? mode).map fun tokens => found.reverse ++ tokens
  | c :: rest => do
      let (tokens, mode) ← step? mode c
      scanFrom? (tokens.reverse ++ found) mode rest

/-- The tokens of a text. -/
def scan? (text : List Char) : Option (List Token) := scanFrom? [] .between text

end Token

end QCircuit.Json
