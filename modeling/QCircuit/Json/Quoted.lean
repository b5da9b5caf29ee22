/-!
# String literals

The characters between the quotes of a JSON string literal. Writing escapes the quote, the backslash
and the control characters below the blank, and nothing else. Reading takes every escape of the
grammar; an escape of four hexadecimal digits may stand for half of a surrogate pair, and two such
halves in the right order stand for one character.

Reading has two ways to fail, and tells them apart: no such literal exists (`unescape` is `none`), or
the literal exists and denotes no string because half of a pair stands alone (`some none`).
-/

set_option autoImplicit false

namespace QCircuit.Json.Quoted

/-- The character with an escape of its own, and the letter of the escape. -/
def shortEscapes : List (Char × Char) :=
  [('"', '"'), ('\\', '\\'), ('\x08', 'b'), ('\t', 't'), ('\n', 'n'), ('\x0c', 'f'), ('\r', 'r')]

/-- A control character without an escape of its own. -/
def hexEscape (c : Char) : List Char :=
  ['\\', 'u', '0', '0', Nat.digitChar (c.toNat / 16), Nat.digitChar (c.toNat % 16)]

/-- A character as it stands in a literal. -/
def escapeChar (c : Char) : List Char :=
  match shortEscapes.lookup c with
  | some letter => ['\\', letter]
  | none => if c < ' ' then hexEscape c else [c]

/-- A text as it stands in a literal. -/
def escape (text : List Char) : List Char := text.flatMap escapeChar

/-- What one character or escape of a literal stands for: a character, or half of a surrogate pair. -/
inductive Code where
  | char (c : Char)
  | half (code : Nat)

/-- The value of a hexadecimal digit of either case. -/
def hexValue? (c : Char) : Option Nat :=
  if '0' ≤ c ∧ c ≤ '9' then some (c.toNat - '0'.toNat)
  else if 'a' ≤ c ∧ c ≤ 'f' then some (c.toNat - 'a'.toNat + 10)
  else if 'A' ≤ c ∧ c ≤ 'F' then some (c.toNat - 'A'.toNat + 10)
  else none

/-- What an escape of four hexadecimal digits stands for. -/
def hexCode? (a b c d : Char) : Option Code := do
  let a ← hexValue? a
  let b ← hexValue? b
  let c ← hexValue? c
  let d ← hexValue? d
  let code := ((a * 16 + b) * 16 + c) * 16 + d
  some (if 0xD800 ≤ code ∧ code < 0xE000 then .half code else .char (Char.ofNat code))

/-- What an escape of one letter stands for. The solidus may be escaped and never has to be. -/
def letterCode? (letter : Char) : Option Code :=
  if letter = '/' then some (.char '/')
  else (shortEscapes.find? (·.2 = letter)).map fun pair => .char pair.1

/-- The codes of a literal, after those already read, which are in reverse. -/
def codes? (read : List Code) : List Char → Option (List Code)
  | [] => some read.reverse
  | '\\' :: 'u' :: a :: b :: c :: d :: rest => do
      let code ← hexCode? a b c d
      codes? (code :: read) rest
  | '\\' :: letter :: rest => do
      let code ← letterCode? letter
      codes? (code :: read) rest
  | '\\' :: [] => none
  | c :: rest => codes? (.char c :: read) rest

/-- The character that a leading and a trailing half stand for. -/
def joinHalves? (leading trailing : Nat) : Option Char :=
  if leading < 0xDC00 ∧ 0xDC00 ≤ trailing then
    some (Char.ofNat (0x10000 + (leading - 0xD800) * 0x400 + (trailing - 0xDC00)))
  else none

/-- The characters of a row of codes, after those already joined, which are in reverse. -/
def join? (joined : List Char) : List Code → Option (List Char)
  | [] => some joined.reverse
  | .char c :: rest => join? (c :: joined) rest
  | .half leading :: .half trailing :: rest => do
      let c ← joinHalves? leading trailing
      join? (c :: joined) rest
  | .half _ :: _ => none

/-- What a literal denotes: `none` if it is not one, `some none` if half of a surrogate pair stands
alone in it. -/
def unescape (literal : List Char) : Option (Option String) :=
  (codes? [] literal).map fun codes => (join? [] codes).map String.ofList

end QCircuit.Json.Quoted
