import QCircuit.Json.Number
import QCircuit.Json.Quoted
import QCircuit.Proofs.Decimal.Numeral

/-!
# The grammar of JSON texts

What is written down for a value, blanks aside, is a tree: its number literals with their parts, its
string literals piece by piece, its items and its members in their order (`Json.Tree`). The texts of a
tree differ in the blanks between their tokens only (`Json.ElementText`).

A string literal denotes a row of characters unless half of a surrogate pair stands alone in it
(`Json.Denotes`), and a number literal is a whole number if it has neither fraction nor exponent and is
not `-0` (`Json.Tree.IsWhole`).

Nothing here refers to how a text is read.
-/

set_option autoImplicit false

namespace QCircuit.Json

/-! ## String literals -/

/-- What one character of a string is written as: itself, or a letter or four hexadecimal digits behind
a backslash. -/
inductive Piece where
  | plain (c : Char)
  | letter (c : Char)
  | hex (a b c d : Char)

/-- A hexadecimal digit, its letter in either case, and the number that it stands for. -/
def HexDigit (c : Char) (value : Nat) : Prop :=
  value < 16 ∧ (c = Nat.digitChar value ∨ c = (Nat.digitChar value).toUpper)

/-- Four hexadecimal digits and the number that they write. -/
def HexCode (a b c d : Char) (code : Nat) : Prop :=
  ∃ w x y z, HexDigit a w ∧ HexDigit b x ∧ HexDigit c y ∧ HexDigit d z ∧
    code = ((w * 16 + x) * 16 + y) * 16 + z

theorem hexCode_underscore : HexCode '0' '0' '5' 'f' '_'.toNat :=
  ⟨0, 0, 5, 15, ⟨by decide, .inl rfl⟩, ⟨by decide, .inl rfl⟩, ⟨by decide, .inl rfl⟩,
    ⟨by decide, .inl rfl⟩, rfl⟩

/-- The characters that a letter behind a backslash stands for, each with its letter. -/
def letterEscapes : List (Char × Char) :=
  [('"', '"'), ('\\', '\\'), ('/', '/'), ('\x08', 'b'), ('\x0c', 'f'), ('\n', 'n'), ('\r', 'r'),
    ('\t', 't')]

namespace Piece

/-- The piece may stand in a string literal. -/
inductive Sound : Piece → Prop
  | plain {c : Char} : ' ' ≤ c → c ≠ '"' → c ≠ '\\' → Sound (.plain c)
  | letter {c letter : Char} : (c, letter) ∈ letterEscapes → Sound (.letter letter)
  | hex {a b c d : Char} {code : Nat} : HexCode a b c d code → Sound (.hex a b c d)

/-- The characters of a piece. -/
def text : Piece → List Char
  | .plain c => [c]
  | .letter c => ['\\', c]
  | .hex a b c d => ['\\', 'u', a, b, c, d]

end Piece

/-- The characters between the quotes of a string literal. -/
def spell (pieces : List Piece) : List Char := pieces.flatMap Piece.text

/-- A string literal. -/
def quoted (pieces : List Piece) : List Char := '"' :: spell pieces ++ ['"']

/-- The pieces denote the characters. Four hexadecimal digits are the number of a character, or the
first half of a pair of surrogates, and then the second half has to follow. -/
inductive Denotes : List Piece → List Char → Prop
  | nil : Denotes [] []
  | plain {c : Char} {rest : List Piece} {text : List Char} :
      Denotes rest text → Denotes (.plain c :: rest) (c :: text)
  | letter {x letter : Char} {rest : List Piece} {text : List Char} :
      (x, letter) ∈ letterEscapes → Denotes rest text → Denotes (.letter letter :: rest) (x :: text)
  | hex {a b c d x : Char} {rest : List Piece} {text : List Char} :
      HexCode a b c d x.toNat → Denotes rest text → Denotes (.hex a b c d :: rest) (x :: text)
  | pair {a b c d a' b' c' d' x : Char} {high low : Nat} {rest : List Piece} {text : List Char} :
      HexCode a b c d high → HexCode a' b' c' d' low →
      0xD800 ≤ high → high < 0xDC00 → 0xDC00 ≤ low → low < 0xE000 →
      x.toNat = 0x10000 + (high - 0xD800) * 0x400 + (low - 0xDC00) →
      Denotes rest text → Denotes (.hex a b c d :: .hex a' b' c' d' :: rest) (x :: text)

/-- A character that may stand for itself in a string literal: no quote, backslash or control
character. -/
def Piece.isPlain (c : Char) : Bool := ' ' ≤ c && c ≠ '"' && c ≠ '\\'

theorem Piece.sound_plain {text : List Char} (h : text.all isPlain) :
    ∀ piece ∈ text.map Piece.plain, piece.Sound := by
  intro piece hpiece
  obtain ⟨c, hc, rfl⟩ := List.mem_map.mp hpiece
  have hplain := List.all_eq_true.mp h c hc
  simp only [isPlain, Bool.and_eq_true, decide_eq_true_eq] at hplain
  exact .plain hplain.1.1 hplain.1.2 hplain.2

theorem denotes_plain (text : List Char) : Denotes (text.map Piece.plain) text := by
  induction text with
  | nil => exact .nil
  | cons c rest ih => exact .plain ih

/-! ## Number literals -/

/-- The digits behind the point, and how they are written: without digits there is no point. -/
inductive FractionText : List Char → List Char → Prop
  | none : FractionText [] []
  | some {digits : List Char} : Decimal.Digits digits → FractionText digits ('.' :: digits)

/-- The exponent, and how it is written: behind a mark of either case, with a sign or without. -/
inductive ExponentText : Option Int → List Char → Prop
  | none : ExponentText none []
  | unsigned {mark : Char} {digits : List Char} : mark = 'e' ∨ mark = 'E' → Decimal.Digits digits →
      ExponentText (some (Decimal.ofNumeral digits)) (mark :: digits)
  | plus {mark : Char} {digits : List Char} : mark = 'e' ∨ mark = 'E' → Decimal.Digits digits →
      ExponentText (some (Decimal.ofNumeral digits)) (mark :: '+' :: digits)
  | minus {mark : Char} {digits : List Char} : mark = 'e' ∨ mark = 'E' → Decimal.Digits digits →
      ExponentText (some (-(Decimal.ofNumeral digits : Int))) (mark :: '-' :: digits)

/-- A number literal: a sign or none, digits of which a leading zero stands alone, and perhaps a
fraction and an exponent. -/
inductive NumberText : Literal → List Char → Prop
  | mk (negative : Bool) {whole fraction fractionText exponentText : List Char}
      {exponent : Option Int} :
      Decimal.Digits whole → (whole.head? = some '0' → whole = ['0']) →
      FractionText fraction fractionText → ExponentText exponent exponentText →
      NumberText ⟨negative, whole, fraction, exponent⟩
        ((if negative then ['-'] else []) ++ whole ++ fractionText ++ exponentText)

/-! ## Values -/

/-- A value as it is written, blanks aside. -/
inductive Tree where
  | null
  | bool (value : Bool)
  | number (literal : Literal)
  | string (pieces : List Piece)
  | array (items : List Tree)
  | object (members : List (List Piece × Tree))

/-- What holds of a tree once it holds of its items and of the values of its members holds of every
tree. -/
@[induction_eliminator]
theorem Tree.induction {motive : Tree → Prop} (null : motive .null)
    (bool : ∀ value, motive (.bool value)) (number : ∀ literal, motive (.number literal))
    (string : ∀ pieces, motive (.string pieces))
    (array : ∀ items, (∀ item ∈ items, motive item) → motive (.array items))
    (object : ∀ members, (∀ member ∈ members, motive member.2) → motive (.object members)) :
    ∀ tree, motive tree
  | .null => null
  | .bool value => bool value
  | .number literal => number literal
  | .string pieces => string pieces
  | .array items => array items fun item _ =>
      Tree.induction null bool number string array object item
  | .object members => object members fun member _ =>
      Tree.induction null bool number string array object member.2
termination_by tree => sizeOf tree
decreasing_by
  · decreasing_tactic
  · have hmember := List.sizeOf_lt_of_mem ‹member ∈ members›
    have hvalue : sizeOf member.2 < sizeOf member := by
      cases member
      simp only [Prod.mk.sizeOf_spec]
      omega
    simp only [Tree.object.sizeOf_spec]
    omega

/-- Characters that may stand between tokens. -/
def Blanks (text : List Char) : Prop := ∀ c ∈ text, c = ' ' ∨ c = '\t' ∨ c = '\n' ∨ c = '\r'

theorem blanks_nil : Blanks [] := fun _ h => (List.not_mem_nil h).elim

theorem blanks_append {text more : List Char} (h : Blanks text) (h' : Blanks more) :
    Blanks (text ++ more) := List.forall_mem_append.mpr ⟨h, h'⟩

/-- The texts of one thing or more, with commas between them. -/
inductive Separated {α : Type} (IsText : α → List Char → Prop) : List α → List Char → Prop
  | last {a : α} {text : List Char} : IsText a text → Separated IsText [a] text
  | cons {a : α} {rest : List α} {text more : List Char} : IsText a text →
      Separated IsText rest more → Separated IsText (a :: rest) (text ++ ',' :: more)

mutual

/-- The texts of a value without blanks around it. -/
inductive ValueText : Tree → List Char → Prop
  | null : ValueText .null ['n', 'u', 'l', 'l']
  | true : ValueText (.bool true) ['t', 'r', 'u', 'e']
  | false : ValueText (.bool false) ['f', 'a', 'l', 's', 'e']
  | number {literal : Literal} {text : List Char} : NumberText literal text →
      ValueText (.number literal) text
  | string {pieces : List Piece} : (∀ piece ∈ pieces, piece.Sound) →
      ValueText (.string pieces) (quoted pieces)
  | emptyArray {gap : List Char} : Blanks gap → ValueText (.array []) ('[' :: gap ++ [']'])
  | array {items : List Tree} {text : List Char} : Separated ElementText items text →
      ValueText (.array items) ('[' :: text ++ [']'])
  | emptyObject {gap : List Char} : Blanks gap →
      ValueText (.object []) ('\x7b' :: gap ++ ['\x7d'])
  | object {members : List (List Piece × Tree)} {text : List Char} :
      Separated MemberText members text → ValueText (.object members) ('\x7b' :: text ++ ['\x7d'])

/-- The texts of a value with blanks around it. -/
inductive ElementText : Tree → List Char → Prop
  | mk {tree : Tree} {before text after : List Char} : Blanks before → ValueText tree text →
      Blanks after → ElementText tree (before ++ text ++ after)

/-- The texts of a key with its value. -/
inductive MemberText : List Piece × Tree → List Char → Prop
  | mk {key : List Piece} {value : Tree} {before after text : List Char} : Blanks before →
      (∀ piece ∈ key, piece.Sound) → Blanks after → ElementText value text →
      MemberText (key, value) (before ++ quoted key ++ after ++ ':' :: text)

end

/-- There need not be blanks around a value. -/
theorem ValueText.element {tree : Tree} {text : List Char} (h : ValueText tree text) :
    ElementText tree text := by
  simpa using ElementText.mk blanks_nil h blanks_nil

/-- Digits of which a leading zero stands alone are a number without a sign. -/
theorem elementText_unsigned {digits : List Char} (h : Decimal.Digits digits)
    (hzero : digits.head? = some '0' → digits = ['0']) :
    ElementText (.number ⟨false, digits, [], none⟩) digits := by
  simpa using (ValueText.number (.mk false h hzero .none .none)).element

/-- The value is written as a whole number: with neither fraction nor exponent, and not as `-0`. -/
inductive Tree.IsWhole : Tree → Int → Prop
  | unsigned {digits : List Char} :
      IsWhole (.number ⟨false, digits, [], none⟩) (Decimal.ofNumeral digits)
  | negative {digits : List Char} : Decimal.ofNumeral digits ≠ 0 →
      IsWhole (.number ⟨true, digits, [], none⟩) (-(Decimal.ofNumeral digits : Int))

end QCircuit.Json
