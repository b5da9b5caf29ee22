import QCircuit.Proofs.Json.Printer

/-!
# Written values are a prefix code

The text of a value whose words are finite tells the value, and where it ends: two such texts in front of
other texts are texts of one value, if what stands behind them does not go on with a bare run
(`tells_write`). So values with one written form are one value (`compact_inj`, `indented_inj`), whatever
the size of their whole numbers.

A bare run is cut off where the next character is not bare, and then read as the scalar that it was
written for (`scalar?_write`). A string literal ends at the first quote that is no part of an escape, and
its pieces are found one after another (`spell_append_inj`). Arrays and objects end at their own bracket.
-/

set_option autoImplicit false

namespace QCircuit.Json

/-! ## Scalars -/

/-- The number that a literal is written for. Unlike its value, a whole number may be of any size. -/
def writtenNumber (literal : Literal) : Json String :=
  if literal.fraction = [] ∧ literal.exponent = none then
    .int (if literal.negative then -(Decimal.ofNumeral literal.whole : Int)
      else Decimal.ofNumeral literal.whole)
  else literal.value

/-- The scalar that a bare run is written for. -/
def scalar? (run : List Char) : Option (Json String) :=
  if run = ['n', 'u', 'l', 'l'] then some .null
  else if run = ['t', 'r', 'u', 'e'] then some (.bool true)
  else if run = ['f', 'a', 'l', 's', 'e'] then some (.bool false)
  else (Literal.read? run).map writtenNumber

/-- The character that a value starts with, if it is not written as a bare run. -/
def opening? : Json String → Option Char
  | .str _ => some '"'
  | .arr _ => some '['
  | .obj _ => some '\x7b'
  | _ => none

theorem scalar?_of_numberText {literal : Literal} {text : List Char} (h : NumberText literal text) :
    scalar? text = some (writtenNumber literal) := by
  obtain ⟨hnull, htrue, hfalse⟩ := Token.not_word_of_numberText h
  rw [scalar?, if_neg hnull, if_neg htrue, if_neg hfalse, Literal.read?_of_numberText h]
  rfl

variable (spacing : Spacing) (depth : Nat)

/-- A scalar is read from its bare run. -/
theorem scalar?_write {value : Json String} (h : FiniteReals value) (hopening : value.opening? = none) :
    scalar? (write spacing depth value) = some value := by
  cases h with
  | null => rfl
  | bool value => cases value <;> rfl
  | @int z _ =>
      obtain ⟨literal, htext, hwhole⟩ := numberText_intText z
      rw [write, scalar?_of_numberText htext]
      cases hwhole <;> simp [writtenNumber]
  | @real x hx =>
      obtain ⟨literal, htext, hform, hvalue⟩ := exists_literal_realText hx
      -- a real number shows its point or its exponent, so it is not read as a whole one
      have hnot : ¬ (literal.fraction = [] ∧ literal.exponent = none) := by
        rw [not_and_or]
        exact hform
      rw [write, scalar?_of_numberText htext, writtenNumber, if_neg hnot, hvalue]
  | str text => cases hopening
  | arr _ => cases hopening
  | obj _ => cases hopening

theorem bare_write {value : Json String} (h : FiniteReals value) (hopening : value.opening? = none) :
    (∀ c ∈ write spacing depth value, Token.isBare c) ∧ write spacing depth value ≠ [] := by
  -- both kinds of numbers are written as literals
  have hnumber : ∀ {literal : Literal} {text : List Char}, NumberText literal text →
      (∀ c ∈ text, Token.isBare c) ∧ text ≠ [] :=
    fun htext => ⟨Token.isBare_of_numberText htext, Token.ne_nil_of_numberText htext⟩
  cases h with
  | null => exact ⟨List.all_eq_true.mp rfl, List.cons_ne_nil _ _⟩
  | bool value =>
      cases value with
      | true => exact ⟨List.all_eq_true.mp rfl, List.cons_ne_nil _ _⟩
      | false => exact ⟨List.all_eq_true.mp rfl, List.cons_ne_nil _ _⟩
  | @int z _ =>
      obtain ⟨literal, htext, -⟩ := numberText_intText z
      exact hnumber htext
  | real hx =>
      obtain ⟨literal, htext, -⟩ := exists_literal_realText hx
      exact hnumber htext
  | str text => cases hopening
  | arr _ => cases hopening
  | obj _ => cases hopening

/-- What a value starts with is bare, or tells its form. -/
theorem exists_write_eq_cons {value : Json String} (h : FiniteReals value) :
    ∃ c rest, write spacing depth value = c :: rest ∧
      value.opening? = if Token.isBare c then none else some c := by
  cases hopening : value.opening? with
  | none =>
      obtain ⟨hbare, hne⟩ := bare_write spacing depth h hopening
      obtain ⟨c, rest, hcons⟩ := List.exists_cons_of_ne_nil hne
      refine ⟨c, rest, hcons, ?_⟩
      rw [hcons] at hbare
      rw [if_pos (hbare c List.mem_cons_self)]
  | some c =>
      cases value with
      | str text =>
          cases hopening
          exact ⟨_, _, rfl, rfl⟩
      | arr items =>
          cases hopening
          exact ⟨_, _, write_arr depth items, rfl⟩
      | obj members =>
          cases hopening
          exact ⟨_, _, write_obj depth members, rfl⟩
      | _ => cases hopening

/-! ## String literals -/

/-- A sound piece is found at the front of a text. -/
theorem Piece.text_append_inj {piece other : Piece} (h : piece.Sound) (h' : other.Sound)
    {s t : List Char} (htext : piece.text ++ s = other.text ++ t) : piece = other ∧ s = t := by
  -- a plain character is no backslash, and no letter after a backslash is a u
  have hletter : ∀ pair ∈ letterEscapes, pair.2 ≠ 'u' := by decide
  cases h with
  | plain _ _ hc =>
      cases h' with
      | plain _ _ _ => simpa [Piece.text] using htext
      | letter _ => exact absurd (List.cons.inj htext).1 hc
      | hex _ => exact absurd (List.cons.inj htext).1 hc
  | letter hmem =>
      cases h' with
      | plain _ _ hc => exact absurd (List.cons.inj htext).1.symm hc
      | letter _ => simpa [Piece.text] using htext
      | hex _ => exact absurd (List.cons.inj (List.cons.inj htext).2).1 (hletter _ hmem)
  | hex _ =>
      cases h' with
      | plain _ _ hc => exact absurd (List.cons.inj htext).1.symm hc
      | letter hmem => exact absurd (List.cons.inj (List.cons.inj htext).2).1.symm (hletter _ hmem)
      | hex _ => simpa [Piece.text, and_assoc] using htext

/-- No sound piece starts with a quote. -/
theorem Piece.text_append_ne_quote {piece : Piece} (h : piece.Sound) (s t : List Char) :
    piece.text ++ s ≠ '"' :: t := by
  intro htext
  cases h with
  | plain _ hc _ => exact hc (List.cons.inj htext).1
  | letter _ => exact absurd (List.cons.inj htext).1 (by decide)
  | hex _ => exact absurd (List.cons.inj htext).1 (by decide)

/-- The pieces of a literal are found up to the quote behind them. -/
theorem spell_append_inj {pieces others : List Piece} (h : ∀ piece ∈ pieces, piece.Sound)
    (h' : ∀ piece ∈ others, piece.Sound) {s t : List Char}
    (htext : spell pieces ++ '"' :: s = spell others ++ '"' :: t) : pieces = others ∧ s = t := by
  induction pieces generalizing others with
  | nil =>
      -- the closing quotation mark is the beginning of no piece
      cases others with
      | nil => simpa [spell] using htext
      | cons other others =>
          rw [spell, spell, List.flatMap_cons, List.append_assoc] at htext
          have hsound := h' other List.mem_cons_self
          exact absurd htext.symm (Piece.text_append_ne_quote hsound _ _)
  | cons piece rest ih =>
      obtain ⟨hpiece, hrest⟩ := List.forall_mem_cons.mp h
      rw [spell, List.flatMap_cons, List.append_assoc] at htext
      cases others with
      | nil => exact absurd htext (Piece.text_append_ne_quote hpiece _ _)
      | cons other others =>
          obtain ⟨hother, hothers⟩ := List.forall_mem_cons.mp h'
          rw [spell, List.flatMap_cons, List.append_assoc] at htext
          obtain ⟨rfl, hmore⟩ := Piece.text_append_inj hpiece hother htext
          obtain ⟨rfl, hend⟩ := ih hrest hothers hmore
          exact ⟨rfl, hend⟩

/-- A string is found in its literal. -/
theorem quote_append_inj {text other : String} {s t : List Char}
    (h : quote text ++ s = quote other ++ t) : text = other ∧ s = t := by
  obtain ⟨hsound, hspell, hdenotes⟩ := Quoted.pieces_written text.toList
  obtain ⟨hsound', hspell', hdenotes'⟩ := Quoted.pieces_written other.toList
  have hquotes : spell (Quoted.pieces text.toList) ++ '"' :: s =
      spell (Quoted.pieces other.toList) ++ '"' :: t := by
    simpa [quote, hspell, hspell'] using h
  obtain ⟨hpieces, hend⟩ := spell_append_inj hsound hsound' hquotes
  -- one row of pieces denotes one string
  have hread := Quoted.unescape_of_denotes hsound hdenotes
  rw [hpieces, Quoted.unescape_of_denotes hsound' hdenotes', String.ofList_toList,
    String.ofList_toList] at hread
  exact ⟨(Option.some.inj (Option.some.inj hread)).symm, hend⟩

/-! ## Rows -/

/-- The text of a thing tells the thing among all that are sound, and where the text ends. -/
def Tells {α : Type} (Sound : α → Prop) (textOf : α → List Char) (a : α) : Prop :=
  ∀ b s t, Sound b → Stops Token.isBare s → Stops Token.isBare t → textOf a ++ s = textOf b ++ t →
    a = b ∧ s = t

/-- No bare run goes on with blanks, a comma or a closing bracket. -/
theorem stops_gap {gap : List Char} (hgap : Blanks gap) {c : Char} (hc : Token.isBare c = false)
    (rest : List Char) : Stops Token.isBare (gap ++ c :: rest) :=
  Token.stops_of_blanks hgap (stops_cons hc rest)

theorem gap_append_ne {gap : List Char} (hgap : Blanks gap) {c d : Char} (hc : Token.isBlank c = false)
    (hne : d ≠ c) (s t : List Char) : gap ++ d :: s ≠ c :: t := by
  intro htext
  cases gap with
  | nil => exact hne (List.cons.inj htext).1
  | cons e gap =>
      have he := Token.isBlank_of_blanks hgap List.mem_cons_self
      rw [(List.cons.inj htext).1, hc] at he
      cases he

variable {α : Type} {Sound : α → Prop} {textOf : α → List Char} {gap : List Char} {bracket : Char}

/-- What goes on behind a thing in a row: a comma, or the gap and the bracket. -/
theorem stops_row (hgap : Blanks gap) (hbracket : Token.isBare bracket = false) (rest : List α)
    (s : List Char) :
    Stops Token.isBare (rest.flatMap (fun a => ',' :: textOf a) ++ gap ++ [bracket] ++ s) := by
  cases rest with
  | nil => simpa using stops_gap hgap hbracket s
  | cons a rest => exact stops_cons rfl _

/-- Behind the first thing of a row its other things are found up to the bracket. -/
theorem row_append_inj (hgap : Blanks gap) (hbare : Token.isBare bracket = false)
    (hcomma : bracket ≠ ',') {rest others : List α} (h : ∀ a ∈ rest, Tells Sound textOf a)
    (hothers : ∀ b ∈ others, Sound b) {s t : List Char}
    (htext : rest.flatMap (fun a => ',' :: textOf a) ++ gap ++ [bracket] ++ s =
      others.flatMap (fun b => ',' :: textOf b) ++ gap ++ [bracket] ++ t) :
    rest = others ∧ s = t := by
  have hend : ∀ (u v : List Char), gap ++ bracket :: u ≠ ',' :: v := gap_append_ne hgap rfl hcomma
  induction rest generalizing others with
  | nil =>
      -- a row that ends where the other goes on would have the bracket, or a blank, in the place of
      -- a comma
      cases others with
      | nil => simpa using htext
      | cons b others =>
          simp only [List.flatMap_nil, List.flatMap_cons, List.nil_append, List.cons_append,
            List.append_assoc] at htext
          exact absurd htext (hend _ _)
  | cons a rest ih =>
      cases others with
      | nil =>
          simp only [List.flatMap_nil, List.flatMap_cons, List.nil_append, List.cons_append,
            List.append_assoc] at htext
          exact absurd htext.symm (hend _ _)
      | cons b others =>
          obtain ⟨ha, hrest⟩ := List.forall_mem_cons.mp h
          obtain ⟨hb, hmore⟩ := List.forall_mem_cons.mp hothers
          simp only [List.flatMap_cons, List.cons_append, List.append_assoc, List.cons.injEq,
            true_and] at htext
          obtain ⟨rfl, htail⟩ := ha b _ _ hb (by simpa using stops_row hgap hbare rest s)
            (by simpa using stops_row hgap hbare others t) htext
          obtain ⟨rfl, rfl⟩ := ih hrest hmore (by simpa using htail)
          exact ⟨rfl, rfl⟩

/-- A row is found in its brackets. -/
theorem enclosed_append_inj (hgap : Blanks gap) (hbare : Token.isBare bracket = false)
    (hcomma : bracket ≠ ',') (hfirst : ∀ a, Sound a → ∀ u v, textOf a ++ u ≠ bracket :: v)
    {row others : List α} (h : ∀ a ∈ row, Tells Sound textOf a) (hrow : ∀ a ∈ row, Sound a)
    (hothers : ∀ b ∈ others, Sound b) {s t : List Char}
    (htext : enclosed textOf gap bracket row ++ s = enclosed textOf gap bracket others ++ t) :
    row = others ∧ s = t := by
  cases row with
  | nil =>
      cases others with
      | nil => simpa [enclosed] using htext
      | cons b others =>
          simp only [enclosed, List.append_assoc] at htext
          -- no item begins with the closing bracket
          exact absurd htext.symm (hfirst b (hothers b List.mem_cons_self) _ _)
  | cons a row =>
      cases others with
      | nil =>
          simp only [enclosed, List.append_assoc] at htext
          exact absurd htext (hfirst a (hrow a List.mem_cons_self) _ _)
      | cons b others =>
          obtain ⟨ha, hrest⟩ := List.forall_mem_cons.mp h
          obtain ⟨hb, hmore⟩ := List.forall_mem_cons.mp hothers
          simp only [enclosed, List.append_assoc] at htext
          obtain ⟨rfl, htail⟩ := ha b _ _ hb (by simpa using stops_row hgap hbare row s)
            (by simpa using stops_row hgap hbare others t) htext
          obtain ⟨rfl, rfl⟩ := row_append_inj hgap hbare hcomma hrest hmore (by simpa using htail)
          exact ⟨rfl, rfl⟩

/-! ## Values -/

variable {spacing : Spacing} {depth : Nat}

theorem opening?_eq {value other : Json String} (h : FiniteReals value) (h' : FiniteReals other)
    {s t : List Char} (htext : write spacing depth value ++ s = write spacing depth other ++ t) :
    value.opening? = other.opening? := by
  obtain ⟨c, rest, hcons, hopening⟩ := exists_write_eq_cons spacing depth h
  obtain ⟨d, more, hcons', hopening'⟩ := exists_write_eq_cons spacing depth h'
  rw [hcons, hcons'] at htext
  rw [hopening, hopening', (List.cons.inj htext).1]

/-- A scalar is cut off where its bare run ends. -/
theorem tells_scalar {value : Json String} (h : FiniteReals value) (hopening : value.opening? = none) :
    Tells FiniteReals (write spacing depth) value := by
  intro other s t hother hs ht htext
  have hopening' : other.opening? = none := (opening?_eq h hother htext).symm.trans hopening
  obtain ⟨hbare, -⟩ := bare_write spacing depth h hopening
  obtain ⟨hbare', -⟩ := bare_write spacing depth hother hopening'
  have hrun := congrArg (List.takeWhile Token.isBare) htext
  rw [takeWhile_append hbare hs, takeWhile_append hbare' ht] at hrun
  have hend := congrArg (List.dropWhile Token.isBare) htext
  rw [dropWhile_append hbare hs, dropWhile_append hbare' ht] at hend
  have hread := scalar?_write spacing depth h hopening
  rw [hrun, scalar?_write spacing depth hother hopening'] at hread
  exact ⟨(Option.some.inj hread).symm, hend⟩

/-- No written item starts with a closing bracket. -/
theorem writeItem_append_ne (hblank : spacing.Blank) {item : Json String} (h : FiniteReals item)
    (s t : List Char) : writeItem spacing depth item ++ s ≠ ']' :: t := by
  obtain ⟨c, rest, hcons, hopening⟩ := exists_write_eq_cons spacing depth h
  have hc : c ≠ ']' := by
    rintro rfl
    cases item <;> simp [opening?, Token.isBare] at hopening
  rw [writeItem, hcons, List.append_assoc, List.cons_append]
  exact gap_append_ne (hblank.lineBreak depth) rfl hc _ _

theorem writeMember_append_ne (hblank : spacing.Blank) (member : String × Json String)
    (s t : List Char) : writeMember spacing depth member ++ s ≠ '\x7d' :: t := by
  rw [writeMember, List.append_assoc, quote, List.cons_append, List.cons_append, List.cons_append]
  exact gap_append_ne (hblank.lineBreak depth) rfl (by decide) _ _

theorem tells_writeItem {item : Json String} (h : Tells FiniteReals (write spacing depth) item) :
    Tells FiniteReals (writeItem spacing depth) item := by
  intro other s t hother hs ht htext
  simp only [writeItem, List.append_assoc] at htext
  exact h other s t hother hs ht (List.append_cancel_left htext)

theorem tells_writeMember {member : String × Json String}
    (h : Tells FiniteReals (write spacing depth) member.2) :
    Tells (fun member => FiniteReals member.2) (writeMember spacing depth) member := by
  intro other s t hother hs ht htext
  simp only [writeMember, List.append_assoc, List.cons_append] at htext
  obtain ⟨hkey, hmore⟩ := quote_append_inj (List.append_cancel_left htext)
  have hvalue := List.append_cancel_left (List.cons.inj hmore).2
  obtain ⟨hmember, hend⟩ := h other.2 s t hother hs ht hvalue
  exact ⟨Prod.ext hkey hmember, hend⟩

/-- **The text of a value tells the value**, and where it ends. -/
theorem tells_write (hblank : spacing.Blank) {value : Json String} (h : FiniteReals value) (depth : Nat) :
    Tells FiniteReals (write spacing depth) value := by
  -- the first character tells the form of the other value, and then the parts are compared
  induction h generalizing depth with
  | null => exact tells_scalar .null rfl
  | bool value => exact tells_scalar (.bool _) rfl
  | int hz => exact tells_scalar (.int hz) rfl
  | real hx => exact tells_scalar (.real hx) rfl
  | str text =>
      intro other s t hother hs ht htext
      have hopening := opening?_eq (.str text) hother htext
      cases hother with
      | str other =>
          obtain ⟨rfl, hend⟩ := quote_append_inj htext
          exact ⟨rfl, hend⟩
      | _ => cases hopening
  | @arr items hitems ih =>
      intro other s t hother hs ht htext
      have hopening := opening?_eq (.arr hitems) hother htext
      cases hother with
      | arr hothers =>
          rw [write_arr, write_arr] at htext
          obtain ⟨rfl, hend⟩ := enclosed_append_inj (hblank.lineBreak depth) rfl (by decide)
            (fun item hitem => writeItem_append_ne hblank hitem)
            (fun item hitem => tells_writeItem (ih item hitem (depth + 1))) hitems hothers
            (List.cons.inj htext).2
          exact ⟨rfl, hend⟩
      | _ => cases hopening
  | @obj members hmembers ih =>
      intro other s t hother hs ht htext
      have hopening := opening?_eq (.obj hmembers) hother htext
      cases hother with
      | obj hothers =>
          rw [write_obj, write_obj] at htext
          obtain ⟨rfl, hend⟩ := enclosed_append_inj (hblank.lineBreak depth) rfl (by decide)
            (fun member _ => writeMember_append_ne hblank member)
            (fun member hmember => tells_writeMember (ih member hmember (depth + 1))) hmembers hothers
            (List.cons.inj htext).2
          exact ⟨rfl, hend⟩
      | _ => cases hopening

theorem write_inj (hblank : spacing.Blank) {value other : Json String} (h : FiniteReals value)
    (h' : FiniteReals other) (htext : write spacing 0 value = write spacing 0 other) : value = other := by
  have hnone := stops_nil Token.isBare
  exact (tells_write hblank h 0 other [] [] h' hnone hnone (by rw [htext])).1

/-- Values with one written form are one value. -/
theorem compact_inj {value other : Json String} (h : FiniteReals value) (h' : FiniteReals other)
    (htext : compact value = compact other) : value = other :=
  write_inj Spacing.blank_compact h h' (String.ofList_injective htext)

theorem indented_inj {value other : Json String} (h : FiniteReals value) (h' : FiniteReals other)
    (htext : indented value = indented other) : value = other :=
  write_inj Spacing.blank_indented h h' (String.ofList_injective htext)

end QCircuit.Json
