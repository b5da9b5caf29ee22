import QCircuit.Proofs.Decimal.Positional
import QCircuit.Proofs.Json.Grammar

/-!
# What number literals are read as

A text of the grammar is read as the literal that it is a text of (`Literal.read?_of_numberText`): each
part ends where the next begins, as no part goes on with the first character of the next. The value of a
literal is a whole number exactly where the literal is written as one within the range of 64-bit words
(`Literal.value_eq_int_iff`).

A whole number is written as a literal of this form (`numberText_intText`).
-/

set_option autoImplicit false

namespace QCircuit.Json

/-- No run of characters of a class goes on with the text. -/
def Stops (isIn : Char → Bool) (text : List Char) : Prop :=
  ∀ c, text.head? = some c → isIn c = false

theorem stops_nil (isIn : Char → Bool) : Stops isIn [] := fun _ h => by cases h

theorem stops_cons {isIn : Char → Bool} {c : Char} (h : isIn c = false) (text : List Char) :
    Stops isIn (c :: text) := by
  intro d hd
  cases hd
  exact h

/-- A run ends where the text behind it does not go on with it. -/
theorem takeWhile_append {isIn : Char → Bool} {run text : List Char} (hrun : ∀ c ∈ run, isIn c)
    (htext : Stops isIn text) : (run ++ text).takeWhile isIn = run := by
  rw [List.takeWhile_append_of_pos hrun]
  cases text with
  | nil => simp
  | cons c rest => simp [htext c rfl]

theorem dropWhile_append {isIn : Char → Bool} {run text : List Char} (hrun : ∀ c ∈ run, isIn c)
    (htext : Stops isIn text) : (run ++ text).dropWhile isIn = text := by
  rw [List.dropWhile_append_of_pos hrun]
  cases text with
  | nil => rfl
  | cons c rest => simp [htext c rfl]

/-! ## The parts in front of each other -/

/-- An exponent starts with a mark. -/
theorem ExponentText.head {exponent : Option Int} {text : List Char} (h : ExponentText exponent text) :
    ∀ c, text.head? = some c → c = 'e' ∨ c = 'E' := by
  intro c hc
  cases h with
  | none => cases hc
  | unsigned hmark _ =>
      cases hc
      exact hmark
  | plus hmark _ =>
      cases hc
      exact hmark
  | minus hmark _ =>
      cases hc
      exact hmark

theorem ExponentText.stops {exponent : Option Int} {text : List Char}
    (h : ExponentText exponent text) : Stops Decimal.isDigit text := by
  intro c hc
  rcases h.head c hc with rfl | rfl <;> decide

theorem FractionText.stops_append {fraction text more : List Char} (h : FractionText fraction text)
    (hmore : Stops Decimal.isDigit more) : Stops Decimal.isDigit (text ++ more) := by
  cases h with
  | none => exact hmore
  | some _ => exact stops_cons (by decide) _

namespace Literal

theorem digits?_append {digits text : List Char} (h : Decimal.Digits digits)
    (htext : Stops Decimal.isDigit text) : digits? (digits ++ text) = some (digits, text) := by
  rw [digits?, takeWhile_append h.2 htext, dropWhile_append h.2 htext]
  cases digits with
  | nil => exact absurd rfl h.1
  | cons c rest => rfl

theorem sign_append (negative : Bool) {whole : List Char} (h : Decimal.Digits whole)
    (text : List Char) :
    sign ((if negative then ['-'] else []) ++ whole ++ text) = (negative, whole ++ text) := by
  cases negative with
  | true => rfl
  | false =>
      have hne := h.append_ne_minus text
      show sign (whole ++ text) = (false, whole ++ text)
      unfold sign
      split
      · next rest heq => exact absurd heq (hne rest)
      · rfl

theorem whole?_append {whole text : List Char} (h : Decimal.Digits whole)
    (hzero : whole.head? = some '0' → whole = ['0']) (htext : Stops Decimal.isDigit text) :
    whole? (whole ++ text) = some (whole, text) := by
  have hpadded : ¬ (whole.head? = some '0' ∧ whole.length ≠ 1) := by
    rintro ⟨hhead, hlength⟩
    rw [hzero hhead] at hlength
    exact hlength rfl
  simp only [whole?, digits?_append h htext]
  exact if_neg hpadded

theorem fraction?_append {fraction text more : List Char} (h : FractionText fraction text)
    {exponent : Option Int} (hmore : ExponentText exponent more) :
    fraction? (text ++ more) = some (fraction, more) := by
  cases h with
  | some hdigits => exact digits?_append hdigits hmore.stops
  | none =>
      -- what comes next is a mark, so there is no point
      have hpoint : ∀ rest, more ≠ '.' :: rest := by
        intro rest heq
        rw [heq] at hmore
        rcases hmore.head '.' rfl with hc | hc <;> cases hc
      show fraction? more = some ([], more)
      unfold fraction?
      split
      · next rest => exact absurd rfl (hpoint rest)
      · rfl

theorem exponent?_of_exponentText {exponent : Option Int} {text : List Char}
    (h : ExponentText exponent text) : exponent? text = some (exponent, []) := by
  have hread : ∀ {digits : List Char}, Decimal.Digits digits →
      digits? digits = some (digits, []) := by
    intro digits hdigits
    simpa using digits?_append hdigits (stops_nil _)
  cases h with
  | none => rfl
  | plus hmark hdigits => simp [exponent?, hmark, hread hdigits]
  | minus hmark hdigits => simp [exponent?, hmark, hread hdigits]
  | @unsigned mark digits hmark hdigits =>
      -- a digit is no sign
      have hminus : ∀ rest, digits = '-' :: rest → False := by
        rintro rest rfl
        exact hdigits.not_mem (c := '-') (by decide) List.mem_cons_self
      have hplus : ∀ rest, digits = '+' :: rest → False := by
        rintro rest rfl
        exact hdigits.not_mem (c := '+') (by decide) List.mem_cons_self
      simp [exponent?, hmark, hread hdigits]

/-- A text of a literal is read as the literal. -/
theorem read?_of_numberText {literal : Literal} {text : List Char} (h : NumberText literal text) :
    read? text = some literal := by
  cases h with
  | mk negative hwhole hzero hfraction hexponent =>
      -- part by part from the front, each with the rest of the literal behind it
      rw [List.append_assoc _ _ _, read?, sign_append negative hwhole]
      simp [whole?_append hwhole hzero (hfraction.stops_append hexponent.stops),
        fraction?_append hfraction hexponent, exponent?_of_exponentText hexponent]

/-! ## Values -/

/-- A literal has a whole number exactly if it is written as one within the range of 64-bit words. -/
theorem wholeNumber?_eq_some_iff {literal : Literal} {z : Int} :
    literal.wholeNumber? = some z ↔
      (Tree.number literal).IsWhole z ∧ -(2 ^ 63) ≤ z ∧ z < 2 ^ 64 := by
  obtain ⟨negative, whole, fraction, exponent⟩ := literal
  simp only [wholeNumber?, Option.ite_none_right_eq_some, Option.some.injEq]
  constructor
  · rintro ⟨⟨rfl, rfl⟩, ⟨hzero, hrange⟩, rfl⟩
    cases negative with
    | true => exact ⟨.negative (by simpa using hzero), hrange⟩
    | false => exact ⟨.unsigned, hrange⟩
  · rintro ⟨hwhole, hrange⟩
    cases hwhole with
    | unsigned => exact ⟨⟨rfl, rfl⟩, ⟨by simp, hrange⟩, rfl⟩
    | negative hne => exact ⟨⟨rfl, rfl⟩, ⟨by simpa using hne, hrange⟩, rfl⟩

theorem value_eq_int_iff {literal : Literal} {z : Int} {τ : Type} :
    literal.value = (.int z : Json τ) ↔
      (Tree.number literal).IsWhole z ∧ -(2 ^ 63) ≤ z ∧ z < 2 ^ 64 := by
  rw [← wholeNumber?_eq_some_iff, value]
  cases literal.wholeNumber? with
  | some whole => simp
  | none => simp

end Literal

/-! ## Written whole numbers -/

/-- The whole number fits into 64 bits, with a sign or without. -/
def Fits (z : Int) : Prop := -(2 ^ 63) ≤ z ∧ z < 2 ^ 64

/-- A whole number is written as one. -/
theorem numberText_intText (z : Int) :
    ∃ literal, NumberText literal (intText z) ∧ (Tree.number literal).IsWhole z := by
  have hwrites := Decimal.writes_numeral z.natAbs
  -- only a number below zero gets a sign, so `-0` is never written
  by_cases hz : z < 0
  · refine ⟨⟨true, Decimal.numeral z.natAbs, [], none⟩, ?_, ?_⟩
    · simpa [intText, hz] using
        NumberText.mk true hwrites.digits hwrites.unpadded .none .none
    · have hne : Decimal.ofNumeral (Decimal.numeral z.natAbs) ≠ 0 := by
        rw [hwrites.value]
        omega
      have hvalue : -(Decimal.ofNumeral (Decimal.numeral z.natAbs) : Int) = z := by
        rw [hwrites.value]
        omega
      simpa only [hvalue] using Tree.IsWhole.negative hne
  · refine ⟨⟨false, Decimal.numeral z.natAbs, [], none⟩, ?_, ?_⟩
    · simpa [intText, hz] using
        NumberText.mk false hwrites.digits hwrites.unpadded .none .none
    · have hvalue : (Decimal.ofNumeral (Decimal.numeral z.natAbs) : Int) = z := by
        rw [hwrites.value]
        omega
      have hwhole : Tree.IsWhole (.number ⟨false, Decimal.numeral z.natAbs, [], none⟩) _ := .unsigned
      rwa [hvalue] at hwhole

end QCircuit.Json
