import QCircuit.Proofs.Decimal.Bounded
import QCircuit.Proofs.Json.Number

/-!
# Written words

The decimal that is written for a finite word is zero in one form only (`Decimal.exponent_shortest`), so
its positional text has no zeros in front (`Decimal.unpadded_positionalText`). Positional or not, the text
of a finite word is a number literal with a fraction or an exponent, which no whole number is written with,
and the value of the literal is the word (`exists_literal_realText`).
-/

set_option autoImplicit false

namespace QCircuit

namespace Decimal

/-! ## Positional texts -/

/-- Zero is written without an exponent. -/
theorem exponent_shortest (tie : Tie) {x : Binary64} (h : x.isFinite)
    (hzero : (shortest tie x).digits = 0) : (shortest tie x).exponent = 0 := by
  have hback := toBinary64_shortest tie h
  rw [toBinary64_of_digits_zero x.negative hzero] at hback
  have hunits : x.units = 0 := by
    rw [← hback]
    cases x.negative <;> rfl
  rw [shortest, if_pos hunits]

/-- A zero in front of a positional text stands alone before the point. -/
theorem unpadded_positionalText {d : Decimal} (h : d.digits = 0 → d.exponent = 0) {rest : List Char}
    (htext : positionalText d = '0' :: rest) : ∃ fraction, rest = '.' :: fraction := by
  obtain ⟨n, e⟩ := d
  have hwrites := writes_numeral n
  -- a numeral that starts with a zero is that of zero
  have hzero : (numeral n).head? = some '0' → numeral n = ['0'] ∧ n = 0 := by
    intro hhead
    have hnumeral := hwrites.unpadded hhead
    refine ⟨hnumeral, ?_⟩
    rw [← hwrites.value, hnumeral]
    rfl
  obtain ⟨c, digits, hdigits⟩ := List.exists_cons_of_ne_nil (numeral_ne_nil n)
  by_cases he : e ≥ 0
  · simp only [positionalText, he, if_true] at htext
    obtain ⟨hnumeral, rfl⟩ := hzero (by rw [hdigits] at htext ⊢; exact congrArg List.head? htext)
    have hexponent : e = 0 := h rfl
    rw [hexponent, hnumeral] at htext
    exact ⟨['0'], (List.cons.inj htext).2.symm⟩
  · by_cases hin : (-e).toNat < (numeral n).length
    · simp only [positionalText, he, hin, if_true, if_false] at htext
      obtain ⟨k, hk⟩ : ∃ k, (numeral n).length - (-e).toNat = k + 1 :=
        ⟨(numeral n).length - (-e).toNat - 1, by omega⟩
      have hhead : (numeral n).head? = some '0' := by
        rw [hk, hdigits] at htext
        rw [hdigits]
        exact congrArg List.head? htext
      -- one digit leaves no room for the point
      rw [(hzero hhead).1, List.length_singleton] at hin
      omega
    · simp only [positionalText, he, hin, if_false] at htext
      exact ⟨_, (List.cons.inj htext).2.symm⟩

end Decimal

namespace Json

open Decimal (Digits SameValue digits_numeral ofNumeral positionalText scientificText)

/-! ## Literals of decimals -/

/-- The literal writes a decimal in a form that no whole number is written in. -/
structure Literal.WritesReal (literal : Literal) (negative : Bool) (d : Decimal) : Prop where
  sign : literal.negative = negative
  form : literal.fraction ≠ [] ∨ literal.exponent ≠ none
  value : SameValue d literal.decimal

/-- A sign in front of a magnitude. -/
def signed (negative : Bool) (magnitude : List Char) : List Char :=
  (if negative then ['-'] else []) ++ magnitude

theorem exists_literal_positionalText {d : Decimal} (h : d.digits = 0 → d.exponent = 0)
    (negative : Bool) :
    ∃ literal, NumberText literal (signed negative (positionalText d)) ∧
      literal.WritesReal negative d := by
  obtain ⟨whole, fraction, hwhole, hfraction, htext, hvalue⟩ := Decimal.spells_positionalText d
  have hzero : whole.head? = some '0' → whole = ['0'] := by
    intro hhead
    obtain ⟨rest, rfl⟩ := List.head?_eq_some_iff.mp hhead
    obtain ⟨_, hrest⟩ := Decimal.unpadded_positionalText h htext
    -- the next character is the point, and so no digit of the whole part
    cases rest with
    | nil => rfl
    | cons c rest =>
        obtain rfl := (List.cons.inj hrest).1
        exact absurd (List.mem_cons_of_mem _ List.mem_cons_self) (hwhole.not_mem Decimal.isDigit_point)
  refine ⟨⟨negative, whole, fraction, none⟩, ?_, rfl, Or.inl hfraction.1, ?_⟩
  · simpa [signed, htext] using NumberText.mk negative hwhole hzero (.some hfraction) .none
  · simpa [Literal.decimal, Decimal.ofParts] using hvalue

/-- A power of ten is written as an exponent. -/
theorem exponentText_power (power : Int) :
    ExponentText (some power) (Decimal.exponentText power) := by
  have hdigits := digits_numeral power.natAbs
  have hmark : 'e' = 'e' ∨ 'e' = 'E' := Or.inl rfl
  by_cases hpower : power < 0
  · have hvalue : -(ofNumeral (Decimal.numeral power.natAbs) : Int) = power := by
      rw [Decimal.ofNumeral_numeral]
      omega
    have htext := ExponentText.minus hmark hdigits
    rw [hvalue] at htext
    simpa [Decimal.exponentText, hpower] using htext
  · have hvalue : (ofNumeral (Decimal.numeral power.natAbs) : Int) = power := by
      rw [Decimal.ofNumeral_numeral]
      omega
    have htext := ExponentText.plus hmark hdigits
    rw [hvalue] at htext
    simpa [Decimal.exponentText, hpower] using htext

theorem exists_literal_scientificText (d : Decimal) (negative : Bool) :
    ∃ literal, NumberText literal (signed negative (scientificText d)) ∧
      literal.WritesReal negative d := by
  obtain ⟨digit, rest, hdigits⟩ := List.exists_cons_of_ne_nil (Decimal.numeral_ne_nil d.digits)
  have hall := digits_numeral d.digits
  rw [hdigits] at hall
  have hone : Digits [digit] :=
    ⟨List.cons_ne_nil _ _, List.forall_mem_singleton.mpr (hall.2 _ List.mem_cons_self)⟩
  have hzero : [digit].head? = some '0' → [digit] = ['0'] := by
    intro hhead
    rw [Option.some.inj hhead]
  -- the point moves behind the first digit, and the exponent makes up for the others
  have hdecimal : (⟨ofNumeral (digit :: rest), d.leading - (rest.length : Int)⟩ : Decimal) = d := by
    have hvalue : ofNumeral (digit :: rest) = d.digits := by
      rw [← hdigits, Decimal.ofNumeral_numeral]
    have hexponent : d.leading - (rest.length : Int) = d.exponent := by
      rw [Decimal.leading, Decimal.width, hdigits, List.length_cons]
      omega
    rw [hvalue, hexponent]
  refine ⟨⟨negative, [digit], rest, some d.leading⟩, ?_, rfl, Or.inr (Option.some_ne_none _), ?_⟩
  · have hexponent := exponentText_power d.leading
    cases rest with
    | nil =>
        simpa [signed, scientificText, hdigits] using
          NumberText.mk negative hone hzero .none hexponent
    | cons next rest =>
        have hfraction : Digits (next :: rest) :=
          ⟨List.cons_ne_nil _ _, fun c hc => hall.2 c (List.mem_cons_of_mem _ hc)⟩
        simpa [signed, scientificText, hdigits] using
          NumberText.mk negative hone hzero (.some hfraction) hexponent
  · show SameValue d ⟨ofNumeral (digit :: rest), d.leading - (rest.length : Int)⟩
    rw [hdecimal]
    exact SameValue.refl d

theorem Literal.WritesReal.value_eq {literal : Literal} {negative : Bool} {d : Decimal}
    (h : literal.WritesReal negative d) {τ : Type} :
    literal.value = (.real (Decimal.toBinary64 negative d) : Json τ) := by
  have hform : ¬ (literal.fraction = [] ∧ literal.exponent = none) := by
    rintro ⟨hfraction, hexponent⟩
    rcases h.form with hne | hne
    · exact hne hfraction
    · exact hne hexponent
  have hwhole : literal.wholeNumber? = none := if_neg hform
  rw [Literal.value, hwhole]
  dsimp only
  rw [Decimal.toBinary64Bounded_eq, h.sign, h.value.toBinary64_eq]

/-! ## Words -/

/-- A finite word is written as a number literal with a fraction or an exponent, and the word is its
value. -/
theorem exists_literal_realText {x : Binary64} (h : x.isFinite) :
    ∃ literal, NumberText literal (realText x) ∧
      (literal.fraction ≠ [] ∨ literal.exponent ≠ none) ∧
      ∀ {τ : Type}, literal.value = (.real x : Json τ) := by
  have hzero := Decimal.exponent_shortest realLayout.tie h
  have hback := Decimal.toBinary64_shortest realLayout.tie h
  generalize hd : Decimal.shortest realLayout.tie x = d at hzero hback
  have htext : realText x = signed x.negative
      (if realLayout.positional d.leading then positionalText d else scientificText d) := by
    rw [realText, if_pos h, Decimal.Layout.text, hd, signed]
    cases x.negative <;> rfl
  -- either layout of the digits shows that the number is a real one
  have hliteral : ∃ literal, NumberText literal (realText x) ∧ literal.WritesReal x.negative d := by
    rw [htext]
    split
    · exact exists_literal_positionalText hzero x.negative
    · exact exists_literal_scientificText d x.negative
  obtain ⟨literal, hnumber, hwrites⟩ := hliteral
  refine ⟨literal, hnumber, hwrites.form, ?_⟩
  intro τ
  rw [hwrites.value_eq, hback]

end Json

end QCircuit
