import QCircuit.Angle
import QCircuit.Proofs.Decimal.Numeral
import QCircuit.Proofs.Decimal.ReadBack

/-!
# Angles in a text

A literal is an optional sign, a row of digits, a point and a row of digits (`Decimal.Literal`), so it
has no exponent. The positional text of a decimal is an unsigned literal of the same value
(`Decimal.spells_positionalText`), whichever side of its digits the point falls on. Reading a literal back
as a word (`Decimal.readLiteral?`) therefore inverts the text of every finite angle
(`Angle.readLiteral?_radiansText`).
-/

set_option autoImplicit false

namespace QCircuit

namespace Decimal

/-! ## Literals -/

/-- A row of digits on either side of a point. -/
def Unsigned (s : List Char) : Prop :=
  ∃ whole fraction, Digits whole ∧ Digits fraction ∧ s = whole ++ '.' :: fraction

/-- An unsigned literal, perhaps behind a sign. -/
def Literal (s : List Char) : Prop := Unsigned s ∨ ∃ rest, Unsigned rest ∧ s = '-' :: rest

/-- The value of the digits around a point. -/
def ofParts (whole fraction : List Char) : Decimal :=
  ⟨ofNumeral (whole ++ fraction), -(fraction.length : Int)⟩

/-- Reads an unsigned literal. -/
def readUnsigned? (s : List Char) : Option Decimal :=
  match s.dropWhile isDigit with
  | '.' :: fraction =>
      if s.takeWhile isDigit ≠ [] ∧ fraction ≠ [] ∧ fraction.all isDigit then
        some (ofParts (s.takeWhile isDigit) fraction)
      else none
  | _ => none

/-- Reads a literal as the nearest word. -/
def readLiteral? : List Char → Option Binary64
  | '-' :: rest => (readUnsigned? rest).map (toBinary64 true)
  | s => (readUnsigned? s).map (toBinary64 false)

theorem isDigit_point : isDigit '.' = false := by decide

theorem isDigit_minus : isDigit '-' = false := by decide

/-- The digits in front of a point end at the point. -/
theorem readUnsigned?_of_digits {whole fraction : List Char} (hw : Digits whole)
    (hf : Digits fraction) :
    readUnsigned? (whole ++ '.' :: fraction) = some (ofParts whole fraction) := by
  have htake : (whole ++ '.' :: fraction).takeWhile isDigit = whole := by
    rw [List.takeWhile_append_of_pos hw.2, List.takeWhile_cons, isDigit_point]
    simp
  have hdrop : (whole ++ '.' :: fraction).dropWhile isDigit = '.' :: fraction := by
    rw [List.dropWhile_append_of_pos hw.2, List.dropWhile_cons, isDigit_point]
    simp
  have hall : fraction.all isDigit = true := List.all_eq_true.mpr hf.2
  simp only [readUnsigned?, htake, hdrop]
  exact if_pos ⟨hw.1, hf.1, hall⟩

/-- A literal without a sign does not start with one. -/
theorem Digits.append_ne_minus {whole : List Char} (h : Digits whole) (tail rest : List Char) :
    whole ++ tail ≠ '-' :: rest := by
  intro heq
  cases whole with
  | nil => exact h.1 rfl
  | cons c cs =>
      have hc := h.2 c List.mem_cons_self
      rw [(List.cons.inj heq).1, isDigit_minus] at hc
      cases hc

theorem readLiteral?_of_minus {rest : List Char} {d : Decimal} (h : readUnsigned? rest = some d) :
    readLiteral? ('-' :: rest) = some (toBinary64 true d) := by
  rw [readLiteral?, h, Option.map_some]

theorem readLiteral?_of_digits {whole fraction : List Char} (hw : Digits whole)
    (hf : Digits fraction) :
    readLiteral? (whole ++ '.' :: fraction) = some (toBinary64 false (ofParts whole fraction)) := by
  rw [readLiteral?, readUnsigned?_of_digits hw hf, Option.map_some]
  intro rest
  exact hw.append_ne_minus _ rest

/-! ## Positional texts -/

/-- Digits around a point that have the value of a decimal. -/
def Spells (s : List Char) (d : Decimal) : Prop :=
  ∃ whole fraction, Digits whole ∧ Digits fraction ∧ s = whole ++ '.' :: fraction ∧
    SameValue d (ofParts whole fraction)

/-- Where the exponent is not negative, zeros fill the places up to the point. -/
theorem spells_of_exponent_nonneg (n : Nat) {e : Int} (he : e ≥ 0) :
    Spells (positionalText ⟨n, e⟩) ⟨n, e⟩ := by
  -- the zero behind the point is one more power of ten
  have hvalue : ofParts (numeral n ++ List.replicate e.toNat '0') ['0'] =
      ⟨n * 10 ^ (e.toNat + 1), -1⟩ := by
    have hzeros : List.replicate e.toNat '0' ++ ['0'] = List.replicate (e.toNat + 1) '0' :=
      List.replicate_succ'.symm
    rw [ofParts, List.append_assoc, hzeros, ofNumeral_append, ofNumeral_numeral, ofNumeral_zeros,
      List.length_replicate, Nat.add_zero, Nat.mul_comm]
    rfl
  have hmove := sameValue_shift n (e.toNat + 1) (-1)
  have hexp : (-1 : Int) + ((e.toNat + 1 : Nat) : Int) = e := by omega
  rw [hexp] at hmove
  refine ⟨numeral n ++ List.replicate e.toNat '0', ['0'], ?_, by decide, ?_, ?_⟩
  · exact (digits_numeral n).append fun _ => isDigit_of_mem_zeros
  · simp only [positionalText, he, if_true]
  · rw [hvalue]
    exact hmove

/-- Where the exponent takes away fewer places than there are digits, the point falls between two of
them. -/
theorem spells_of_point_inside (n : Nat) {e : Int} (he : ¬ e ≥ 0)
    (hin : (-e).toNat < (numeral n).length) : Spells (positionalText ⟨n, e⟩) ⟨n, e⟩ := by
  have hdigits := digits_numeral n
  have hplaces : ((numeral n).drop ((numeral n).length - (-e).toNat)).length = (-e).toNat := by
    rw [List.length_drop]
    omega
  refine ⟨(numeral n).take ((numeral n).length - (-e).toNat),
    (numeral n).drop ((numeral n).length - (-e).toNat), ⟨?_, ?_⟩, ⟨?_, ?_⟩, ?_, ?_⟩
  · intro hnil
    have hlen := congrArg List.length hnil
    rw [List.length_take, List.length_nil] at hlen
    omega
  · exact fun c hc => hdigits.2 c (List.mem_of_mem_take hc)
  · intro hnil
    rw [hnil, List.length_nil] at hplaces
    omega
  · exact fun c hc => hdigits.2 c (List.mem_of_mem_drop hc)
  · simp only [positionalText, he, hin, if_true, if_false]
  · -- the two parts together are the digits again
    have hexp : -(((-e).toNat : Nat) : Int) = e := by omega
    rw [ofParts, List.take_append_drop, ofNumeral_numeral, hplaces, hexp]
    exact SameValue.refl _

/-- Where the exponent takes away all digits and more, zeros stand between the point and them. -/
theorem spells_of_point_before (n : Nat) {e : Int} (he : ¬ e ≥ 0)
    (hout : ¬ (-e).toNat < (numeral n).length) : Spells (positionalText ⟨n, e⟩) ⟨n, e⟩ := by
  have hdigits := digits_numeral n
  have hplaces : (List.replicate ((-e).toNat - (numeral n).length) '0' ++ numeral n).length =
      (-e).toNat := by
    rw [List.length_append, List.length_replicate]
    omega
  refine ⟨['0'], List.replicate ((-e).toNat - (numeral n).length) '0' ++ numeral n, by decide,
    ⟨?_, ?_⟩, ?_, ?_⟩
  · intro hnil
    exact hdigits.1 (List.append_eq_nil_iff.mp hnil).2
  · intro c hc
    cases List.mem_append.mp hc with
    | inl h => exact isDigit_of_mem_zeros h
    | inr h => exact hdigits.2 c h
  · simp only [positionalText, he, hout, if_false, List.cons_append, List.nil_append]
  · -- zeros in front of the digits do not count
    have hexp : -(((-e).toNat : Nat) : Int) = e := by omega
    have hvalue : ofNumeral (['0'] ++ (List.replicate ((-e).toNat - (numeral n).length) '0' ++
        numeral n)) = n := by
      rw [← List.append_assoc, List.singleton_append, ← List.replicate_succ, ofNumeral_append,
        ofNumeral_zeros, ofNumeral_numeral, Nat.mul_zero, Nat.zero_add]
    rw [ofParts, hvalue, hplaces, hexp]
    exact SameValue.refl _

/-- A positional text spells its decimal. -/
theorem spells_positionalText (d : Decimal) : Spells (positionalText d) d := by
  obtain ⟨n, e⟩ := d
  by_cases he : e ≥ 0
  · exact spells_of_exponent_nonneg n he
  · by_cases hin : (-e).toNat < (numeral n).length
    · exact spells_of_point_inside n he hin
    · exact spells_of_point_before n he hin

end Decimal

/-! ## Angles -/

namespace Angle

open Decimal

theorem toList_radiansText {x : Binary64} (h : x.isFinite) :
    (radiansText x).toList = layout.text x := by
  rw [radiansText, if_pos h, String.toList_ofList]

/-- A finite angle is written as a literal. -/
theorem literal_radiansText {x : Binary64} (h : x.isFinite) : Literal (radiansText x).toList := by
  obtain ⟨whole, fraction, hw, hf, htext, -⟩ := spells_positionalText (shortest layout.tie x)
  have hunsigned : Unsigned (positionalText (shortest layout.tie x)) :=
    ⟨whole, fraction, hw, hf, htext⟩
  rw [toList_radiansText h]
  cases hn : x.negative with
  | true => exact Or.inr ⟨_, hunsigned, by simp only [Layout.text, layout, hn, if_true]⟩
  | false =>
      simp only [Layout.text, hn]
      exact Or.inl hunsigned

/-- A finite angle is read back from its text. -/
theorem readLiteral?_radiansText {x : Binary64} (h : x.isFinite) :
    readLiteral? (radiansText x).toList = some x := by
  obtain ⟨whole, fraction, hw, hf, htext, hvalue⟩ := spells_positionalText (shortest layout.tie x)
  -- the sign is read off the text, and the digits around the point have the value that reads back
  have hback : ∀ negative, x.negative = negative →
      toBinary64 negative (ofParts whole fraction) = x := by
    intro negative hn
    rw [← hvalue.toBinary64_eq, ← hn]
    exact toBinary64_shortest layout.tie h
  rw [toList_radiansText h]
  cases hn : x.negative with
  | true =>
      have hform : layout.text x = '-' :: positionalText (shortest layout.tie x) := by
        simp only [Layout.text, layout, hn, if_true]
      rw [hform, htext, readLiteral?_of_minus (readUnsigned?_of_digits hw hf), hback true hn]
  | false =>
      have hform : layout.text x = positionalText (shortest layout.tie x) := by
        simp only [Layout.text, layout, hn, if_true, Bool.false_eq_true, if_false]
      rw [hform, htext, readLiteral?_of_digits hw hf, hback false hn]

/-- Finite angles with one text are one angle. -/
theorem radiansText_inj {x y : Binary64} (hx : x.isFinite) (hy : y.isFinite)
    (h : radiansText x = radiansText y) : x = y := by
  have hread := readLiteral?_radiansText hx
  rw [h, readLiteral?_radiansText hy] at hread
  exact (Option.some.inj hread).symm

end Angle

end QCircuit
