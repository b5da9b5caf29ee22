import QCircuit.Proofs.Decimal.Positional
import QCircuit.Proofs.Decimal.Shortest

/-!
# Angles in plain notation

In plain notation a decimal has a point only where places stand behind it (`Decimal.plainText`). The shortest
decimal for a word has such places exactly where the word is no whole number
(`Decimal.exponent_shortest_nonneg_iff`), so the text of an angle is the plain text, with a point and a zero
added to whole numbers (`Angle.radiansText_eq`).

A literal is read as the word of its sign that is nearest to the value of its digits
(`Decimal.TextReadsAs`), and that is what the reader does (`Decimal.readLiteral?_eq_some_iff`). The text of a
finite angle is read as that angle alone (`Angle.radiansText_answer`).
-/

set_option autoImplicit false

namespace QCircuit

namespace Decimal

/-! ## Plain notation -/

/-- The digits of a decimal, with a point only where places stand behind it. -/
def plainText (d : Decimal) : List Char :=
  if d.exponent ≥ 0 then numeral d.digits ++ List.replicate d.exponent.toNat '0'
  else positionalText d

/-- The sign of a text. -/
def signText (negative : Bool) : List Char := if negative then ['-'] else []

theorem positionalText_eq (d : Decimal) :
    positionalText d = if d.exponent ≥ 0 then plainText d ++ ['.', '0'] else plainText d := by
  unfold plainText
  by_cases h : d.exponent ≥ 0
  · rw [if_pos h, if_pos h, positionalText, if_pos h]
  · rw [if_neg h, if_neg h]

/-- A point stands in the plain text of a decimal exactly where places stand behind it. -/
theorem point_mem_plainText (d : Decimal) : '.' ∈ plainText d ↔ ¬ d.exponent ≥ 0 := by
  unfold plainText
  by_cases h : d.exponent ≥ 0
  · rw [if_pos h]
    have hdigits : Digits (numeral d.digits ++ List.replicate d.exponent.toNat '0') :=
      (digits_numeral d.digits).append fun _ => isDigit_of_mem_zeros
    exact ⟨fun hmem => absurd hmem (hdigits.not_mem isDigit_point), fun hn => absurd h hn⟩
  · rw [if_neg h]
    obtain ⟨whole, fraction, -, -, htext, -⟩ := spells_positionalText d
    refine ⟨fun _ => h, fun _ => ?_⟩
    rw [htext]
    exact List.mem_append_right _ List.mem_cons_self

/-! ## Reading a text -/

/-- A text of a sign, a row of digits, a point and a row of digits, read as the word of that sign that is
nearest to the value of the digits. -/
def TextReadsAs (s : List Char) (x : Binary64) : Prop :=
  ∃ whole fraction, Digits whole ∧ Digits fraction ∧
    s = signText x.negative ++ (whole ++ '.' :: fraction) ∧ (ofParts whole fraction).ReadsAs x

theorem exists_parts_of_readUnsigned? {s : List Char} {d : Decimal} (h : readUnsigned? s = some d) :
    ∃ whole fraction, Digits whole ∧ Digits fraction ∧ s = whole ++ '.' :: fraction ∧
      d = ofParts whole fraction := by
  unfold readUnsigned? at h
  split at h
  case h_1 fraction hdrop =>
    split at h
    case isTrue hdigits =>
      obtain ⟨hw, hf, hall⟩ := hdigits
      refine ⟨s.takeWhile isDigit, fraction, ⟨hw, List.all_eq_true.mp List.all_takeWhile⟩,
        ⟨hf, List.all_eq_true.mp hall⟩, ?_, (Option.some.inj h).symm⟩
      rw [← hdrop, List.takeWhile_append_dropWhile]
    case isFalse => cases h
  case h_2 => cases h

theorem negative_toBinary64 (negative : Bool) (d : Decimal) :
    (toBinary64 negative d).negative = negative := Binary64.negative_ofPlace negative _

/-- A text without its sign is read as the magnitude of the word. -/
theorem textReadsAs_of_readUnsigned? {negative : Bool} {s : List Char} {x : Binary64}
    (h : (readUnsigned? s).map (toBinary64 negative) = some x) :
    TextReadsAs (signText negative ++ s) x := by
  obtain ⟨d, hd, rfl⟩ := Option.map_eq_some_iff.mp h
  obtain ⟨whole, fraction, hw, hf, rfl, rfl⟩ := exists_parts_of_readUnsigned? hd
  refine ⟨whole, fraction, hw, hf, ?_, ?_⟩
  · rw [negative_toBinary64]
  · rw [readsAs_iff, negative_toBinary64]

/-- A literal is read as the word of its sign that is nearest to the value of its digits, and no other
text is read. -/
theorem readLiteral?_eq_some_iff {s : List Char} {x : Binary64} :
    readLiteral? s = some x ↔ TextReadsAs s x := by
  constructor
  · intro h
    unfold readLiteral? at h
    split at h
    case h_1 rest => exact textReadsAs_of_readUnsigned? h
    case h_2 =>
      have hunsigned : TextReadsAs (signText false ++ s) x := textReadsAs_of_readUnsigned? h
      exact hunsigned
  · rintro ⟨whole, fraction, hw, hf, rfl, hreads⟩
    rw [readsAs_iff] at hreads
    cases hn : x.negative with
    | true =>
        rw [hn] at hreads
        rw [signText, if_pos rfl, List.singleton_append,
          readLiteral?_of_minus (readUnsigned?_of_digits hw hf), hreads]
    | false =>
        rw [hn] at hreads
        rw [signText, if_neg Bool.false_ne_true, List.nil_append, readLiteral?_of_digits hw hf, hreads]

/-! ## Whole numbers -/

/-- A decimal without places behind the point is a whole number, and so is the word that it is read as. -/
theorem ReadsAs.whole {x : Binary64} {d : Decimal} (h : d.ReadsAs x) (he : d.exponent ≥ 0) :
    x.Whole := by
  have hplaces : (-d.exponent).toNat = 0 := by omega
  have hvalue : d.value = ((d.numerator : Nat) : ℚ) := by
    rw [value, denominator, hplaces, Nat.pow_zero, Nat.cast_one, div_one]
  rw [ReadsAs, hvalue] at h
  exact h.whole

/-- The shortest decimal for a whole number has no places behind the point: it has no more digits than
the number, so with a place it would lie below the power of ten where the number begins. -/
theorem IsShortest.exponent_nonneg {x : Binary64} {d : Decimal} (h : IsShortest x d)
    (hx : x.isFinite) (hpos : x.magnitude ≠ 0) (hwhole : x.Whole) : d.exponent ≥ 0 := by
  obtain ⟨n, hn⟩ := hwhole
  have hzero : n ≠ 0 := by
    rintro rfl
    exact hpos (hn.trans Nat.cast_zero)
  have hvalue : value ⟨n, 0⟩ = x.magnitude := by rw [value_eq, zpow_zero, mul_one, hn]
  have hself : ReadsAs ⟨n, 0⟩ x := by
    rw [ReadsAs, hvalue]
    exact Binary64.nearest_magnitude hx
  have hfewest : width d.digits ≤ width n := h.fewest _ hself
  have hwidth := width_pos n
  apply Int.not_lt.mp
  intro hneg
  -- the power of ten where the number begins lies between the decimal and the number
  have hpower : value ⟨1, (width n : Int) - 1⟩ = 10 ^ ((width n : Int) - 1) := by
    rw [value_eq, Nat.cast_one, one_mul]
  have hbelow : d.value < value ⟨1, (width n : Int) - 1⟩ := by
    rw [hpower]
    exact lt_of_lt_of_le (value_lt_pow d.digits d.exponent)
      (zpow_le_zpow_right₀ (by norm_num) (by omega))
  have habove : value ⟨1, (width n : Int) - 1⟩ ≤ x.magnitude := by
    have hleading := pow_le_value hzero 0
    rwa [Int.zero_add, hvalue, ← hpower] at hleading
  have hreads : ReadsAs ⟨1, (width n : Int) - 1⟩ x := h.readsAs.inward hx (Or.inr ⟨hbelow.le, habove⟩)
  have hone : width 1 = width d.digits :=
    Nat.le_antisymm (width_pos d.digits) (h.fewest _ hreads)
  have hnearest := h.nearest _ hreads hone
  rw [abs_of_nonpos (by linarith), abs_of_nonpos (by linarith)] at hnearest
  linarith

/-- The decimal that is written for a word has places behind the point exactly where the word is no whole
number. -/
theorem exponent_shortest_nonneg_iff {x : Binary64} (hx : x.isFinite) (tie : Tie) :
    (shortest tie x).exponent ≥ 0 ↔ x.Whole := by
  have h := isShortest_shortest hx tie
  constructor
  · exact h.readsAs.whole
  · intro hwhole
    by_cases hzero : x.units = 0
    · rw [shortest, if_pos hzero]
    · apply h.exponent_nonneg hx ?_ hwhole
      have hpos := (pow_leadingOf hzero).1
      exact (lt_of_lt_of_le (zpow_pos ten_pos _) hpos).ne'

end Decimal

/-! ## How a word is shown -/

open Decimal

/-- How a word is shown in plain notation: the shortest decimal, without an exponent, and a word where it
is not finite. -/
def Binary64.shown (x : Binary64) : String :=
  if x.isFinite then String.ofList (signText x.negative ++ plainText (shortest .away x))
  else if x.isNaN then "NaN"
  else if x.negative then "-inf"
  else "inf"

namespace Angle

variable {x : Binary64}

theorem toList_shown (h : x.isFinite) :
    x.shown.toList = signText x.negative ++ plainText (shortest .away x) := by
  rw [Binary64.shown, if_pos h, String.toList_ofList]

theorem toList_radiansText_eq (h : x.isFinite) :
    (radiansText x).toList = signText x.negative ++ positionalText (shortest .away x) := by
  rw [toList_radiansText h, Layout.text, signText]
  cases x.negative <;> rfl

/-- What is not finite is shown without a point. -/
theorem radiansText_of_not_finite (h : x.isFinite = false) :
    radiansText x = x.shown ∧ '.' ∉ x.shown.toList := by
  have hif : ¬ x.isFinite = true := by
    rw [h]
    exact Bool.false_ne_true
  rw [radiansText, Binary64.shown, if_neg hif, if_neg hif]
  refine ⟨rfl, ?_⟩
  split
  · decide
  · split <;> decide

/-- Where a finite word is shown with a point: where it is no whole number. -/
theorem point_mem_shown (h : x.isFinite) : '.' ∈ x.shown.toList ↔ ¬ x.Whole := by
  have hsign : '.' ∉ signText x.negative := by cases x.negative <;> decide
  rw [toList_shown h, List.mem_append, or_iff_right hsign, point_mem_plainText,
    exponent_shortest_nonneg_iff h]

/-- The text of an angle is the angle as it is shown, with a point and a zero behind it where it is finite
and shown without a point. -/
theorem radiansText_eq (x : Binary64) :
    radiansText x =
      if '.' ∈ x.shown.toList ∨ x.isFinite = false then x.shown else x.shown ++ ".0" := by
  cases h : x.isFinite with
  | false => rw [if_pos (Or.inr rfl), (radiansText_of_not_finite h).1]
  | true =>
      have hpoint : '.' ∈ x.shown.toList ∨ true = false ↔ ¬ (shortest .away x).exponent ≥ 0 := by
        rw [point_mem_shown h, exponent_shortest_nonneg_iff h, or_iff_left Bool.true_eq_false.mp]
      apply String.toList_inj.mp
      rw [toList_radiansText_eq h, positionalText_eq]
      by_cases he : (shortest .away x).exponent ≥ 0
      · rw [if_pos he, if_neg (hpoint.not.mpr (not_not.mpr he)), String.toList_append, toList_shown h,
          List.append_assoc]
        rfl
      · rw [if_neg he, if_pos (hpoint.mpr he), toList_shown h]

/-- The text of a finite angle is a literal without an exponent, and read as a literal it is that angle,
sign included, and no other word; so no two finite angles have one text. It is the angle as it is shown,
which is a shortest decimal in plain notation, with a point and a zero added where there is no point, and
that is where the angle is a whole number. What is not finite stays as it is shown, without a point. -/
theorem radiansText_answer (x : Binary64) :
    (x.isFinite →
      (∃ whole fraction, Digits whole ∧ Digits fraction ∧
        (radiansText x).toList = signText x.negative ++ (whole ++ '.' :: fraction)) ∧
      (∀ y, TextReadsAs (radiansText x).toList y ↔ y = x) ∧
      (∀ y : Binary64, y.isFinite → radiansText y = radiansText x → y = x) ∧
      (∃ d, IsShortest x d ∧ x.shown.toList = signText x.negative ++ plainText d) ∧
      ('.' ∉ x.shown.toList ↔ x.Whole)) ∧
    (x.isFinite = false → radiansText x = x.shown ∧ '.' ∉ x.shown.toList) ∧
    radiansText x =
      if '.' ∈ x.shown.toList ∨ x.isFinite = false then x.shown else x.shown ++ ".0" := by
  refine ⟨?_, radiansText_of_not_finite, radiansText_eq x⟩
  intro h
  have hread := readLiteral?_radiansText h
  obtain ⟨whole, fraction, hw, hf, htext, -⟩ := readLiteral?_eq_some_iff.mp hread
  refine ⟨⟨whole, fraction, hw, hf, htext⟩, ?_, fun y hy => radiansText_inj hy h, ?_, ?_⟩
  · intro y
    rw [← readLiteral?_eq_some_iff, hread, Option.some.injEq]
    exact eq_comm
  · exact ⟨_, isShortest_shortest h .away, toList_shown h⟩
  · rw [point_mem_shown h, not_not]

/-- Control: the text of the least word below zero has three hundred and twenty-three zeros behind the
point, and it is read as that word and no other. -/
theorem radiansText_answer_least :
    (⟨0x8000000000000001⟩ : Binary64).isFinite ∧
      radiansText ⟨0x8000000000000001⟩ = "-0." ++ String.ofList (List.replicate 323 '0') ++ "5" ∧
      ∀ y, TextReadsAs (radiansText ⟨0x8000000000000001⟩).toList y ↔ y = ⟨0x8000000000000001⟩ := by
  obtain ⟨-, hread, -⟩ := (radiansText_answer ⟨0x8000000000000001⟩).1 (by decide)
  exact ⟨by decide, by decide +kernel, hread⟩

/-- The negative zero keeps its sign, and the word of `10 ^ 22` gets a point. -/
example : radiansText (Binary64.zero true) = "-0.0" ∧
    radiansText ⟨0x4480F0CF064DD592⟩ = "10000000000000000000000.0" := by decide +kernel

end Angle

end QCircuit
