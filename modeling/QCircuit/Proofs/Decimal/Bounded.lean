import Mathlib.Data.Nat.Digits.Defs
import QCircuit.Proofs.Decimal.Numeral
import QCircuit.Proofs.Decimal.ReadBack

/-!
# Decimals beyond the words

A decimal that is not zero lies between two powers of ten, which its digits and its exponent tell
(`Decimal.pow_width_le`, `Decimal.lt_pow_width`). From `10 ^ 400` on it is rounded to infinity, and below
`10 ^ (-400)` to zero. So reading a decimal without forming huge powers of ten gives the nearest word all
the same (`Decimal.toBinary64Bounded_eq`).
-/

set_option autoImplicit false

namespace QCircuit.Decimal

/-! ## The width of a number -/

theorem width_pos (n : Nat) : 0 < width n := List.length_pos_iff.mpr (numeral_ne_nil n)

/-- A number has no more digits than it needs. -/
theorem pow_width_le {n : Nat} (h : n ≠ 0) : 10 ^ (width n - 1) ≤ n := by
  rcases Nat.eq_zero_or_pos (width n - 1) with hzero | hpos
  · rw [hzero]
    exact Nat.one_le_iff_ne_zero.mpr h
  · refine Nat.le_of_not_lt fun hlt => ?_
    have hshort : width n ≤ width n - 1 := Nat.toDigits_length 10 n _ hpos hlt
    omega

/-- A number has as many digits as it needs: dropping its last digit leaves one digit less. -/
theorem lt_pow_width (n : Nat) : n < 10 ^ width n := by
  induction n using Nat.strongRecOn with
  | ind n ih =>
      by_cases hlt : n < 10
      · exact Nat.lt_of_lt_of_le hlt (Nat.le_self_pow (Nat.ne_of_gt (width_pos n)) 10)
      · have hwidth : width n = width (n / 10) + 1 := by
          rw [width, numeral, Nat.toDigits_of_base_le (by decide) (by omega), List.length_append]
          rfl
        have hrest := ih (n / 10) (by omega)
        rw [hwidth, Nat.pow_succ]
        omega

/-! ## Out of range -/

variable {d : Decimal}

theorem toBinary64_of_digits_zero (negative : Bool) (h : d.digits = 0) :
    toBinary64 negative d = Binary64.zero negative := by
  have hplace : Binary64.placeOfRatio 0 d.denominator = 0 := by
    simp [Binary64.placeOfRatio, Binary64.shiftOf, Binary64.roundHalfEven, d.denominator_pos]
  rw [toBinary64, numerator, h, Nat.zero_mul, Binary64.ofRatio, hplace]
  rfl

/-- Three binary places make less than a decimal one. -/
theorem two_pow_le_ten_pow {k places : Nat} (h : k ≤ 3 * places) : 2 ^ k ≤ 10 ^ places :=
  calc 2 ^ k ≤ 2 ^ (3 * places) := Nat.pow_le_pow_right (by decide) h
    _ = (2 ^ 3) ^ places := Nat.pow_mul ..
    _ ≤ 10 ^ places := Nat.pow_le_pow_left (by decide) _

/-- Up to half of the least unit a quotient is rounded to zero. -/
theorem placeOfRatio_of_small {num den : Nat} (hden : 0 < den)
    (h : num * (2 * Binary64.unitsPerOne) ≤ den) : Binary64.placeOfRatio num den = 0 := by
  rw [Nat.mul_left_comm] at h
  have hlt : num * Binary64.unitsPerOne < den := by omega
  have hshift : Binary64.shiftOf num den = 0 := by
    rw [Binary64.shiftOf, Nat.div_eq_of_lt hlt]
    rfl
  have hround : Binary64.roundHalfEven (num * Binary64.unitsPerOne) den = 0 := by
    simp only [Binary64.roundHalfEven, Nat.div_eq_of_lt hlt, Nat.mod_eq_of_lt hlt]
    split
    · rfl
    · rw [if_neg (by omega)]
  simp only [Binary64.placeOfRatio, hshift, Nat.pow_zero, Nat.mul_one, hround, Nat.zero_mul]

theorem toBinary64_of_small (negative : Bool) (h : d.exponent + width d.digits < -400) :
    toBinary64 negative d = Binary64.zero negative := by
  -- the digits lie below the power of ten of their count, so this many places are taken away
  obtain ⟨more, hmore⟩ : ∃ more, (-d.exponent).toNat = width d.digits + (358 + (1 + more)) :=
    ⟨(-d.exponent).toNat - (width d.digits + 359), by omega⟩
  have hexp : d.exponent.toNat = 0 := by omega
  have hunits : Binary64.unitsPerOne ≤ 10 ^ 358 := by
    rw [Binary64.unitsPerOne]
    exact two_pow_le_ten_pow (by decide)
  have hsmall : d.numerator * (2 * Binary64.unitsPerOne) ≤ d.denominator := by
    rw [numerator, denominator, hexp, hmore, Nat.pow_zero, Nat.mul_one, Nat.mul_comm 2, Nat.pow_add,
      Nat.pow_add, Nat.pow_add]
    apply Nat.mul_le_mul (Nat.le_of_lt (lt_pow_width d.digits))
    apply Nat.mul_le_mul hunits
    exact Nat.le_trans (show 2 ≤ 10 ^ 1 by decide) (Nat.le_mul_of_pos_right _ (Nat.pow_pos (by decide)))
  rw [toBinary64, Binary64.ofRatio, placeOfRatio_of_small d.denominator_pos hsmall, Binary64.zero]

/-- Infinity stands where the next word would: at a power of two. -/
theorem units_infinity : (Binary64.infinity false).units = 2 ^ 1024 * Binary64.unitsPerOne := by
  have hexponent : (Binary64.infinity false).exponentField = 2046 + 1 := rfl
  have hfraction : (Binary64.infinity false).fractionField = 0 := rfl
  have hplaces : 52 + 2046 = 1024 + 1074 := rfl
  rw [Binary64.units_of_exponentField_succ hexponent, hfraction, Binary64.unitsPerOne, Nat.add_zero,
    ← Nat.pow_add, ← Nat.pow_add, hplaces]

/-- From this power of two on a quotient is rounded to infinity. -/
theorem ofRatio_of_great (negative : Bool) {num den : Nat} (hden : 0 < den)
    (h : 2 ^ 1024 * den ≤ num) : Binary64.ofRatio negative num den = Binary64.infinity negative := by
  have hplace : (Binary64.infinity false).place ≤ Binary64.placeOfRatio num den := by
    rw [← Binary64.placeOfRatio_units]
    refine Binary64.placeOfRatio_mono Binary64.unitsPerOne_pos hden ?_
    rw [units_infinity, Nat.mul_right_comm]
    exact Nat.mul_le_mul_right _ h
  rw [Binary64.infinity, Binary64.place_ofPlace, Nat.min_self] at hplace
  rw [Binary64.ofRatio, Binary64.infinity, Binary64.ofPlace, Binary64.ofPlace, Nat.min_self,
    Nat.min_eq_right hplace]

theorem toBinary64_of_great (negative : Bool) (hdigits : d.digits ≠ 0)
    (h : 400 < d.exponent + width d.digits) :
    toBinary64 negative d = Binary64.infinity negative := by
  have hwidth := width_pos d.digits
  -- the places that the exponent takes away leave four hundred of the digits
  have hplaces : 400 + (-d.exponent).toNat ≤ width d.digits - 1 + d.exponent.toNat := by omega
  have hgreat : 2 ^ 1024 * d.denominator ≤ d.numerator := by
    rw [numerator, denominator]
    calc 2 ^ 1024 * 10 ^ (-d.exponent).toNat ≤ 10 ^ 400 * 10 ^ (-d.exponent).toNat :=
          Nat.mul_le_mul_right _ (two_pow_le_ten_pow (by decide))
      _ = 10 ^ (400 + (-d.exponent).toNat) := by rw [Nat.pow_add]
      _ ≤ 10 ^ (width d.digits - 1 + d.exponent.toNat) := Nat.pow_le_pow_right (by decide) hplaces
      _ = 10 ^ (width d.digits - 1) * 10 ^ d.exponent.toNat := Nat.pow_add ..
      _ ≤ d.digits * 10 ^ d.exponent.toNat := Nat.mul_le_mul_right _ (pow_width_le hdigits)
  exact ofRatio_of_great negative d.denominator_pos hgreat

/-- Without forming huge powers of ten a decimal is read as the nearest word all the same. -/
theorem toBinary64Bounded_eq (negative : Bool) (d : Decimal) :
    toBinary64Bounded negative d = toBinary64 negative d := by
  unfold toBinary64Bounded
  dsimp only
  split
  · next hsmall =>
      simp only [Bool.or_eq_true, decide_eq_true_eq] at hsmall
      rcases hsmall with hdigits | hplaces
      · exact (toBinary64_of_digits_zero negative hdigits).symm
      · exact (toBinary64_of_small negative hplaces).symm
  · next hsmall =>
      simp only [Bool.or_eq_true, decide_eq_true_eq, not_or] at hsmall
      split
      · next hgreat => exact (toBinary64_of_great negative hsmall.1 hgreat).symm
      · rfl

end QCircuit.Decimal
