import Mathlib.Algebra.Order.Field.Basic
import Mathlib.Algebra.Order.Field.Rat
import Mathlib.Order.Monotone.Basic
import Mathlib.Tactic.Linarith
import QCircuit.Proofs.Binary64.Order

/-!
# Rounding to the nearest word

A magnitude is rounded to the word that is nearest to it, and of two words that are equally near to the
one with the even fraction (`Binary64.Nearest`). Infinity takes part at the power of two where the next
word would stand.

The place that a quotient is rounded to is the nearer one of the two consecutive places around it
(`Binary64.exists_placeOfRatio_between`), and every other word lies further out. So the rounded word is the
nearest one (`Binary64.nearest_ofRatio`), and no other word of its sign is (`Binary64.nearest_iff`).

What is rounded to one word has no hole (`Binary64.Nearest.of_le_of_le`). The units at consecutive places
(`Binary64.unitsAt`) differ by no less than they are over `2 ^ 53`, so what is close enough to a word is rounded
to it (`Binary64.Nearest.of_close`), and a word that a whole number is rounded to is a whole number itself
(`Binary64.Nearest.whole`).
-/

set_option autoImplicit false

namespace QCircuit.Binary64

/-- The magnitude of a word. Infinity stands where the next word would. -/
def magnitude (x : Binary64) : ℚ := x.units / unitsPerOne

/-- A word that a magnitude is rounded to: no word is nearer, and one of another magnitude is as near
only where the fraction of this one is even. -/
structure Nearest (v : ℚ) (x : Binary64) : Prop where
  notNaN : x.isNaN = false
  least : ∀ y : Binary64, y.isNaN = false → |v - x.magnitude| ≤ |v - y.magnitude|
  even : ∀ y : Binary64, y.isNaN = false → y.magnitude ≠ x.magnitude →
    |v - y.magnitude| = |v - x.magnitude| → x.fractionField % 2 = 0

/-! ## Consecutive places -/

/-- The magnitude at a place, in units of `2 ^ (-1074)`. -/
def unitsAt (p : Nat) : Nat :=
  if p / 2 ^ 52 = 0 then p % 2 ^ 52 else (2 ^ 52 + p % 2 ^ 52) * 2 ^ (p / 2 ^ 52 - 1)

theorem units_eq_unitsAt (x : Binary64) : x.units = unitsAt x.place := by
  have hf := fractionField_lt x
  have hexponent : x.place / 2 ^ 52 = x.exponentField := by
    unfold place
    omega
  have hfraction : x.place % 2 ^ 52 = x.fractionField := by
    unfold place
    omega
  rw [unitsAt, hexponent, hfraction, units]

/-- Where the unit lies `e` places above the least one, the units are a number of fifty-three bits. -/
theorem unitsAt_add {e n : Nat} (hn : n < 2 ^ 53) (h : e = 0 ∨ 2 ^ 52 ≤ n) :
    unitsAt (e * 2 ^ 52 + n) = n * 2 ^ e := by
  by_cases hlow : n < 2 ^ 52
  · obtain rfl : e = 0 := by omega
    rw [unitsAt, if_pos (by omega), Nat.zero_mul, Nat.zero_add, Nat.mod_eq_of_lt hlow, Nat.pow_zero,
      Nat.mul_one]
  · have hexponent : (e * 2 ^ 52 + n) / 2 ^ 52 = e + 1 := by omega
    have hfraction : 2 ^ 52 + (e * 2 ^ 52 + n) % 2 ^ 52 = n := by omega
    rw [unitsAt, hexponent, hfraction, if_neg (Nat.succ_ne_zero e), Nat.add_sub_cancel]

/-- Every place has that form. -/
theorem exists_eq_add (p : Nat) :
    ∃ e n, p = e * 2 ^ 52 + n ∧ n < 2 ^ 53 ∧ (e = 0 ∨ 2 ^ 52 ≤ n) := by
  by_cases hlow : p < 2 ^ 52
  · exact ⟨0, p, by omega, by omega, Or.inl rfl⟩
  · exact ⟨p / 2 ^ 52 - 1, 2 ^ 52 + p % 2 ^ 52, by omega, by omega, Or.inr (by omega)⟩

/-- The next place lies one unit further out. -/
theorem unitsAt_add_succ {e n : Nat} (hn : n < 2 ^ 53) (h : e = 0 ∨ 2 ^ 52 ≤ n) :
    unitsAt (e * 2 ^ 52 + n + 1) = (n + 1) * 2 ^ e := by
  by_cases hlast : n + 1 < 2 ^ 53
  · rw [Nat.add_assoc, unitsAt_add hlast (by omega)]
  · -- past the last number of fifty-three bits the unit doubles
    obtain rfl : n = 2 ^ 53 - 1 := by omega
    have hcarry : e * 2 ^ 52 + (2 ^ 53 - 1) + 1 = (e + 1) * 2 ^ 52 + 2 ^ 52 := by omega
    rw [hcarry, unitsAt_add (by omega) (Or.inr (Nat.le_refl _)), Nat.pow_succ]
    omega

theorem unitsAt_strictMono : StrictMono unitsAt := by
  apply strictMono_nat_of_lt_succ
  intro p
  obtain ⟨e, n, rfl, hn, h⟩ := exists_eq_add p
  rw [unitsAt_add hn h, unitsAt_add_succ hn h]
  exact Nat.mul_lt_mul_of_pos_right (Nat.lt_succ_self n) (Nat.two_pow_pos e)

/-- The gap behind a place is more than the units at the place over `2 ^ 53`. -/
theorem unitsAt_succ_le (p : Nat) : unitsAt (p + 1) ≤ 2 ^ 53 * (unitsAt (p + 1) - unitsAt p) := by
  obtain ⟨e, n, rfl, hn, h⟩ := exists_eq_add p
  have hgap : (n + 1) * 2 ^ e - n * 2 ^ e = 2 ^ e := by
    rw [Nat.succ_mul, Nat.add_sub_cancel_left]
  rw [unitsAt_add hn h, unitsAt_add_succ hn h, hgap]
  exact Nat.mul_le_mul_right _ hn

/-! ## The two places around a quotient -/

/-- A quotient lies between two consecutive places, and it is rounded to the nearer one of the two, or to
the even one where both are equally near. -/
theorem exists_placeOfRatio_between (num : Nat) {den : Nat} (hden : 0 < den) :
    ∃ p, unitsAt p * den ≤ num * unitsPerOne ∧ num * unitsPerOne < unitsAt (p + 1) * den ∧
      (2 * (num * unitsPerOne) < (unitsAt p + unitsAt (p + 1)) * den → placeOfRatio num den = p) ∧
      ((unitsAt p + unitsAt (p + 1)) * den < 2 * (num * unitsPerOne) →
        placeOfRatio num den = p + 1) ∧
      (2 * (num * unitsPerOne) = (unitsAt p + unitsAt (p + 1)) * den →
        placeOfRatio num den = p + p % 2) := by
  have hplace : placeOfRatio num den = shiftOf num den * 2 ^ 52 +
      roundHalfEven (num * unitsPerOne) (den * 2 ^ shiftOf num den) := rfl
  have hlt := quotient_lt num den
  have hle := le_quotient num den
  generalize shiftOf num den = e at hplace hlt hle
  have hunit : 0 < den * 2 ^ e := Nat.mul_pos hden (Nat.two_pow_pos e)
  have hdiv := Nat.div_add_mod (num * unitsPerOne) (den * 2 ^ e)
  have hmod := Nat.mod_lt (num * unitsPerOne) hunit
  unfold roundHalfEven at hplace
  generalize num * unitsPerOne / (den * 2 ^ e) = n at hplace hlt hle hdiv
  generalize num * unitsPerOne % (den * 2 ^ e) = rest at hplace hdiv hmod
  -- the two places as multiples of the unit, over the divisor of the quotient
  have hform : e = 0 ∨ 2 ^ 52 ≤ n := (Nat.eq_zero_or_pos e).imp_right hle
  have hbelow : unitsAt (e * 2 ^ 52 + n) * den = den * 2 ^ e * n := by
    rw [unitsAt_add hlt hform, Nat.mul_comm n, Nat.mul_comm _ den, Nat.mul_assoc]
  have habove : unitsAt (e * 2 ^ 52 + n + 1) * den = den * 2 ^ e * n + den * 2 ^ e := by
    rw [unitsAt_add_succ hlt hform, Nat.mul_comm _ (2 ^ e), Nat.mul_comm _ den, ← Nat.mul_assoc,
      Nat.mul_succ]
  refine ⟨e * 2 ^ 52 + n, ?_⟩
  rw [Nat.add_mul, hbelow, habove, hplace, ← hdiv]
  generalize den * 2 ^ e * n = low
  generalize den * 2 ^ e = unit at hmod ⊢
  dsimp only
  refine ⟨by omega, by omega, fun h => ?_, fun h => ?_, fun h => ?_⟩
  · rw [if_pos (by omega)]
  · rw [if_neg (by omega), if_pos (by omega), Nat.add_assoc]
  · rw [if_neg (by omega), if_neg (by omega)]
    omega

/-! ## The nearest word -/

/-- The magnitude at a place. -/
def magnitudeAt (p : Nat) : ℚ := unitsAt p / unitsPerOne

theorem magnitude_eq_magnitudeAt (x : Binary64) : x.magnitude = magnitudeAt x.place := by
  rw [magnitude, magnitudeAt, units_eq_unitsAt]

theorem unitsPerOne_rat_pos : (0 : ℚ) < unitsPerOne := Nat.cast_pos.mpr unitsPerOne_pos

theorem magnitudeAt_strictMono : StrictMono magnitudeAt := by
  intro p q h
  have hunits : (unitsAt p : ℚ) < unitsAt q := Nat.cast_lt.mpr (unitsAt_strictMono h)
  exact div_lt_div_of_pos_right hunits unitsPerOne_rat_pos

/-- The words other than NaN are those up to infinity. -/
theorem isNaN_eq_false_iff (x : Binary64) : x.isNaN = false ↔ x.place ≤ 2047 * 2 ^ 52 := by
  have hf := fractionField_lt x
  have he : x.exponentField < 2 ^ 11 := Nat.mod_lt _ (Nat.two_pow_pos 11)
  simp only [isNaN, place, Bool.and_eq_false_iff, decide_eq_false_iff_not, Decidable.not_not]
  omega

theorem even_place_iff (x : Binary64) : x.place % 2 = 0 ↔ x.fractionField % 2 = 0 := by
  unfold place
  omega

/-- The two places around a quotient, as magnitudes. -/
theorem exists_between (num : Nat) {den : Nat} (hden : 0 < den) :
    ∃ p, magnitudeAt p ≤ (num / den : ℚ) ∧ (num / den : ℚ) < magnitudeAt (p + 1) ∧
      (2 * (num / den : ℚ) < magnitudeAt p + magnitudeAt (p + 1) → placeOfRatio num den = p) ∧
      (magnitudeAt p + magnitudeAt (p + 1) < 2 * (num / den : ℚ) → placeOfRatio num den = p + 1) ∧
      (2 * (num / den : ℚ) = magnitudeAt p + magnitudeAt (p + 1) →
        placeOfRatio num den = p + p % 2) := by
  obtain ⟨p, hlow, hhigh, hdown, hup, htie⟩ := exists_placeOfRatio_between num hden
  have hd : (0 : ℚ) < den := Nat.cast_pos.mpr hden
  have hu := unitsPerOne_rat_pos
  -- in units the quotient is compared by cross-multiplication
  refine ⟨p, ?_, ?_, fun h => hdown ?_, fun h => hup ?_, fun h => htie ?_⟩
  · rw [magnitudeAt, div_le_div_iff₀ hu hd]
    exact_mod_cast hlow
  · rw [magnitudeAt, div_lt_div_iff₀ hd hu]
    exact_mod_cast hhigh
  · rw [magnitudeAt, magnitudeAt, ← add_div, ← mul_div_assoc, div_lt_div_iff₀ hd hu] at h
    rw [← Nat.mul_assoc]
    exact_mod_cast h
  · rw [magnitudeAt, magnitudeAt, ← add_div, ← mul_div_assoc, div_lt_div_iff₀ hu hd] at h
    rw [← Nat.mul_assoc]
    exact_mod_cast h
  · rw [magnitudeAt, magnitudeAt, ← add_div, ← mul_div_assoc, div_eq_div_iff hd.ne' hu.ne'] at h
    rw [← Nat.mul_assoc]
    exact_mod_cast h

variable {v low high : ℚ} {x : Binary64}

/-- Where no word lies strictly between two bounds, the nearer bound is the nearest word. -/
theorem Nearest.of_between (hx : x.isNaN = false) (hlow : low ≤ v) (hhigh : v < high)
    (houtside : ∀ y : Binary64, y.magnitude ≤ low ∨ high ≤ y.magnitude)
    (hnear : x.magnitude = low ∧ v - low ≤ high - v ∨ x.magnitude = high ∧ high - v ≤ v - low)
    (heven : v - low = high - v → x.fractionField % 2 = 0) : Nearest v x := by
  -- the word is no further than either bound
  have habs : |v - x.magnitude| ≤ v - low ∧ |v - x.magnitude| ≤ high - v := by
    rcases hnear with ⟨hm, hle⟩ | ⟨hm, hle⟩
    · rw [hm, abs_of_nonneg (by linarith)]
      exact ⟨le_refl _, hle⟩
    · rw [hm, abs_of_nonpos (by linarith), neg_sub]
      exact ⟨hle, le_refl _⟩
  refine ⟨hx, ?_, ?_⟩
  · intro y _
    rcases houtside y with hy | hy
    · exact le_trans habs.1 (le_trans (by linarith) (le_abs_self (v - y.magnitude)))
    · exact le_trans habs.2 (le_trans (by linarith) (neg_le_abs (v - y.magnitude)))
  · -- a word that is as near is the other bound, so both bounds are equally near
    intro y _ hne heq
    apply heven
    rcases houtside y with hy | hy
    · have hylow : y.magnitude = low := by
        rw [abs_of_nonneg (by linarith)] at heq
        linarith
      rcases hnear with ⟨hm, hle⟩ | ⟨hm, hle⟩
      · exact absurd (hylow.trans hm.symm) hne
      · rw [hylow, hm, abs_of_nonneg (by linarith), abs_of_nonpos (by linarith)] at heq
        linarith
    · have hyhigh : y.magnitude = high := by
        rw [abs_of_nonpos (by linarith)] at heq
        linarith
      rcases hnear with ⟨hm, hle⟩ | ⟨hm, hle⟩
      · rw [hyhigh, hm, abs_of_nonpos (by linarith), abs_of_nonneg (by linarith)] at heq
        linarith
      · exact absurd (hyhigh.trans hm.symm) hne

/-- Past all words the greatest one is the nearest. -/
theorem Nearest.of_past (hx : x.isNaN = false) (hv : x.magnitude ≤ v)
    (hgreatest : ∀ y : Binary64, y.isNaN = false → y.magnitude ≤ x.magnitude) : Nearest v x := by
  refine ⟨hx, ?_, ?_⟩
  · intro y hy
    have hle := hgreatest y hy
    rw [abs_of_nonneg (by linarith), abs_of_nonneg (by linarith)]
    linarith
  · intro y hy hne heq
    have hle := hgreatest y hy
    rw [abs_of_nonneg (by linarith), abs_of_nonneg (by linarith)] at heq
    exact absurd (by linarith) hne

/-- A quotient is rounded to the nearest word. -/
theorem nearest_ofRatio (negative : Bool) (num : Nat) {den : Nat} (hden : 0 < den) :
    Nearest (num / den : ℚ) (ofRatio negative num den) := by
  obtain ⟨p, hlow, hhigh, hdown, hup, htie⟩ := exists_between num hden
  generalize (num / den : ℚ) = v at *
  have hplace : (ofRatio negative num den).place = min (placeOfRatio num den) (2047 * 2 ^ 52) :=
    place_ofPlace negative _
  generalize ofRatio negative num den = x at hplace ⊢
  have hmono := magnitudeAt_strictMono.monotone
  have hnotNaN : x.isNaN = false := by
    rw [isNaN_eq_false_iff, hplace]
    exact Nat.min_le_right _ _
  -- the place is the nearer one of the two, and the even one when they are equally near
  have hround : placeOfRatio num den = p ∧ v - magnitudeAt p ≤ magnitudeAt (p + 1) - v ∨
      placeOfRatio num den = p + 1 ∧ magnitudeAt (p + 1) - v ≤ v - magnitudeAt p := by
    rcases lt_trichotomy (2 * v) (magnitudeAt p + magnitudeAt (p + 1)) with h | h | h
    · exact Or.inl ⟨hdown h, by linarith⟩
    · rcases Nat.mod_two_eq_zero_or_one p with hp | hp
      · exact Or.inl ⟨by rw [htie h, hp, Nat.add_zero], by linarith⟩
      · exact Or.inr ⟨by rw [htie h, hp], by linarith⟩
    · exact Or.inr ⟨hup h, by linarith⟩
  by_cases hp : p < 2047 * 2 ^ 52
  · -- both places are words, and no other word lies between them
    have hword : x.place = placeOfRatio num den := by omega
    apply Nearest.of_between hnotNaN hlow hhigh
    · intro y
      rw [magnitude_eq_magnitudeAt]
      exact (Nat.lt_or_ge p y.place).symm.imp (fun h => hmono h) fun h => hmono h
    · rw [magnitude_eq_magnitudeAt, hword]
      exact hround.imp (fun h => ⟨congrArg magnitudeAt h.1, h.2⟩) fun h =>
        ⟨congrArg magnitudeAt h.1, h.2⟩
    · intro h
      rw [← even_place_iff, hword, htie (by linarith)]
      omega
  · -- the quotient lies past the last word that is a number
    have hword : x.place = 2047 * 2 ^ 52 := by omega
    apply Nearest.of_past hnotNaN
    · rw [magnitude_eq_magnitudeAt, hword]
      exact le_trans (hmono (by omega)) hlow
    · intro y hy
      rw [magnitude_eq_magnitudeAt, magnitude_eq_magnitudeAt, hword]
      exact hmono ((isNaN_eq_false_iff y).mp hy)

/-- Two nearest words have one magnitude: otherwise they are equally near on either side, both have an
even fraction, and the place between them is nearer. -/
theorem Nearest.place_le {y : Binary64} (hx : Nearest v x) (hy : Nearest v y) :
    y.place ≤ x.place := by
  apply Nat.le_of_not_lt
  intro hlt
  have hmagnitude (z : Binary64) := magnitude_eq_magnitudeAt z
  have hxy : x.magnitude < y.magnitude := by
    rw [hmagnitude, hmagnitude]
    exact magnitudeAt_strictMono hlt
  have heq : |v - y.magnitude| = |v - x.magnitude| :=
    le_antisymm (hy.least x hx.notNaN) (hx.least y hy.notNaN)
  have hxeven := (even_place_iff x).mpr (hx.even y hy.notNaN hxy.ne' heq)
  have hyeven := (even_place_iff y).mpr (hy.even x hx.notNaN hxy.ne heq.symm)
  -- the place behind the lower word is not that of the upper one
  have hyplace := (isNaN_eq_false_iff y).mp hy.notNaN
  have hbetween : (ofPlace false (x.place + 1)).place = x.place + 1 := by
    rw [place_ofPlace]
    omega
  have hnotNaN : (ofPlace false (x.place + 1)).isNaN = false := by
    rw [isNaN_eq_false_iff, hbetween]
    omega
  have hlow : x.magnitude < (ofPlace false (x.place + 1)).magnitude := by
    rw [hmagnitude, hmagnitude, hbetween]
    exact magnitudeAt_strictMono (Nat.lt_succ_self _)
  have hhigh : (ofPlace false (x.place + 1)).magnitude < y.magnitude := by
    rw [hmagnitude, hmagnitude, hbetween]
    exact magnitudeAt_strictMono (by omega)
  have hleast := hx.least _ hnotNaN
  generalize (ofPlace false (x.place + 1)).magnitude = m at hlow hhigh hleast
  rcases abs_eq_abs.mp heq with hsame | hmiddle
  · linarith
  · rw [abs_of_pos (by linarith)] at hleast
    exact absurd hleast (not_le.mpr (abs_lt.mpr ⟨by linarith, by linarith⟩))

/-- A word is the nearest to a quotient exactly when the quotient is rounded to it. -/
theorem nearest_iff {num den : Nat} (hden : 0 < den) :
    Nearest (num / den : ℚ) x ↔ ofRatio x.negative num den = x := by
  have hrounded := nearest_ofRatio x.negative num hden
  constructor
  · intro hx
    apply eq_of_place (negative_ofPlace _ _)
    exact Nat.le_antisymm (hx.place_le hrounded) (hrounded.place_le hx)
  · intro h
    rwa [h] at hrounded

/-! ## What is rounded to one word -/

/-- A finite word is the nearest to its own magnitude. -/
theorem nearest_magnitude (h : x.isFinite) : Nearest x.magnitude x :=
  (nearest_iff unitsPerOne_pos).mpr (ofRatio_units h)

section Middle

variable {K : Type} [Field K] [LinearOrder K] [IsStrictOrderedRing K] {v m n : K}

/-- Of two magnitudes the lower one is no further away up to the middle. -/
theorem abs_sub_le_iff_of_lt (h : m < n) : |v - m| ≤ |v - n| ↔ 2 * v ≤ m + n := by
  rcases le_total v m with hm | hm
  · rw [abs_of_nonpos (by linarith), abs_of_nonpos (by linarith)]
    constructor <;> intro <;> linarith
  · rcases le_total v n with hn | hn
    · rw [abs_of_nonneg (by linarith), abs_of_nonpos (by linarith)]
      constructor <;> intro <;> linarith
    · rw [abs_of_nonneg (by linarith), abs_of_nonneg (by linarith)]
      constructor <;> intro <;> linarith

/-- Of two magnitudes the upper one is no further away from the middle on. -/
theorem abs_sub_le_iff_of_gt (h : n < m) : |v - m| ≤ |v - n| ↔ m + n ≤ 2 * v := by
  have hmirror := abs_sub_le_iff_of_lt (v := -v) (neg_lt_neg h)
  rw [neg_sub_neg, neg_sub_neg, abs_sub_comm m, abs_sub_comm n] at hmirror
  rw [hmirror]
  constructor <;> intro <;> linarith

end Middle

/-- What lies between two magnitudes that are rounded to a word is rounded to it as well. -/
theorem Nearest.of_le_of_le {a b : ℚ} (ha : Nearest a x) (hb : Nearest b x) (hav : a ≤ v)
    (hvb : v ≤ b) : Nearest v x := by
  refine ⟨ha.notNaN, ?_, ?_⟩
  · intro y hy
    -- a greater word is no nearer to the upper end, a smaller one no nearer to the lower end
    rcases lt_trichotomy x.magnitude y.magnitude with hlt | hsame | hgt
    · have hle := (abs_sub_le_iff_of_lt hlt).mp (hb.least y hy)
      exact (abs_sub_le_iff_of_lt hlt).mpr (by linarith)
    · rw [hsame]
    · have hle := (abs_sub_le_iff_of_gt hgt).mp (ha.least y hy)
      exact (abs_sub_le_iff_of_gt hgt).mpr (by linarith)
  · -- only at the outer end of the two can another word be as near
    intro y hy hne heq
    rcases lt_or_gt_of_ne hne with hgt | hlt
    · have hle := (abs_sub_le_iff_of_gt hgt).mp (ha.least y hy)
      have hmiddle := (abs_sub_le_iff_of_lt hgt).mp heq.le
      obtain rfl : a = v := by linarith
      exact ha.even y hy hne heq
    · have hle := (abs_sub_le_iff_of_lt hlt).mp (hb.least y hy)
      have hmiddle := (abs_sub_le_iff_of_gt hlt).mp heq.le
      obtain rfl : b = v := by linarith
      exact hb.even y hy hne heq

/-- The gap behind a place is at least the magnitude at the next place over `2 ^ 53`. -/
theorem magnitudeAt_succ_le (p : Nat) :
    magnitudeAt (p + 1) ≤ 2 ^ 53 * (magnitudeAt (p + 1) - magnitudeAt p) := by
  have hle : unitsAt p ≤ unitsAt (p + 1) := (unitsAt_strictMono (Nat.lt_succ_self p)).le
  have hunits : (unitsAt (p + 1) : ℚ) ≤ 2 ^ 53 * (unitsAt (p + 1) - unitsAt p) := by
    exact_mod_cast unitsAt_succ_le p
  rw [magnitudeAt, magnitudeAt, ← sub_div, ← mul_div_assoc]
  exact div_le_div_of_nonneg_right hunits unitsPerOne_rat_pos.le

/-- The gap between a word and any other is at least its magnitude over `2 ^ 53`. -/
theorem magnitude_le_gap {y : Binary64} (h : y.magnitude ≠ x.magnitude) :
    x.magnitude ≤ 2 ^ 53 * |x.magnitude - y.magnitude| := by
  have hmono := magnitudeAt_strictMono.monotone
  rw [magnitude_eq_magnitudeAt, magnitude_eq_magnitudeAt] at h ⊢
  rcases Nat.lt_or_gt_of_ne fun hplace => h (congrArg magnitudeAt hplace) with hlt | hgt
  · -- below the word lies the place before it, and no word is nearer
    obtain ⟨p, hp⟩ := Nat.exists_eq_succ_of_ne_zero (Nat.ne_zero_of_lt hlt)
    have hgap := magnitudeAt_succ_le p
    have hy : magnitudeAt y.place ≤ magnitudeAt p := hmono (by omega)
    have habs := le_abs_self (magnitudeAt (p + 1) - magnitudeAt y.place)
    rw [hp]
    linarith
  · have hgap := magnitudeAt_succ_le x.place
    have hx : magnitudeAt x.place ≤ magnitudeAt (x.place + 1) := hmono (Nat.le_succ _)
    have hy : magnitudeAt (x.place + 1) ≤ magnitudeAt y.place := hmono hgt
    have habs := neg_le_abs (magnitudeAt x.place - magnitudeAt y.place)
    linarith

/-- What is this close to the magnitude of a word is rounded to it. -/
theorem Nearest.of_close (hx : x.isNaN = false)
    (h : 2 ^ 54 * |v - x.magnitude| < x.magnitude) : Nearest v x := by
  have hcloser (y : Binary64) (hne : y.magnitude ≠ x.magnitude) :
      |v - x.magnitude| < |v - y.magnitude| := by
    have hgap := magnitude_le_gap hne
    have htriangle := abs_sub_le x.magnitude v y.magnitude
    rw [abs_sub_comm x.magnitude v] at htriangle
    linarith
  refine ⟨hx, fun y _ => ?_, fun y _ hne heq => absurd heq (hcloser y hne).ne'⟩
  by_cases hne : y.magnitude = x.magnitude
  · rw [hne]
  · exact (hcloser y hne).le

/-! ## Whole numbers -/

/-- The magnitude of a word is a whole number. -/
def Whole (x : Binary64) : Prop := ∃ n : Nat, x.magnitude = n

theorem magnitude_eq_natCast {n : Nat} (h : x.units = n * unitsPerOne) : x.magnitude = n := by
  rw [magnitude, h, Nat.cast_mul, mul_div_cancel_right₀ _ unitsPerOne_rat_pos.ne']

theorem unitsPerOne_eq {a b : Nat} (h : a + b = 1074) : unitsPerOne = 2 ^ a * 2 ^ b := by
  rw [unitsPerOne, ← h]
  exact Nat.pow_add 2 a b

/-- Up to fifty-three bits every whole number has a word. -/
theorem exists_magnitude_eq_natCast {n : Nat} (h : n < 2 ^ 53) :
    ∃ y : Binary64, y.isNaN = false ∧ y.magnitude = n := by
  rcases Nat.eq_zero_or_pos n with rfl | hpos
  · refine ⟨zero false, rfl, magnitude_eq_natCast ?_⟩
    rw [Nat.zero_mul]
    rfl
  · -- the number is moved up until its leading bit is the fifty-third
    have hlog : n.log2 < 53 := (Nat.log2_lt hpos.ne').mpr h
    obtain ⟨shift, hshift⟩ : ∃ shift, n.log2 + shift = 52 := ⟨52 - n.log2, by omega⟩
    have hlow : 2 ^ 52 ≤ n * 2 ^ shift := by
      rw [← hshift, Nat.pow_add]
      exact Nat.mul_le_mul_right _ (Nat.log2_self_le hpos.ne')
    have hhigh : n * 2 ^ shift < 2 ^ 53 := by
      have hbits : n.log2 + 1 + shift = 53 := by omega
      rw [← hbits, Nat.pow_add]
      exact Nat.mul_lt_mul_of_pos_right Nat.lt_log2_self (Nat.two_pow_pos shift)
    have hplace : (ofPlace false ((1074 - shift) * 2 ^ 52 + n * 2 ^ shift)).place =
        (1074 - shift) * 2 ^ 52 + n * 2 ^ shift := by
      rw [place_ofPlace]
      omega
    refine ⟨ofPlace false ((1074 - shift) * 2 ^ 52 + n * 2 ^ shift), ?_, magnitude_eq_natCast ?_⟩
    · rw [isNaN_eq_false_iff, hplace]
      omega
    · rw [units_eq_unitsAt, hplace, unitsAt_add hhigh (Or.inr hlow), Nat.mul_assoc,
        unitsPerOne_eq (show shift + (1074 - shift) = 1074 by omega)]

/-- From `2 ^ 52` on every word is a whole number. -/
theorem whole_of_le_magnitude (h : 2 ^ 52 ≤ x.magnitude) : x.Whole := by
  have hunits : 2 ^ 52 * unitsPerOne ≤ x.units := by
    rw [magnitude, le_div_iff₀ unitsPerOne_rat_pos] at h
    generalize unitsPerOne = one at h ⊢
    exact_mod_cast h
  obtain ⟨e, n, hplace, hn, hform⟩ := exists_eq_add x.place
  rw [units_eq_unitsAt, hplace, unitsAt_add hn hform] at hunits
  rcases Nat.lt_or_ge e 1074 with hlow | hhigh
  · -- with fewer places the fifty-three bits would not reach that far
    have hpow : 2 ^ (e + 1) ≤ unitsPerOne := by
      rw [unitsPerOne_eq (show e + 1 + (1073 - e) = 1074 by omega)]
      exact Nat.le_mul_of_pos_right _ (Nat.two_pow_pos _)
    have hn : n < 2 ^ 52 * 2 := hn
    have hbits : n * 2 ^ (e + 1) < 2 ^ 52 * 2 * unitsPerOne :=
      lt_of_le_of_lt (Nat.mul_le_mul_left n hpow) (Nat.mul_lt_mul_of_pos_right hn unitsPerOne_pos)
    have htwice := Nat.mul_le_mul_right 2 hunits
    rw [Nat.mul_assoc n, ← Nat.pow_succ, Nat.mul_right_comm] at htwice
    exact absurd hbits (Nat.not_lt_of_le htwice)
  · -- all bits of the word are bits of whole units
    obtain ⟨k, rfl⟩ := Nat.exists_eq_add_of_le' hhigh
    have hadd (a b : Nat) : 2 ^ (a + b) = 2 ^ a * 2 ^ b := Nat.pow_add 2 a b
    refine ⟨n * 2 ^ k, magnitude_eq_natCast ?_⟩
    rw [units_eq_unitsAt, hplace, unitsAt_add hn hform, hadd, Nat.mul_assoc, unitsPerOne]

/-- A word that a whole number is rounded to is a whole number. -/
theorem Nearest.whole {n : Nat} (h : Nearest n x) : x.Whole := by
  rcases le_or_gt (2 ^ 52) x.magnitude with hle | hlt
  · exact whole_of_le_magnitude hle
  · rcases Nat.lt_or_ge n (2 ^ 53) with hsmall | hgreat
    · -- the whole number is a word itself, and no word is nearer to it
      obtain ⟨y, hy, hvalue⟩ := exists_magnitude_eq_natCast hsmall
      have hleast := h.least y hy
      rw [hvalue, sub_self, abs_zero] at hleast
      exact ⟨n, (sub_eq_zero.mp (abs_nonpos_iff.mp hleast)).symm⟩
    · -- the word of `2 ^ 52` is nearer than any below it
      obtain ⟨y, hy, hvalue⟩ := exists_magnitude_eq_natCast (n := 2 ^ 52) (by decide)
      have hleast := h.least y hy
      have hn : ((2 ^ 53 : Nat) : ℚ) ≤ n := Nat.cast_le.mpr hgreat
      push_cast at hvalue hn
      rw [hvalue, abs_of_pos (by linarith), abs_of_pos (by linarith)] at hleast
      linarith

end QCircuit.Binary64
