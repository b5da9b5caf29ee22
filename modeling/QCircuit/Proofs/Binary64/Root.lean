import Mathlib.Analysis.Real.Sqrt
import Mathlib.Data.Nat.Cast.Order.Field
import QCircuit.Proofs.Binary64.Nearest

/-!
# Powers, roots and products of words

A machine that computes in double precision answers with the word closest to what is asked for. A real
number that is in the middle of no two words has one closest word (`Binary64.Closest`), and a number that
lies between the two middles around a word has that word (`Binary64.Closest.of_middles`). This is how the
roots are known here, which are not quotients: their squares are compared.

Among the words with a leading one, to multiply by a power of two is to move up by as many exponents
(`Binary64.unitsAt_add_exponent`), and rounding does the same on both sides
(`Binary64.placeOfRatio_mul_twoPow`). The powers themselves have words of their own (`Binary64.twoPow`).

What a power of two, a root and a product are as words, infinity included, and what count a word is
converted to, are `Binary64.PowerOf`, `Binary64.RootOf`, `Binary64.ProductOf` and `Binary64.toCount`. Each
of the three leaves one word to answer with.
-/

set_option autoImplicit false

namespace QCircuit.Binary64

/-! ## Exponents -/

/-- With a leading one, an exponent more is a factor of two. -/
theorem unitsAt_add_exponent {p : Nat} (hp : 2 ^ 52 ≤ p) (k : Nat) :
    unitsAt (p + k * 2 ^ 52) = unitsAt p * 2 ^ k := by
  obtain ⟨e, n, rfl, hn, h⟩ := exists_eq_add p
  have hlead : 2 ^ 52 ≤ n := by omega
  have hexponent : e * 2 ^ 52 + n + k * 2 ^ 52 = (e + k) * 2 ^ 52 + n := by
    rw [Nat.add_mul]
    omega
  have hadd : 2 ^ (e + k) = 2 ^ e * 2 ^ k := Nat.pow_add 2 e k
  rw [hexponent, unitsAt_add hn (Or.inr hlead), unitsAt_add hn h, hadd, Nat.mul_assoc]

theorem magnitudeAt_add_exponent {p : Nat} (hp : 2 ^ 52 ≤ p) (k : Nat) :
    magnitudeAt (p + k * 2 ^ 52) = magnitudeAt p * 2 ^ k := by
  rw [magnitudeAt, magnitudeAt, unitsAt_add_exponent hp, Nat.cast_mul, mul_div_right_comm]
  push_cast
  rfl

variable {num den : Nat}

/-- A whole quotient other than zero gains as many bits. -/
theorem log2_mul_twoPow_div (hden : 0 < den) (hne : num / den ≠ 0) (k : Nat) :
    (num * 2 ^ k / den).log2 = (num / den).log2 + k := by
  have hlow := (Nat.le_div_iff_mul_le hden).mp (Nat.log2_self_le hne)
  have hhigh := (Nat.div_lt_iff_lt_mul hden).mp (Nat.lt_log2_self (n := num / den))
  generalize (num / den).log2 = l at hlow hhigh
  have hl : 2 ^ (l + k) = 2 ^ l * 2 ^ k := Nat.pow_add 2 l k
  have hl' : 2 ^ (l + k + 1) = 2 ^ (l + 1) * 2 ^ k := by
    rw [Nat.add_right_comm]
    exact Nat.pow_add 2 (l + 1) k
  have hge : 2 ^ (l + k) ≤ num * 2 ^ k / den := by
    rw [Nat.le_div_iff_mul_le hden, hl, Nat.mul_right_comm]
    exact Nat.mul_le_mul_right _ hlow
  have hlt : num * 2 ^ k / den < 2 ^ (l + k + 1) := by
    rw [Nat.div_lt_iff_lt_mul hden, hl', Nat.mul_right_comm]
    exact Nat.mul_lt_mul_of_pos_right hhigh (Nat.two_pow_pos k)
  have hpos : 0 < num * 2 ^ k / den := Nat.lt_of_lt_of_le (Nat.two_pow_pos _) hge
  exact (Nat.log2_eq_iff hpos.ne').mpr ⟨hge, hlt⟩

/-- The unit of rounding moves up with the quotient. -/
theorem shiftOf_mul_twoPow (hden : 0 < den) (h : 2 ^ 52 ≤ num * unitsPerOne / den) (k : Nat) :
    shiftOf (num * 2 ^ k) den = shiftOf num den + k := by
  have hne : num * unitsPerOne / den ≠ 0 := by omega
  have hlog : 52 ≤ (num * unitsPerOne / den).log2 := (Nat.le_log2 hne).mpr h
  rw [shiftOf, shiftOf, Nat.mul_right_comm, log2_mul_twoPow_div hden hne, Nat.sub_add_comm hlog]

/-- Twice a quotient with fifty-three bits is rounded to twice its word. -/
theorem placeOfRatio_mul_twoPow (hden : 0 < den) (h : 2 ^ 52 ≤ num * unitsPerOne / den) (k : Nat) :
    placeOfRatio (num * 2 ^ k) den = placeOfRatio num den + k * 2 ^ 52 := by
  have hadd (s : Nat) : 2 ^ (s + k) = 2 ^ s * 2 ^ k := Nat.pow_add 2 s k
  unfold placeOfRatio
  dsimp only
  rw [shiftOf_mul_twoPow hden h, hadd, ← Nat.mul_assoc, Nat.mul_right_comm num,
    roundHalfEven_mul_right _ _ (Nat.two_pow_pos k), Nat.add_mul, Nat.add_right_comm]

/-- A quotient has fifty-three bits if its word is past the first with a leading one. -/
theorem le_quotient_of_lt_place (h : 2 ^ 52 < placeOfRatio num den) :
    2 ^ 52 ≤ num * unitsPerOne / den := by
  by_contra hsmall
  have hshift : shiftOf num den = 0 := by
    rcases Nat.eq_zero_or_pos (num * unitsPerOne / den) with hzero | hpos
    · rw [shiftOf, hzero]
      rfl
    · have hlog := (Nat.log2_lt hpos.ne').mpr (Nat.lt_of_not_le hsmall)
      rw [shiftOf]
      omega
  have hround := (roundHalfEven_bounds (num * unitsPerOne) den).2
  rw [placeOfRatio, hshift, Nat.zero_mul, Nat.zero_add, Nat.pow_zero, Nat.mul_one] at h
  omega

/-- A factor of two of the quotient is one of its word. -/
theorem units_ofRatio_mul_twoPow (negative : Bool) (hden : 0 < den) (h : 2 ^ 52 < placeOfRatio num den)
    {k : Nat} (hlast : placeOfRatio num den + k * 2 ^ 52 < 2047 * 2 ^ 52) :
    (ofRatio negative (num * 2 ^ k) den).isFinite ∧
      (ofRatio negative (num * 2 ^ k) den).units = (ofRatio negative num den).units * 2 ^ k := by
  have hmoved := placeOfRatio_mul_twoPow hden (le_quotient_of_lt_place h) k
  constructor
  · rw [isFinite_iff_place_lt, ofRatio, place_ofPlace, hmoved]
    omega
  · rw [units_eq_unitsAt, units_eq_unitsAt, ofRatio, ofRatio, place_ofPlace, place_ofPlace, hmoved,
      Nat.min_eq_left hlast.le, Nat.min_eq_left (by omega), unitsAt_add_exponent h.le]

/-- The magnitude of a number of fifty-three bits at its exponent. -/
theorem magnitudeAt_add {e s n : Nat} (hes : e + s = 1074) (hlead : 2 ^ 52 ≤ n) (hn : n < 2 ^ 53) :
    magnitudeAt (e * 2 ^ 52 + n) = n / 2 ^ s := by
  have hpos : (2 : ℚ) ^ e ≠ 0 := by positivity
  rw [magnitudeAt, unitsAt_add hn (Or.inr hlead), unitsPerOne_eq hes, Nat.cast_mul, Nat.cast_mul,
    mul_comm (n : ℚ), Nat.cast_pow, Nat.cast_pow, Nat.cast_ofNat, mul_div_mul_left _ _ hpos]

/-! ## Powers of two -/

/-- The word of a power of two; past the last exponent that is infinity. -/
def twoPow (n : Nat) : Binary64 := ofPlace false (1023 * 2 ^ 52 + n * 2 ^ 52)

theorem place_twoPow {n : Nat} (hn : n < 1024) : (twoPow n).place = 1023 * 2 ^ 52 + n * 2 ^ 52 := by
  rw [twoPow, place_ofPlace]
  omega

theorem negative_twoPow (n : Nat) : (twoPow n).negative = false := negative_ofPlace _ _

theorem isFinite_twoPow {n : Nat} (hn : n < 1024) : (twoPow n).isFinite := by
  rw [isFinite_iff_place_lt, place_twoPow hn]
  omega

theorem units_twoPow {n : Nat} (hn : n < 1024) : (twoPow n).units = unitsPerOne * 2 ^ n := by
  have hone : unitsAt (1022 * 2 ^ 52 + 2 ^ 52) = unitsPerOne := by
    rw [unitsAt_add (by decide) (Or.inr (Nat.le_refl _)), ← unitsPerOne_eq (by decide)]
  rw [units_eq_unitsAt, place_twoPow hn, unitsAt_add_exponent (by decide)]
  exact congrArg (· * 2 ^ n) hone

theorem magnitude_twoPow {n : Nat} (hn : n < 1024) : (twoPow n).magnitude = 2 ^ n := by
  have hunits : (twoPow n).units = 2 ^ n * unitsPerOne := by rw [units_twoPow hn, Nat.mul_comm]
  rw [magnitude_eq_natCast hunits, Nat.cast_pow, Nat.cast_ofNat]

theorem twoPow_of_le {n : Nat} (hn : 1024 ≤ n) : twoPow n = infinity false := by
  apply eq_of_place
  · rw [negative_twoPow, infinity, negative_ofPlace]
  · rw [twoPow, infinity, place_ofPlace, place_ofPlace]
    omega

/-- To multiply by the word of one changes nothing. -/
theorem mul_twoPow_zero {x : Binary64} (hx : x.isFinite) : mul x (twoPow 0) = x := by
  have hone : (twoPow 0).units = unitsPerOne := by rw [units_twoPow (by decide), Nat.pow_zero, Nat.mul_one]
  rw [mul, negative_twoPow, Bool.xor_false, hone, ofRatio, placeOfRatio_mul_right _ _ unitsPerOne_pos]
  exact ofRatio_units hx

/-! ## The word closest to a real number -/

/-- The one word that is closest to a real number: every word of another magnitude is further away. -/
structure Closest (v : ℝ) (x : Binary64) : Prop where
  notNaN : x.isNaN = false
  least : ∀ y : Binary64, y.isNaN = false → y.magnitude ≠ x.magnitude →
    |v - x.magnitude| < |v - y.magnitude|

variable {x y z : Binary64}

/-- Words of one sign and one magnitude are the same. -/
theorem eq_of_magnitude (hn : x.negative = y.negative) (h : x.magnitude = y.magnitude) : x = y := by
  apply eq_of_place hn
  apply magnitudeAt_strictMono.injective
  rw [← magnitude_eq_magnitudeAt, ← magnitude_eq_magnitudeAt, h]

theorem Closest.magnitude_eq {v : ℝ} (hx : Closest v x) (hy : Closest v y) :
    x.magnitude = y.magnitude := by
  by_contra hne
  have hless := hx.least y hy.notNaN (Ne.symm hne)
  exact lt_asymm hless (hy.least x hx.notNaN hne)

/-- A word is the closest one to its own magnitude. -/
theorem closest_magnitude (hx : x.isNaN = false) : Closest x.magnitude x := by
  refine ⟨hx, ?_⟩
  intro y _ hne
  rw [sub_self, abs_zero]
  apply abs_pos.mpr
  apply sub_ne_zero.mpr
  exact_mod_cast Ne.symm hne

/-- Between the middles to the numbers before and behind it, a number of fifty-three bits has the closest
word; and so it does some exponents further up. -/
theorem Closest.of_middles {v : ℝ} {e s n k : Nat} (hes : e + s = 1074) (hlead : 2 ^ 52 ≤ n)
    (hbits : n + 2 < 2 ^ 53) (hlast : e + k < 2046) (hlow : (2 * n + 1 : ℝ) < v * 2 ^ (s + 1))
    (hhigh : v * 2 ^ (s + 1) < (2 * n + 3 : ℝ)) :
    Closest (v * 2 ^ k) (ofPlace false (e * 2 ^ 52 + (n + 1) + k * 2 ^ 52)) := by
  have hplace : (ofPlace false (e * 2 ^ 52 + (n + 1) + k * 2 ^ 52)).place =
      e * 2 ^ 52 + (n + 1) + k * 2 ^ 52 := by
    rw [place_ofPlace]
    omega
  generalize ofPlace false (e * 2 ^ 52 + (n + 1) + k * 2 ^ 52) = x at hplace ⊢
  -- all three numbers and the real one in units of the last bit
  obtain ⟨unit, hunit⟩ : ∃ unit : ℝ, unit = 2 ^ k / 2 ^ s := ⟨_, rfl⟩
  have hpos : 0 < unit := by
    rw [hunit]
    positivity
  have hword (q : Nat) (hq : n ≤ q) (hq' : q ≤ n + 2) :
      (magnitudeAt (e * 2 ^ 52 + q + k * 2 ^ 52) : ℝ) = q * unit := by
    rw [magnitudeAt_add_exponent (by omega), magnitudeAt_add hes (by omega) (by omega), hunit]
    push_cast
    ring
  have hv : 2 * (v * 2 ^ k) = v * 2 ^ (s + 1) * unit := by
    rw [hunit, pow_succ]
    field_simp
  have hlow' := mul_lt_mul_of_pos_right hlow hpos
  have hhigh' := mul_lt_mul_of_pos_right hhigh hpos
  have hmono := magnitudeAt_strictMono.monotone
  refine ⟨?_, ?_⟩
  · rw [isNaN_eq_false_iff, hplace]
    omega
  · intro y _ hne
    rw [magnitude_eq_magnitudeAt, magnitude_eq_magnitudeAt, hplace] at hne
    rw [magnitude_eq_magnitudeAt, magnitude_eq_magnitudeAt, hplace]
    rcases Nat.lt_or_gt_of_ne fun h => hne (congrArg magnitudeAt h) with hlt | hgt
    · -- a word before it is no further up than the number before
      have hy : (magnitudeAt y.place : ℝ) ≤ magnitudeAt (e * 2 ^ 52 + n + k * 2 ^ 52) :=
        Rat.cast_le.mpr (hmono (by omega))
      have hless : (magnitudeAt y.place : ℝ) < magnitudeAt (e * 2 ^ 52 + (n + 1) + k * 2 ^ 52) :=
        Rat.cast_lt.mpr (magnitudeAt_strictMono hlt)
      rw [hword n (by omega) (by omega)] at hy
      rw [← not_le, abs_sub_le_iff_of_lt hless, not_le, hword (n + 1) (by omega) (by omega), hv]
      push_cast
      linarith
    · -- and one behind it no further down than the number behind
      have hy : (magnitudeAt (e * 2 ^ 52 + (n + 2) + k * 2 ^ 52) : ℝ) ≤ magnitudeAt y.place :=
        Rat.cast_le.mpr (hmono (by omega))
      have hless : (magnitudeAt (e * 2 ^ 52 + (n + 1) + k * 2 ^ 52) : ℝ) < magnitudeAt y.place :=
        Rat.cast_lt.mpr (magnitudeAt_strictMono hgt)
      rw [hword (n + 2) (by omega) (by omega)] at hy
      rw [← not_le, abs_sub_le_iff_of_gt hless, not_le, hword (n + 1) (by omega) (by omega), hv]
      push_cast at hy ⊢
      linarith

/-- The closest word to a root between one and two, found by the squares of the two middles around it. -/
theorem closest_sqrt {m n : Nat} (k : Nat) (hlead : 2 ^ 52 ≤ n) (hbits : n + 2 < 2 ^ 53) (hlast : k < 1024)
    (hlow : (2 * n + 1) ^ 2 < m * (2 ^ 53) ^ 2) (hhigh : m * (2 ^ 53) ^ 2 < (2 * n + 3) ^ 2) :
    Closest (√m * 2 ^ k) (ofPlace false (1022 * 2 ^ 52 + (n + 1) + k * 2 ^ 52)) := by
  have hroot : √m * 2 ^ (52 + 1) = √(m * (2 ^ 53) ^ 2 : ℝ) := by
    rw [Real.sqrt_mul (Nat.cast_nonneg m), Real.sqrt_sq (by positivity)]
  apply Closest.of_middles (show 1022 + 52 = 1074 by decide) hlead hbits (by omega)
  · rw [hroot]
    apply Real.lt_sqrt_of_sq_lt
    exact_mod_cast hlow
  · rw [hroot, Real.sqrt_lt (by positivity) (by positivity)]
    exact_mod_cast hhigh

/-! ## Operations -/

/-- The word of a power of two: the power itself up to the last exponent, then infinity. -/
inductive PowerOf (n : Nat) (x : Binary64) : Prop
  | finite (hn : n < 1024) (hsign : x.negative = false) (hfinite : x.isFinite)
      (hvalue : x.magnitude = 2 ^ n)
  | infinite (hn : 1024 ≤ n) (hx : x = infinity false)

/-- A correctly rounded root of a word that is not negative. The root of infinity is infinity. -/
inductive RootOf (x r : Binary64) : Prop
  | finite (hx : x.negative = false) (hfinite : x.isFinite) (hsign : r.negative = false)
      (hclosest : Closest (√x.magnitude) r)
  | infinite (hx : x = infinity false) (hr : r = infinity false)

/-- A correctly rounded product with a finite word. That of infinity and a word other than zero is
infinity. -/
inductive ProductOf (x y z : Binary64) : Prop
  | finite (hx : x.isFinite) (hy : y.isFinite) (hsign : z.negative = (x.negative ^^ y.negative))
      (hnearest : Nearest (x.magnitude * y.magnitude) z)
  | infinite (hx : x.isFinite) (hne : x.units ≠ 0) (hy : y = infinity y.negative)
      (hz : z = infinity (x.negative ^^ y.negative))

/-- The count of 64 bits that a word is converted to: its whole part, kept within the counts. NaN becomes
zero. -/
def toCount (x : Binary64) : Nat :=
  if x.isNaN || x.negative then 0
  else if x.isFinite then min (2 ^ 64 - 1) ⌊x.magnitude⌋₊
  else 2 ^ 64 - 1

theorem not_isFinite_infinity (negative : Bool) : ¬ (infinity negative).isFinite := by
  cases negative <;> decide

theorem PowerOf.eq {n : Nat} (hx : PowerOf n x) (hy : PowerOf n y) : x = y := by
  cases hx with
  | finite hn hsign _ hvalue =>
    cases hy with
    | finite _ hsign' _ hvalue' =>
      exact eq_of_magnitude (hsign.trans hsign'.symm) (hvalue.trans hvalue'.symm)
    | infinite hn' => omega
  | infinite hn hx =>
    cases hy with
    | finite hn' => omega
    | infinite _ hy => rw [hx, hy]

theorem RootOf.eq (hy : RootOf x y) (hz : RootOf x z) : y = z := by
  cases hy with
  | finite _ hfinite hsign hclosest =>
    cases hz with
    | finite _ _ hsign' hclosest' =>
      exact eq_of_magnitude (hsign.trans hsign'.symm) (hclosest.magnitude_eq hclosest')
    | infinite hx =>
      rw [hx] at hfinite
      exact absurd hfinite (not_isFinite_infinity _)
  | infinite hx hy =>
    cases hz with
    | finite _ hfinite =>
      rw [hx] at hfinite
      exact absurd hfinite (not_isFinite_infinity _)
    | infinite _ hz => rw [hy, hz]

theorem ProductOf.eq {p q : Binary64} (hp : ProductOf x y p) (hq : ProductOf x y q) : p = q := by
  cases hp with
  | finite _ hfinite hsign hnearest =>
    cases hq with
    | finite _ _ hsign' hnearest' =>
      apply eq_of_place (hsign.trans hsign'.symm)
      exact Nat.le_antisymm (hnearest'.place_le hnearest) (hnearest.place_le hnearest')
    | infinite _ _ hy =>
      rw [hy] at hfinite
      exact absurd hfinite (not_isFinite_infinity _)
  | infinite _ _ hy hp =>
    cases hq with
    | finite _ hfinite =>
      rw [hy] at hfinite
      exact absurd hfinite (not_isFinite_infinity _)
    | infinite _ _ _ hq => rw [hp, hq]

theorem powerOf_twoPow (n : Nat) : PowerOf n (twoPow n) := by
  rcases Nat.lt_or_ge n 1024 with hn | hn
  · exact PowerOf.finite hn (negative_twoPow n) (isFinite_twoPow hn) (magnitude_twoPow hn)
  · exact PowerOf.infinite hn (twoPow_of_le hn)

theorem mul_unitsPerOne_pos : 0 < unitsPerOne * unitsPerOne :=
  Nat.mul_pos unitsPerOne_pos unitsPerOne_pos

/-- The product of two finite words is correctly rounded. -/
theorem productOf_mul (hx : x.isFinite) (hy : y.isFinite) : ProductOf x y (mul x y) := by
  have hnearest := nearest_ofRatio (x.negative ^^ y.negative) (x.units * y.units) mul_unitsPerOne_pos
  rw [Nat.cast_mul, Nat.cast_mul, ← div_mul_div_comm] at hnearest
  exact ProductOf.finite hx hy (negative_ofPlace _ _) hnearest

end QCircuit.Binary64
