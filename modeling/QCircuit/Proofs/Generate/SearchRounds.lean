import Mathlib.Algebra.Order.Floor.Semifield
import Mathlib.Analysis.Real.Pi.Bounds
import QCircuit.Generate.Grover
import QCircuit.Proofs.Binary64.Root

/-!
# Counting the rounds of a search

The best number of rounds is the whole part of `π / 4 * √(2 ^ n)`. In double precision that is a power, its
root, a product with the word closest to an eighth of a turn, and a conversion to a count of 64 bits
(`Grover.Estimate`). The power is exact up to width 1023 and then infinite, the root is rounded for odd
widths, and the product is rounded. A factor of two only changes the exponent of a word, so all the
products come down to two (`Grover.coefficient_eq`), and the count is the one that is defined on these
(`Grover.toCount_of_estimate`). Written in bits behind the point (`Grover.significand`) the counts are
small numbers to compare: they grow with the width, and from width 129 on they are the greatest count.

For great widths the roundings may move the count away from the whole part of the real number, but not for
small ones: below width 14 two digits of `π` tell the whole part, and from width 13 on it is past any cap
(`Grover.rounds_answer`).
-/

set_option autoImplicit false

namespace QCircuit.Grover

open Binary64

/-! ## The words of the computation -/

/-- What double precision may compute before it converts to a count: some word closest to an eighth of a
turn, times a rounded root of a power of two. -/
def Estimate (width : Nat) (product : Binary64) : Prop :=
  ∃ eighth power root : Binary64, eighth.negative = false ∧ Closest (Real.pi / 4) eighth ∧
    PowerOf width power ∧ RootOf power root ∧ ProductOf eighth root product

/-- The word of one for even widths, of the root of two for odd ones. -/
def rootBase (width : Nat) : Binary64 := if width % 2 = 0 then twoPow 0 else sqrtTwo

/-- The word of the root. -/
def rootWord (width : Nat) : Binary64 :=
  ofPlace false ((rootBase width).place + width / 2 * 2 ^ 52)

variable {width : Nat}

/-- The twenty digits of `π` that are known tell its word from the two next to it. -/
theorem closest_quarterPi : Closest (Real.pi / 4) quarterPi := by
  have hword : quarterPi = ofPlace false (1021 * 2 ^ 52 + (0x1921FB54442D17 + 1) + 0 * 2 ^ 52) := by
    decide
  have hclosest : Closest (Real.pi / 4 * 2 ^ 0) quarterPi := by
    rw [hword]
    apply Closest.of_middles (show 1021 + 53 = 1074 by decide) (by decide) (by decide) (by decide)
    · norm_num
      linarith [Real.pi_gt_d20]
    · norm_num
      linarith [Real.pi_lt_d20]
  rwa [pow_zero, mul_one] at hclosest

/-- The root of a power of two is that of one or two, moved up by half the exponent. -/
theorem sqrt_two_pow (width : Nat) :
    √(2 ^ width : ℝ) = √((2 ^ (width % 2) : Nat) : ℝ) * 2 ^ (width / 2) := by
  have hhalf : (2 : ℝ) ^ width = (2 ^ (width % 2) : Nat) * (2 ^ (width / 2)) ^ 2 := by
    rw [← pow_mul, Nat.cast_pow, Nat.cast_ofNat, ← pow_add, Nat.mul_comm, Nat.mod_add_div]
  rw [hhalf, Real.sqrt_mul (Nat.cast_nonneg _), Real.sqrt_sq (by positivity)]

/-- The rounded root, as long as the search space is finite. -/
theorem closest_rootWord (hn : width < 1024) : Closest (√(2 ^ width)) (rootWord width) := by
  rw [sqrt_two_pow, rootWord, rootBase]
  rcases Nat.mod_two_eq_zero_or_one width with heven | hodd
  · -- the root is a power of two and has its own word
    have hhalf : width / 2 < 1024 := by omega
    have hword : ofPlace false ((twoPow 0).place + width / 2 * 2 ^ 52) = twoPow (width / 2) := by
      rw [place_twoPow (by decide), Nat.zero_mul, Nat.add_zero, twoPow]
    have hnotNaN : (twoPow (width / 2)).isNaN = false := by
      rw [isNaN_eq_false_iff, place_twoPow hhalf]
      omega
    have hclosest := closest_magnitude hnotNaN
    rw [magnitude_twoPow hhalf, Rat.cast_pow, Rat.cast_ofNat] at hclosest
    rwa [heven, if_pos rfl, hword, pow_zero, Nat.cast_one, Real.sqrt_one, one_mul]
  · -- the squares of the two middles around the word of the root lie on either side of two
    have hplace : sqrtTwo.place = 1022 * 2 ^ 52 + (0x16A09E667F3BCC + 1) := by decide
    rw [hodd, if_neg (by decide), hplace]
    apply closest_sqrt _ (by decide) (by decide) (by omega)
    · decide
    · decide

theorem rootOf_twoPow (hn : width < 1024) : RootOf (twoPow width) (rootWord width) := by
  apply RootOf.finite (negative_twoPow width) (isFinite_twoPow hn) (negative_ofPlace _ _)
  rw [magnitude_twoPow hn, Rat.cast_pow, Rat.cast_ofNat]
  exact closest_rootWord hn

/-- Both bases have a leading one and lie far from the last exponent. -/
theorem rootBase_bounds (width : Nat) :
    2 ^ 52 ≤ (rootBase width).place ∧ (rootBase width).place < 1024 * 2 ^ 52 := by
  unfold rootBase
  split <;> decide

theorem isFinite_rootWord (hn : width < 1024) : (rootWord width).isFinite := by
  obtain ⟨-, hbase⟩ := rootBase_bounds width
  rw [isFinite_iff_place_lt, rootWord, place_ofPlace]
  omega

theorem units_rootWord (hn : width < 1024) :
    (rootWord width).units = (rootBase width).units * 2 ^ (width / 2) := by
  obtain ⟨hlead, hbase⟩ := rootBase_bounds width
  rw [units_eq_unitsAt, units_eq_unitsAt, rootWord, place_ofPlace, Nat.min_eq_left (by omega),
    unitsAt_add_exponent hlead]

/-! ## The product -/

/-- The one product that is not exact. -/
theorem mul_quarterPi_sqrtTwo : mul quarterPi sqrtTwo = ⟨0x3FF1C5831ADD62E4⟩ := by decide +kernel

/-- The coefficient of a width is the product with the base of its root. -/
theorem coefficient_eq (width : Nat) : coefficient width = mul quarterPi (rootBase width) := by
  unfold coefficient rootBase
  split
  · exact (mul_twoPow_zero (by decide)).symm
  · rfl

/-- The coefficient as a number of bits behind the point. -/
def significand (width : Nat) : Nat :=
  if width % 2 = 0 then 0x1921FB54442D18 else 2 * 0x11C5831ADD62E4

theorem units_coefficient (width : Nat) : (coefficient width).units = significand width * 2 ^ 1021 := by
  unfold coefficient significand
  split
  · have hbits : 2 ^ 52 + quarterPi.fractionField = 0x1921FB54442D18 := by decide
    rw [units_of_exponentField_succ (e := 1021) (by decide), hbits]
  · have hbits : 2 ^ 52 + fractionField ⟨0x3FF1C5831ADD62E4⟩ = 0x11C5831ADD62E4 := by decide
    have hpow (e : Nat) : 2 ^ (e + 1) = 2 ^ e * 2 := Nat.pow_succ 2 e
    rw [mul_quarterPi_sqrtTwo, units_of_exponentField_succ (e := 1021 + 1) (by decide), hbits, hpow,
      Nat.mul_comm 2, Nat.mul_assoc, Nat.mul_comm 2]

theorem place_coefficient_bounds (width : Nat) :
    2 ^ 52 < (coefficient width).place ∧ (coefficient width).place < 1024 * 2 ^ 52 := by
  unfold coefficient
  split
  · decide
  · rw [mul_quarterPi_sqrtTwo]
    decide

/-- The product is that with the base, moved up by half the exponent. -/
theorem product_rootWord (hn : width < 1024) :
    (mul quarterPi (rootWord width)).isFinite ∧
      (mul quarterPi (rootWord width)).units = (coefficient width).units * 2 ^ (width / 2) := by
  obtain ⟨hlead, hplace⟩ := place_coefficient_bounds width
  have hsign : (rootWord width).negative = (rootBase width).negative := by
    rw [rootWord, negative_ofPlace, rootBase]
    split <;> decide
  rw [coefficient_eq, mul, ofRatio, place_ofPlace] at hlead hplace
  rw [coefficient_eq, mul, mul, units_rootWord hn, hsign, ← Nat.mul_assoc]
  exact units_ofRatio_mul_twoPow _ mul_unitsPerOne_pos (by omega) (by omega)

/-- The conversion takes the whole part of the units over those of one. -/
theorem toCount_of_isFinite {x : Binary64} (hsign : x.negative = false) (hx : x.isFinite) :
    x.toCount = min maxCount (x.units / unitsPerOne) := by
  have hnotNaN : x.isNaN = false := by
    rw [isNaN_eq_false_iff]
    exact ((isFinite_iff_place_lt x).mp hx).le
  have hfloor : ⌊x.magnitude⌋₊ = x.units / unitsPerOne := Nat.floor_div_eq_div x.units unitsPerOne
  rw [toCount, hnotNaN, hsign, if_neg (by decide), if_pos hx, hfloor, maxCount]

/-- As long as the search space is finite, the computation comes to the product with its root. -/
theorem estimate_product (hn : width < 1024) :
    Estimate width (mul quarterPi (rootWord width)) := by
  have hproduct : ProductOf quarterPi (rootWord width) (mul quarterPi (rootWord width)) :=
    productOf_mul (by decide) (isFinite_rootWord hn)
  exact ⟨quarterPi, twoPow width, rootWord width, by decide, closest_quarterPi,
    powerOf_twoPow width, rootOf_twoPow hn, hproduct⟩

theorem toCount_product (hn : width < 1024) :
    (mul quarterPi (rootWord width)).toCount = optimalIterations width := by
  obtain ⟨hfinite, hunits⟩ := product_rootWord hn
  have hsign : (mul quarterPi (rootWord width)).negative = false := by
    rw [mul, ofRatio, negative_ofPlace, rootWord, negative_ofPlace]
    decide
  rw [toCount_of_isFinite hsign hfinite, hunits, optimalIterations, if_pos hn, floorMulTwoPow]

/-- An infinite search space has an infinite root, and so the product is infinite. -/
theorem estimate_infinity (hn : 1024 ≤ width) : Estimate width (infinity false) := by
  have hproduct : ProductOf quarterPi (infinity false) (infinity false) := by
    have hpos : (zero false).units < quarterPi.units := units_lt_of_place_lt (by decide)
    exact ProductOf.infinite (by decide) (Nat.ne_zero_of_lt hpos) (by decide) (by decide)
  exact ⟨quarterPi, infinity false, infinity false, by decide, closest_quarterPi,
    PowerOf.infinite hn rfl, RootOf.infinite rfl rfl, hproduct⟩

/-- The computation comes to a word that is converted to the best number of rounds. -/
theorem exists_estimate (width : Nat) :
    ∃ product, Estimate width product ∧ product.toCount = optimalIterations width := by
  by_cases hn : width < 1024
  · exact ⟨_, estimate_product hn, toCount_product hn⟩
  · have hcount : (infinity false).toCount = optimalIterations width := by
      rw [optimalIterations, if_neg hn]
      decide
    exact ⟨_, estimate_infinity (Nat.le_of_not_lt hn), hcount⟩

/-- It can come to no other count, as each of its steps leaves one word to answer with. -/
theorem toCount_of_estimate {product : Binary64} (h : Estimate width product) :
    product.toCount = optimalIterations width := by
  obtain ⟨same, ⟨eighth', power', root', hsign', hclosest', hpower', hroot', hproduct'⟩, hcount⟩ :=
    exists_estimate width
  obtain ⟨eighth, power, root, hsign, hclosest, hpower, hroot, hproduct⟩ := h
  obtain rfl := eq_of_magnitude (hsign.trans hsign'.symm) (hclosest.magnitude_eq hclosest')
  obtain rfl := hpower.eq hpower'
  obtain rfl := hroot.eq hroot'
  obtain rfl := hproduct.eq hproduct'
  exact hcount

/-! ## The counts -/

/-- In bits behind the point the numbers stay small. -/
theorem optimalIterations_eq (hn : width < 1024) :
    optimalIterations width = min maxCount (significand width * 2 ^ (width / 2) / 2 ^ 53) := by
  have hone : unitsPerOne = 2 ^ 53 * 2 ^ 1021 := unitsPerOne_eq (by decide)
  rw [optimalIterations, if_pos hn, floorMulTwoPow, units_coefficient, hone, Nat.mul_right_comm,
    Nat.mul_div_mul_right _ _ (Nat.two_pow_pos 1021)]

/-- A width more is a factor of about the root of two, and never a smaller product. -/
theorem significand_le_succ (width : Nat) :
    significand width * 2 ^ (width / 2) ≤ significand (width + 1) * 2 ^ ((width + 1) / 2) := by
  unfold significand
  -- from even to odd only the number grows, from odd to even the exponent does too
  rcases Nat.mod_two_eq_zero_or_one width with h | h
  · have hhalf : (width + 1) / 2 = width / 2 := by omega
    rw [if_pos h, if_neg (by omega), hhalf]
    exact Nat.mul_le_mul_right _ (by decide)
  · have hhalf : (width + 1) / 2 = width / 2 + 1 := by omega
    rw [if_neg (by omega), if_pos (by omega), hhalf, Nat.pow_succ, Nat.mul_comm _ 2, ← Nat.mul_assoc]
    exact Nat.mul_le_mul_right _ (by decide)

theorem optimalIterations_le_maxCount (width : Nat) : optimalIterations width ≤ maxCount := by
  unfold optimalIterations
  split
  · exact Nat.min_le_left _ _
  · exact Nat.le_refl _

theorem optimalIterations_le_succ (width : Nat) :
    optimalIterations width ≤ optimalIterations (width + 1) := by
  by_cases hn : width + 1 < 1024
  · have hfloor := Nat.div_le_div_right (c := 2 ^ 53) (significand_le_succ width)
    rw [optimalIterations_eq hn, optimalIterations_eq (by omega)]
    omega
  · have hlast : optimalIterations (width + 1) = maxCount := by rw [optimalIterations, if_neg hn]
    rw [hlast]
    exact optimalIterations_le_maxCount width

theorem optimalIterations_mono : Monotone optimalIterations :=
  monotone_nat_of_le_succ optimalIterations_le_succ

/-- The counts of 64 bits last for widths up to 128. -/
theorem optimalIterations_eq_maxCount_iff (width : Nat) :
    optimalIterations width = maxCount ↔ 129 ≤ width := by
  constructor
  · intro h
    by_contra hlt
    have hle : optimalIterations width ≤ optimalIterations 128 := optimalIterations_mono (by omega)
    have hlast : optimalIterations 128 < maxCount := by
      rw [optimalIterations_eq (by decide)]
      decide
    omega
  · intro h
    have hle : optimalIterations 129 ≤ optimalIterations width := optimalIterations_mono h
    have hfirst : optimalIterations 129 = maxCount := by
      rw [optimalIterations_eq (by decide)]
      decide
    have hbound := optimalIterations_le_maxCount width
    omega

/-! ## The whole part of the real number -/

/-- Two digits of `π` tell a whole part that no bound lies close to. -/
theorem floor_eq_of_bounds {k : Nat} (hlow : (400 * k) ^ 2 ≤ 314 ^ 2 * 2 ^ width)
    (hhigh : 315 ^ 2 * 2 ^ width < (400 * (k + 1)) ^ 2) : ⌊Real.pi / 4 * √(2 ^ width)⌋₊ = k := by
  have hsquare : √(2 ^ width : ℝ) ^ 2 = 2 ^ width := Real.sq_sqrt (by positivity)
  have hroot : 0 < √(2 ^ width : ℝ) := Real.sqrt_pos.mpr (by positivity)
  have hbelow : 400 * (k : ℝ) ≤ 314 * √(2 ^ width) := by
    apply (pow_le_pow_iff_left₀ (by positivity) (by positivity) two_ne_zero).mp
    rw [mul_pow 314, hsquare]
    exact_mod_cast hlow
  have habove : 315 * √(2 ^ width) < 400 * ((k : ℝ) + 1) := by
    apply (pow_lt_pow_iff_left₀ (by positivity) (by positivity) two_ne_zero).mp
    rw [mul_pow 315, hsquare]
    exact_mod_cast hhigh
  rw [Nat.floor_eq_iff (by positivity)]
  constructor
  · nlinarith only [hbelow, hroot, Real.pi_gt_d2]
  · nlinarith only [habove, hroot, Real.pi_lt_d2]

/-- For small widths the roundings do not reach the whole part. -/
theorem floor_eq_optimalIterations (hn : width < 14) :
    ⌊Real.pi / 4 * √(2 ^ width)⌋₊ = optimalIterations width := by
  have hbounds : ∀ n < 14,
      (400 * min maxCount (significand n * 2 ^ (n / 2) / 2 ^ 53)) ^ 2 ≤ 314 ^ 2 * 2 ^ n ∧
        315 ^ 2 * 2 ^ n < (400 * (min maxCount (significand n * 2 ^ (n / 2) / 2 ^ 53) + 1)) ^ 2 := by
    decide
  obtain ⟨hlow, hhigh⟩ := hbounds width hn
  rw [optimalIterations_eq (by omega)]
  exact floor_eq_of_bounds hlow hhigh

/-- The whole part grows with the width. -/
theorem floor_mono {m n : Nat} (h : m ≤ n) :
    ⌊Real.pi / 4 * √(2 ^ m)⌋₊ ≤ ⌊Real.pi / 4 * √(2 ^ n)⌋₊ := by
  have hpower : (2 : ℝ) ^ m ≤ 2 ^ n := pow_le_pow_right₀ one_le_two h
  have hroot := Real.sqrt_le_sqrt hpower
  apply Nat.floor_le_floor
  exact mul_le_mul_of_nonneg_left hroot (by positivity)

/-- Under a cap of up to 64 it makes no difference which of the two is counted: they differ at most where both
are past the cap. -/
theorem appliedIterations_eq (width : Nat) {settings : Settings}
    (hcap : settings.groverMaxIterations.toNat ≤ 64) :
    appliedIterations width settings =
      min ⌊Real.pi / 4 * √(2 ^ width)⌋₊ settings.groverMaxIterations.toNat := by
  rw [appliedIterations]
  rcases Nat.lt_or_ge width 14 with hn | hn
  · rw [floor_eq_optimalIterations hn]
  · -- both numbers have passed every cap at width 13, and both grow
    have hcap' : 64 ≤ optimalIterations 13 := by
      rw [optimalIterations_eq (by decide)]
      decide
    have hcount : optimalIterations 13 ≤ optimalIterations width := optimalIterations_mono (by omega)
    have hfloor := floor_mono (show 13 ≤ width by omega)
    rw [floor_eq_optimalIterations (by decide)] at hfloor
    rw [Nat.min_eq_right (by omega), Nat.min_eq_right (by omega)]

/-- **The counts of a search.** In double precision the best number of rounds has an estimate, and every
estimate is converted to the same count of 64 bits. The count does not shrink with the width and is the
greatest one exactly from width 129 on, also where the search space is infinite. Under a cap of up to 64
rounds the number that is applied is the whole part of the real number itself, cut off at the cap. -/
theorem rounds_answer (width : Nat) :
    ((∃ product, Estimate width product) ∧
      ∀ product, Estimate width product → product.toCount = optimalIterations width) ∧
    optimalIterations width ≤ optimalIterations (width + 1) ∧
    optimalIterations width ≤ 2 ^ 64 - 1 ∧
    (optimalIterations width = 2 ^ 64 - 1 ↔ 129 ≤ width) ∧
    ∀ settings : Settings, settings.groverMaxIterations.toNat ≤ 64 →
      appliedIterations width settings =
        min ⌊Real.pi / 4 * √(2 ^ width)⌋₊ settings.groverMaxIterations.toNat := by
  obtain ⟨product, hproduct, -⟩ := exists_estimate width
  refine ⟨⟨⟨product, hproduct⟩, fun _ => toCount_of_estimate⟩, optimalIterations_le_succ width,
    optimalIterations_le_maxCount width, optimalIterations_eq_maxCount_iff width, ?_⟩
  intro settings hcap
  exact appliedIterations_eq width hcap

/-- Control: eight qubits and the greatest cap. An eighth of a turn times sixteen is a little over twelve. -/
theorem rounds_answer_eight :
    (∃ product, Estimate 8 product ∧ product.toCount = 12) ∧
      (⟨64, 16, 3, 2⟩ : Settings).groverMaxIterations.toNat ≤ 64 ∧
      min ⌊Real.pi / 4 * √(2 ^ 8)⌋₊ 64 = 12 := by
  have hcount : optimalIterations 8 = 12 := by
    rw [optimalIterations_eq (by decide)]
    decide
  have hcap : (⟨64, 16, 3, 2⟩ : Settings).groverMaxIterations.toNat ≤ 64 := by decide
  obtain ⟨⟨⟨product, hproduct⟩, hall⟩, -, -, -, happlied⟩ := rounds_answer 8
  refine ⟨⟨product, hproduct, (hall product hproduct).trans hcount⟩, hcap, ?_⟩
  calc min ⌊Real.pi / 4 * √(2 ^ 8)⌋₊ 64 = appliedIterations 8 ⟨64, 16, 3, 2⟩ :=
        (happlied ⟨64, 16, 3, 2⟩ hcap).symm
    _ = min (optimalIterations 8) 64 := rfl
    _ = 12 := by rw [hcount]; rfl

end QCircuit.Grover
