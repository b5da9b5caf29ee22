import Mathlib.Algebra.Order.Field.Power
import Mathlib.Tactic.FieldSimp
import Mathlib.Tactic.NormNum
import QCircuit.Proofs.Binary64.Nearest
import QCircuit.Proofs.Decimal.Bounded

/-!
# Shortest decimals

A decimal is read as the word that is nearest to its value (`Decimal.ReadsAs`), and what lies between it and
the word is read as that word too (`Decimal.ReadsAs.inward`). So on one grid the two neighbours of the exact
value stand for all points: if any is read back, the one that is written is, and no other is nearer
(`Decimal.onGrid?_cases`).

The grids are tried from the leading digit of the word on. Seventeen digits are enough, since a step is then
small against the gaps between words (`Decimal.exists_readsAs_seventeen`), and a decimal of fewer digits would
have been found on an earlier grid (`Decimal.exists_readsAs_on_grid`). So the decimal that is written for a
finite word has the fewest digits, and is the nearest of those (`Decimal.isShortest_shortest`).
-/

set_option autoImplicit false

namespace QCircuit.Decimal

/-! ## Values -/

/-- The value of a decimal. -/
def value (d : Decimal) : ℚ := d.numerator / d.denominator

/-- A decimal is read as the word that is nearest to its value. -/
def ReadsAs (d : Decimal) (x : Binary64) : Prop := Binary64.Nearest d.value x

variable {d e : Decimal} {x : Binary64}

theorem readsAs_iff : d.ReadsAs x ↔ toBinary64 x.negative d = x :=
  Binary64.nearest_iff d.denominator_pos

theorem ten_pos : (0 : ℚ) < 10 := by norm_num

theorem value_eq (digits : Nat) (exponent : Int) :
    value ⟨digits, exponent⟩ = digits * 10 ^ exponent := by
  rcases le_total 0 exponent with h | h
  · obtain ⟨k, rfl⟩ := Int.eq_ofNat_of_zero_le h
    simp [value, numerator, denominator]
  · obtain ⟨k, rfl⟩ := Int.exists_eq_neg_ofNat h
    simp [value, numerator, denominator, div_eq_mul_inv]

theorem SameValue.value_eq (h : SameValue d e) : d.value = e.value := by
  have hd : (0 : ℚ) < d.denominator := Nat.cast_pos.mpr d.denominator_pos
  have he : (0 : ℚ) < e.denominator := Nat.cast_pos.mpr e.denominator_pos
  rw [value, value, div_eq_div_iff hd.ne' he.ne']
  exact_mod_cast h

/-- A decimal that is not zero has its leading digit at the power of ten that its digits and its exponent
tell. -/
theorem pow_le_value {digits : Nat} (h : digits ≠ 0) (exponent : Int) :
    (10 : ℚ) ^ (exponent + (width digits : Int) - 1) ≤ value ⟨digits, exponent⟩ := by
  have hdigits : ((10 ^ (width digits - 1) : Nat) : ℚ) ≤ digits := Nat.cast_le.mpr (pow_width_le h)
  have hwidth := width_pos digits
  have hexp : exponent + (width digits : Int) - 1 = ((width digits - 1 : Nat) : Int) + exponent := by
    omega
  rw [value_eq, hexp, zpow_add₀ ten_pos.ne', zpow_natCast]
  rw [Nat.cast_pow] at hdigits
  exact mul_le_mul_of_nonneg_right hdigits (zpow_pos ten_pos _).le

theorem value_lt_pow (digits : Nat) (exponent : Int) :
    value ⟨digits, exponent⟩ < (10 : ℚ) ^ (exponent + (width digits : Int)) := by
  have hdigits : (digits : ℚ) < ((10 ^ width digits : Nat) : ℚ) := Nat.cast_lt.mpr (lt_pow_width digits)
  rw [value_eq, Int.add_comm, zpow_add₀ ten_pos.ne', zpow_natCast]
  rw [Nat.cast_pow] at hdigits
  exact mul_lt_mul_of_pos_right hdigits (zpow_pos ten_pos _)

/-- What lies between a decimal and the word that it is read as is read as that word. -/
theorem ReadsAs.inward (h : d.ReadsAs x) (hx : x.isFinite)
    (hbetween : x.magnitude ≤ e.value ∧ e.value ≤ d.value ∨ d.value ≤ e.value ∧ e.value ≤ x.magnitude) :
    e.ReadsAs x := by
  have hself := Binary64.nearest_magnitude hx
  rcases hbetween with ⟨hlow, hhigh⟩ | ⟨hlow, hhigh⟩
  · exact hself.of_le_of_le h hlow hhigh
  · exact Binary64.Nearest.of_le_of_le h hself hlow hhigh

/-! ## The leading digit -/

/-- The leading digit of a quotient stands at its leading power of ten. -/
theorem pow_leadingPower {num den : Nat} (hnum : 0 < num) (hden : 0 < den) :
    (10 : ℚ) ^ leadingPower num den ≤ num / den ∧
      (num / den : ℚ) < (10 : ℚ) ^ (leadingPower num den + 1) := by
  have hd : (0 : ℚ) < den := Nat.cast_pos.mpr hden
  have hpow (k : Nat) : (0 : ℚ) < 10 ^ k := pow_pos ten_pos k
  unfold leadingPower
  split
  · next hle =>
      have hlow := (Nat.le_div_iff_mul_le hden).mp (pow_width_le (Nat.div_pos hle hden).ne')
      have hhigh := (Nat.div_lt_iff_lt_mul hden).mp (lt_pow_width (num / den))
      have hwidth := width_pos (num / den)
      have hexp : (width (num / den) : Int) - 1 = ((width (num / den) - 1 : Nat) : Int) := by omega
      rw [Int.sub_add_cancel, hexp, zpow_natCast, zpow_natCast, le_div_iff₀ hd, div_lt_iff₀ hd]
      exact ⟨by exact_mod_cast hlow, by exact_mod_cast hhigh⟩
  · next hlt =>
      -- below one the reciprocal, rounded down from below, has the digits
      have hwhole : (den - 1) / num ≠ 0 := (Nat.div_pos (by omega) hnum).ne'
      have hlow := (Nat.le_div_iff_mul_le hnum).mp (pow_width_le hwhole)
      have hhigh := (Nat.div_lt_iff_lt_mul hnum).mp (lt_pow_width ((den - 1) / num))
      have hwidth := width_pos ((den - 1) / num)
      have hexp : -(width ((den - 1) / num) : Int) + 1 = -((width ((den - 1) / num) - 1 : Nat) : Int) := by
        omega
      rw [hexp, zpow_neg, zpow_neg, zpow_natCast, zpow_natCast, le_div_iff₀ hd, div_lt_iff₀ hd,
        inv_mul_le_iff₀ (hpow _), lt_inv_mul_iff₀ (hpow _)]
      have hlow' : 10 ^ (width ((den - 1) / num) - 1) * num < den := by omega
      have hhigh' : den ≤ 10 ^ width ((den - 1) / num) * num := by omega
      exact ⟨by exact_mod_cast hhigh', by exact_mod_cast hlow'⟩

/-! ## One grid -/

/-- A quotient lies between two neighbours on a grid, a fraction of the way from the lower one. -/
theorem exists_gridBelow (num : Nat) {den : Nat} (hden : 0 < den) (exponent : Int) :
    ∃ below rest unit, gridBelow num den exponent = (below, 2 * rest, unit) ∧ rest < unit ∧
      (num / den : ℚ) = (below + rest / unit) * 10 ^ exponent := by
  have hunit : 0 < den * 10 ^ exponent.toNat := Nat.mul_pos hden (Nat.pow_pos (by decide))
  refine ⟨_, _, _, rfl, Nat.mod_lt _ hunit, ?_⟩
  have hscaled : ((num * 10 ^ (-exponent).toNat : Nat) : ℚ) / (10 ^ exponent.toNat : Nat) =
      num * (10 ^ exponent)⁻¹ := by
    have hvalue := value_eq num (-exponent)
    rwa [value, numerator, denominator, Int.neg_neg, zpow_neg] at hvalue
  -- from here on only the equation of the division counts; the powers are kept closed, so that
  -- nothing evaluates them
  have hdiv := Nat.div_add_mod (num * 10 ^ (-exponent).toNat) (den * 10 ^ exponent.toNat)
  generalize num * 10 ^ (-exponent).toNat / (den * 10 ^ exponent.toNat) = below at hdiv ⊢
  generalize num * 10 ^ (-exponent).toNat % (den * 10 ^ exponent.toNat) = rest at hdiv ⊢
  generalize num * 10 ^ (-exponent).toNat = scaled at hscaled hdiv
  generalize 10 ^ exponent.toNat = power at hscaled hdiv hunit ⊢
  have hten : (0 : ℚ) < 10 ^ exponent := zpow_pos ten_pos _
  have hd : (0 : ℚ) < den := Nat.cast_pos.mpr hden
  have hpower : (0 : ℚ) < power := Nat.cast_pos.mpr (Nat.pos_of_mul_pos_left hunit)
  rw [← hdiv] at hscaled
  push_cast at hscaled ⊢
  field_simp at hscaled ⊢
  linarith

section Neighbours

variable {tie : Tie} {below rest unit : Nat}

theorem abs_below (below rest unit : Nat) :
    |(below : ℚ) - (below + rest / unit)| = rest / unit := by
  have hnonneg : (0 : ℚ) ≤ rest / unit := div_nonneg (Nat.cast_nonneg rest) (Nat.cast_nonneg unit)
  rw [sub_add_cancel_left, abs_neg, abs_of_nonneg hnonneg]

theorem abs_above (below : Nat) (h : rest < unit) :
    |((below + 1 : Nat) : ℚ) - (below + rest / unit)| = 1 - rest / unit := by
  have hle : (rest : ℚ) / unit ≤ 1 := by
    rw [div_le_one (Nat.cast_pos.mpr (Nat.zero_lt_of_lt h))]
    exact_mod_cast h.le
  rw [Nat.cast_succ, add_sub_add_left_eq_sub, abs_of_nonneg (by linarith)]

/-- A number up to the lower neighbour is at least as far away as that one. -/
theorem le_abs_of_le_below {n : Nat} (h : n ≤ below) :
    (rest / unit : ℚ) ≤ |(n : ℚ) - (below + rest / unit)| := by
  have hn : (n : ℚ) ≤ below := Nat.cast_le.mpr h
  exact le_trans (by linarith) (neg_le_abs _)

/-- A number from the upper neighbour on is at least as far away as that one. -/
theorem le_abs_of_below_lt {n : Nat} (h : below < n) :
    (1 - rest / unit : ℚ) ≤ |(n : ℚ) - (below + rest / unit)| := by
  have hn : ((below + 1 : Nat) : ℚ) ≤ n := Nat.cast_le.mpr h
  rw [Nat.cast_succ] at hn
  exact le_trans (by linarith) (le_abs_self _)

/-- The nearer one of two neighbours is no further away than either. -/
theorem abs_nearer_le (tie : Tie) (below : Nat) (h : rest < unit) :
    |(nearer tie below (2 * rest) unit : ℚ) - (below + rest / unit)| ≤ rest / unit ∧
      |(nearer tie below (2 * rest) unit : ℚ) - (below + rest / unit)| ≤ 1 - rest / unit := by
  have hunit : (0 : ℚ) < unit := Nat.cast_pos.mpr (Nat.zero_lt_of_lt h)
  rcases nearer_cases tie below (2 * rest) unit with ⟨hn, htwice⟩ | ⟨hn, htwice⟩
  · have hhalf : (rest : ℚ) / unit ≤ 1 - rest / unit := by
      rw [le_sub_iff_add_le, ← add_div, div_le_one hunit, ← two_mul]
      exact_mod_cast htwice
    rw [hn, abs_below]
    exact ⟨le_refl _, hhalf⟩
  · have hhalf : 1 - (rest : ℚ) / unit ≤ rest / unit := by
      rw [sub_le_iff_le_add, ← add_div, one_le_div hunit, ← two_mul]
      exact_mod_cast htwice
    rw [hn, abs_above below h]
    exact ⟨hhalf, le_refl _⟩

/-- Where what reads back has no hole around the exact value, the neighbour that is written is the
nearest number that reads back, and where none is written no number does. -/
theorem chosen?_cases {reads : Nat → Bool} (tie : Tie) (h : rest < unit)
    (hdown : ∀ n, n ≤ below → reads n → reads below)
    (hup : ∀ n, below < n → reads n → reads (below + 1)) :
    (∃ digits, chosen? tie reads (below, 2 * rest, unit) = some digits ∧ digits ≤ below + 1 ∧
      ∀ n, reads n →
        |(digits : ℚ) - (below + rest / unit)| ≤ |(n : ℚ) - (below + rest / unit)|) ∨
    (chosen? tie reads (below, 2 * rest, unit) = none ∧ ∀ n, ¬ reads n) := by
  -- whatever reads back has a neighbour of the word on its own side that does
  have hside (n : Nat) (hn : reads n) : n ≤ below ∧ reads below ∨ below < n ∧ reads (below + 1) := by
    rcases Nat.lt_or_ge below n with hlt | hle
    · exact Or.inr ⟨hlt, hup n hlt hn⟩
    · exact Or.inl ⟨hle, hdown n hle hn⟩
  cases hb : reads below <;> cases ha : reads (below + 1) <;>
    simp only [hb, ha, Bool.false_eq_true, and_false, and_true, or_false, false_or] at hside <;>
    simp only [chosen?, hb, ha]
  case false.false => exact Or.inr ⟨trivial, hside⟩
  case false.true =>
    -- all that read back lie above
    refine Or.inl ⟨below + 1, rfl, Nat.le_refl _, ?_⟩
    intro n hn
    rw [abs_above below h]
    exact le_abs_of_below_lt (hside n hn)
  case true.false =>
    -- all that read back lie below
    refine Or.inl ⟨below, rfl, Nat.le_succ _, ?_⟩
    intro n hn
    rw [abs_below]
    exact le_abs_of_le_below (hside n hn)
  case true.true =>
    -- both neighbours read back, and the nearer one is chosen
    obtain ⟨hlow, hhigh⟩ := abs_nearer_le tie below h
    refine Or.inl ⟨nearer tie below (2 * rest) unit, rfl, ?_, ?_⟩
    · rcases nearer_cases tie below (2 * rest) unit with ⟨heq, -⟩ | ⟨heq, -⟩ <;> omega
    · intro n hn
      rcases hside n hn with hle | hlt
      · exact le_trans hlow (le_abs_of_le_below hle)
      · exact le_trans hhigh (le_abs_of_below_lt hlt)

end Neighbours

variable {tie : Tie} {exponent : Int}

theorem value_le_value {m n : Nat} (h : m ≤ n) (exponent : Int) :
    value ⟨m, exponent⟩ ≤ value ⟨n, exponent⟩ := by
  rw [value_eq, value_eq]
  exact mul_le_mul_of_nonneg_right (Nat.cast_le.mpr h) (zpow_pos ten_pos _).le

/-- Whether a number on a grid is read back. -/
def readsBack (x : Binary64) (exponent : Int) (digits : Nat) : Bool :=
  toBinary64 x.negative ⟨digits, exponent⟩ = x

theorem readsBack_iff {n : Nat} : readsBack x exponent n ↔ ReadsAs ⟨n, exponent⟩ x := by
  rw [readsAs_iff, readsBack, decide_eq_true_eq]

theorem onGrid?_eq (tie : Tie) (x : Binary64) (exponent : Int) :
    onGrid? tie x exponent = (chosen? tie (readsBack x exponent)
      (gridBelow x.units Binary64.unitsPerOne exponent)).map (⟨·, exponent⟩) := rfl

/-- The decimal that is written on a grid is read back, it is at most one step above the exact value, and
no decimal on the grid that is read back is nearer. Where none is written, none is read back. -/
theorem onGrid?_cases (hx : x.isFinite) (tie : Tie) (exponent : Int) :
    (∃ digits, onGrid? tie x exponent = some ⟨digits, exponent⟩ ∧ ReadsAs ⟨digits, exponent⟩ x ∧
      ((digits : ℚ) - 1) * 10 ^ exponent ≤ x.magnitude ∧
      ∀ n, ReadsAs ⟨n, exponent⟩ x →
        |value ⟨digits, exponent⟩ - x.magnitude| ≤ |value ⟨n, exponent⟩ - x.magnitude|) ∨
    (onGrid? tie x exponent = none ∧ ∀ n, ¬ ReadsAs ⟨n, exponent⟩ x) := by
  obtain ⟨below, rest, unit, hgrid, hrest, hvalue⟩ :=
    exists_gridBelow x.units Binary64.unitsPerOne_pos exponent
  rw [← Binary64.magnitude] at hvalue
  have hten : (0 : ℚ) < 10 ^ exponent := zpow_pos ten_pos _
  have hunit : (0 : ℚ) < unit := Nat.cast_pos.mpr (Nat.zero_lt_of_lt hrest)
  have hfraction : (0 : ℚ) ≤ rest / unit ∧ (rest / unit : ℚ) ≤ 1 := by
    refine ⟨div_nonneg (Nat.cast_nonneg rest) hunit.le, ?_⟩
    rw [div_le_one hunit]
    exact_mod_cast hrest.le
  have hbelow : value ⟨below, exponent⟩ ≤ x.magnitude := by
    rw [value_eq, hvalue]
    exact mul_le_mul_of_nonneg_right (by linarith) hten.le
  have habove : x.magnitude ≤ value ⟨below + 1, exponent⟩ := by
    rw [value_eq, hvalue, Nat.cast_succ]
    exact mul_le_mul_of_nonneg_right (by linarith) hten.le
  -- on the grid, distances are those of the digits, scaled by the power of ten
  have hdistance (n : Nat) : |value ⟨n, exponent⟩ - x.magnitude| =
      |(n : ℚ) - (below + rest / unit)| * 10 ^ exponent := by
    rw [value_eq, hvalue, ← sub_mul, abs_mul, abs_of_pos hten]
  -- what reads back on one side takes the neighbour between it and the word with it
  have hdown (n : Nat) (hn : n ≤ below) (hreads : readsBack x exponent n) :
      readsBack x exponent below := by
    rw [readsBack_iff] at hreads ⊢
    exact hreads.inward hx (Or.inr ⟨value_le_value hn exponent, hbelow⟩)
  have hup (n : Nat) (hn : below < n) (hreads : readsBack x exponent n) :
      readsBack x exponent (below + 1) := by
    rw [readsBack_iff] at hreads ⊢
    exact hreads.inward hx (Or.inl ⟨habove, value_le_value hn exponent⟩)
  rw [onGrid?_eq, hgrid]
  rcases chosen?_cases tie hrest hdown hup with ⟨digits, hchosen, hle, hnearest⟩ | ⟨hchosen, hnone⟩
  · have hreads := readsBack_iff.mp (reads_of_chosen? hchosen)
    rw [hchosen]
    refine Or.inl ⟨digits, rfl, hreads, ?_, ?_⟩
    · have hcast : (digits : ℚ) ≤ below + 1 := by exact_mod_cast hle
      rw [hvalue]
      exact mul_le_mul_of_nonneg_right (by linarith) hten.le
    · intro n hn
      rw [hdistance, hdistance]
      exact mul_le_mul_of_nonneg_right (hnearest n (readsBack_iff.mpr hn)) hten.le
  · rw [hchosen]
    exact Or.inr ⟨rfl, fun n hn => hnone n (readsBack_iff.mpr hn)⟩

theorem spec_of_onGrid? (hx : x.isFinite) (h : onGrid? tie x exponent = some d) :
    ∃ digits, d = ⟨digits, exponent⟩ ∧ ((digits : ℚ) - 1) * 10 ^ exponent ≤ x.magnitude ∧
      ∀ n, ReadsAs ⟨n, exponent⟩ x →
        |d.value - x.magnitude| ≤ |value ⟨n, exponent⟩ - x.magnitude| := by
  rcases onGrid?_cases hx tie exponent with ⟨digits, hsome, -, hspec⟩ | ⟨hnone, -⟩
  · obtain rfl := Option.some.inj (h.symm.trans hsome)
    exact ⟨digits, rfl, hspec⟩
  · rw [h] at hnone
    cases hnone

theorem not_readsAs_of_onGrid? (hx : x.isFinite) (h : onGrid? tie x exponent = none) (n : Nat) :
    ¬ ReadsAs ⟨n, exponent⟩ x := by
  rcases onGrid?_cases hx tie exponent with ⟨digits, hsome, -⟩ | ⟨-, hnone⟩
  · rw [h] at hsome
    cases hsome
  · exact hnone n

/-! ## One grid after another -/

theorem firstGrid?_of_onGrid? {fuel : Nat} (h : onGrid? tie x exponent = some d) :
    firstGrid? tie x (fuel + 1) exponent = some d := by
  rw [firstGrid?, h, Option.orElse_some]

theorem firstGrid?_of_onGrid?_none {fuel : Nat} (h : onGrid? tie x exponent = none) :
    firstGrid? tie x (fuel + 1) exponent = firstGrid? tie x fuel (exponent - 1) := by
  rw [firstGrid?, h, Option.orElse_none]

/-- The first grid that has a decimal comes after grids that have none. -/
theorem firstGrid?_cases (tie : Tie) (x : Binary64) (fuel : Nat) (exponent : Int) :
    (∃ d, firstGrid? tie x fuel exponent = some d ∧ ∃ j < fuel,
      onGrid? tie x (exponent - j) = some d ∧ ∀ i < j, onGrid? tie x (exponent - i) = none) ∨
    (firstGrid? tie x fuel exponent = none ∧ ∀ i < fuel, onGrid? tie x (exponent - i) = none) := by
  induction fuel generalizing exponent with
  | zero => exact Or.inr ⟨rfl, fun i hi => absurd hi (Nat.not_lt_zero i)⟩
  | succ fuel ih =>
      cases hfirst : onGrid? tie x exponent with
      | some d =>
          refine Or.inl ⟨d, firstGrid?_of_onGrid? hfirst, 0, Nat.succ_pos fuel, ?_, ?_⟩
          · rw [Int.natCast_zero, Int.sub_zero, hfirst]
          · exact fun i hi => absurd hi (Nat.not_lt_zero i)
      | none =>
          -- the grids behind the first are those of the rest of the search
          have hmove (i : Nat) : exponent - 1 - (i : Int) = exponent - ((i + 1 : Nat) : Int) := by omega
          have hearlier {j : Nat} (h : ∀ i < j, onGrid? tie x (exponent - 1 - i) = none) :
              ∀ i < j + 1, onGrid? tie x (exponent - i) = none := by
            intro i hi
            cases i with
            | zero => rw [Int.natCast_zero, Int.sub_zero, hfirst]
            | succ i => rw [← hmove, h i (Nat.lt_of_succ_lt_succ hi)]
          rw [firstGrid?_of_onGrid?_none hfirst]
          rcases ih (exponent - 1) with ⟨d, hfound, j, hj, hd, hnone⟩ | ⟨hfound, hnone⟩
          · rw [hmove] at hd
            exact Or.inl ⟨d, hfound, j + 1, Nat.succ_lt_succ hj, hd, hearlier hnone⟩
          · exact Or.inr ⟨hfound, hearlier hnone⟩

/-! ## The fewest digits -/

/-- The power of ten of the leading digit of a word. -/
def leadingOf (x : Binary64) : Int := leadingPower x.units Binary64.unitsPerOne

theorem pow_leadingOf (h : x.units ≠ 0) :
    (10 : ℚ) ^ leadingOf x ≤ x.magnitude ∧ x.magnitude < (10 : ℚ) ^ (leadingOf x + 1) :=
  pow_leadingPower (Nat.pos_of_ne_zero h) Binary64.unitsPerOne_pos

/-- A decimal that is read as a word has a point on the grid for its number of digits that is read as the
word and is no further away: itself, or the power of ten where the word begins. -/
theorem exists_readsAs_on_grid (hx : x.isFinite) (h : x.units ≠ 0) (he : e.ReadsAs x) {j : Nat}
    (hj : width e.digits ≤ j + 1) :
    ∃ n, ReadsAs ⟨n, leadingOf x - j⟩ x ∧
      |value ⟨n, leadingOf x - j⟩ - x.magnitude| ≤ |e.value - x.magnitude| := by
  obtain ⟨digits, exponent⟩ := e
  have hj : width digits ≤ j + 1 := hj
  have hleading := (pow_leadingOf h).1
  generalize leadingOf x = power at hleading ⊢
  rcases Int.lt_or_le exponent (power - j) with hlow | hhigh
  · -- all of the digits stand below the leading one of the word
    have hpower : value ⟨10 ^ j, power - j⟩ = 10 ^ power := by
      rw [value_eq, Nat.cast_pow, ← zpow_natCast, Nat.cast_ofNat, ← zpow_add₀ ten_pos.ne',
        Int.add_comm, Int.sub_add_cancel]
    have hplaces : exponent + (width digits : Int) ≤ power := by omega
    have hbelow : value ⟨digits, exponent⟩ ≤ 10 ^ power :=
      le_trans (value_lt_pow digits exponent).le (zpow_le_zpow_right₀ (by norm_num) hplaces)
    refine ⟨10 ^ j, he.inward hx (Or.inr ?_), ?_⟩
    · rw [hpower]
      exact ⟨hbelow, hleading⟩
    · rw [hpower, abs_of_nonpos (by linarith), abs_of_nonpos (by linarith)]
      linarith
  · -- otherwise the decimal lies on the grid itself, with zeros behind its digits
    obtain ⟨k, hk⟩ := Int.eq_ofNat_of_zero_le (Int.sub_nonneg_of_le hhigh)
    obtain rfl : exponent = power - j + k := by omega
    have hsame := (sameValue_shift digits k (power - j)).value_eq
    refine ⟨digits * 10 ^ k, ?_, ?_⟩
    · rw [ReadsAs, ← hsame]
      exact he
    · rw [← hsame]

/-- Seventeen digits are enough. -/
theorem exists_readsAs_seventeen (hx : x.isFinite) (h : x.units ≠ 0) :
    ∃ n, ReadsAs ⟨n, leadingOf x - (16 : Nat)⟩ x := by
  obtain ⟨below, rest, unit, -, hrest, hvalue⟩ :=
    exists_gridBelow x.units Binary64.unitsPerOne_pos (leadingOf x - (16 : Nat))
  rw [← Binary64.magnitude] at hvalue
  have hten : (0 : ℚ) < 10 ^ (leadingOf x - (16 : Nat)) := zpow_pos ten_pos _
  have hsteps : 10 ^ 16 * (10 : ℚ) ^ (leadingOf x - (16 : Nat)) ≤ x.magnitude := by
    have hleading := (pow_leadingOf h).1
    have hpower : (10 : ℚ) ^ (16 : Nat) * 10 ^ (leadingOf x - (16 : Nat)) = 10 ^ leadingOf x := by
      rw [← zpow_natCast, ← zpow_add₀ ten_pos.ne', Int.add_comm, Int.sub_add_cancel]
    rwa [← hpower] at hleading
  -- the nearer neighbour is at most half a step away
  obtain ⟨hlow, hhigh⟩ := abs_nearer_le .away below hrest
  have hhalf : 2 * |(nearer .away below (2 * rest) unit : ℚ) - (below + rest / unit)| ≤ 1 := by
    linarith
  refine ⟨nearer .away below (2 * rest) unit, Binary64.Nearest.of_close ?_ ?_⟩
  · exact (Binary64.nearest_magnitude hx).notNaN
  · have hsteps' := mul_le_mul_of_nonneg_right hhalf hten.le
    rw [value_eq, hvalue, ← sub_mul, abs_mul, abs_of_pos hten, ← hvalue]
    generalize (10 : ℚ) ^ (leadingOf x - (16 : Nat)) = step at hten hsteps hsteps' ⊢
    linarith

/-- What is written comes from the first grid that has a decimal, and there is one. -/
theorem exists_grid_of_shortest (hx : x.isFinite) (h : x.units ≠ 0) (tie : Tie) :
    ∃ j d, shortest tie x = trim 1 d ∧ onGrid? tie x (leadingOf x - (j : Nat)) = some d ∧
      ∀ i < j, onGrid? tie x (leadingOf x - (i : Nat)) = none := by
  rcases firstGrid?_cases tie x 17 (leadingOf x) with ⟨d, hfound, j, -, hd, hnone⟩ | ⟨-, hnone⟩
  · refine ⟨j, d, ?_, hd, hnone⟩
    rw [leadingOf] at hfound
    rw [shortest, if_neg h, hfound]
  · obtain ⟨n, hn⟩ := exists_readsAs_seventeen hx h
    exact absurd hn (not_readsAs_of_onGrid? hx (hnone 16 (by decide)) n)

theorem value_trim (fuel : Nat) (d : Decimal) : (trim fuel d).value = d.value := by
  induction fuel generalizing d with
  | zero => rfl
  | succ fuel ih =>
      rw [trim]
      split
      · next h =>
          -- a zero at the end moves from the digits into the exponent
          have hmove := (sameValue_shift (d.digits / 10) 1 d.exponent).value_eq
          rw [Nat.pow_one, Nat.div_mul_cancel (Nat.dvd_of_mod_eq_zero h.2)] at hmove
          exact (ih _).trans hmove
      · rfl

theorem width_le_of_lt {n k : Nat} (hk : 0 < k) (h : n < 10 ^ k) : width n ≤ k :=
  Nat.toDigits_length 10 n k hk h

/-- A power of ten at the end of a grid loses its last zero. -/
theorem width_trim_le {j : Nat} (h : d.digits ≤ 10 ^ (j + 1)) : width (trim 1 d).digits ≤ j + 1 := by
  have hpow : 10 ^ (j + 1) = 10 * 10 ^ j := Nat.pow_succ'
  have hpos : 0 < 10 ^ j := Nat.pow_pos (by decide)
  apply width_le_of_lt (Nat.succ_pos j)
  rw [trim]
  split
  · show d.digits / 10 < 10 ^ (j + 1)
    omega
  · next hkeep =>
      rcases Nat.lt_or_eq_of_le h with hlt | heq
      · exact hlt
      · exact absurd ⟨by omega, by omega⟩ hkeep

/-- At most one step above a word the digits of a grid are at most the power of ten for their number. -/
theorem digits_le_of_step (h : x.units ≠ 0) {digits j : Nat}
    (hstep : ((digits : ℚ) - 1) * 10 ^ (leadingOf x - (j : Nat)) ≤ x.magnitude) :
    digits ≤ 10 ^ (j + 1) := by
  have hleading := (pow_leadingOf h).2
  generalize leadingOf x = power at hstep hleading
  have hpower : (10 : ℚ) ^ (power + 1) = 10 ^ (j + 1) * 10 ^ (power - (j : Nat)) := by
    rw [← zpow_natCast, ← zpow_add₀ ten_pos.ne']
    congr 1
    omega
  rw [hpower] at hleading
  have hdigits : (digits : ℚ) - 1 < 10 ^ (j + 1) :=
    lt_of_mul_lt_mul_right (lt_of_le_of_lt hstep hleading) (zpow_pos ten_pos _).le
  have hcast : (digits : ℚ) < ((10 ^ (j + 1) + 1 : Nat) : ℚ) := by
    push_cast
    linarith
  exact Nat.le_of_lt_succ (Nat.cast_lt.mp hcast)

/-- A decimal for a word: it is read back, no decimal of fewer digits is, and of those with as many digits
none is nearer to the exact value. -/
structure IsShortest (x : Binary64) (d : Decimal) : Prop where
  readsAs : d.ReadsAs x
  fewest : ∀ e : Decimal, e.ReadsAs x → width d.digits ≤ width e.digits
  nearest : ∀ e : Decimal, e.ReadsAs x → width e.digits = width d.digits →
    |d.value - x.magnitude| ≤ |e.value - x.magnitude|

/-- The decimal that is written for a finite word is a shortest one. -/
theorem isShortest_shortest (hx : x.isFinite) (tie : Tie) : IsShortest x (shortest tie x) := by
  have hreads : (shortest tie x).ReadsAs x := readsAs_iff.mpr (toBinary64_shortest tie hx)
  by_cases h : x.units = 0
  · -- zero is the one digit zero
    have hzero : shortest tie x = ⟨0, 0⟩ := if_pos h
    have hmagnitude : x.magnitude = 0 := by
      rw [Binary64.magnitude, h, Nat.cast_zero, zero_div]
    refine ⟨hreads, fun e _ => ?_, fun e _ _ => ?_⟩
    · rw [hzero]
      exact width_pos e.digits
    · rw [hzero, value_eq, Nat.cast_zero, zero_mul, hmagnitude, sub_zero, abs_zero]
      exact abs_nonneg _
  · obtain ⟨j, d, hshortest, hgrid, hnone⟩ := exists_grid_of_shortest hx h tie
    obtain ⟨digits, rfl, hstep, hnearest⟩ := spec_of_onGrid? hx hgrid
    have hwidth : width (shortest tie x).digits ≤ j + 1 := by
      rw [hshortest]
      exact width_trim_le (digits_le_of_step h hstep)
    refine ⟨hreads, ?_, ?_⟩
    · -- with fewer digits it would have a point on an earlier grid
      intro e he
      apply Nat.le_of_not_lt
      intro hlt
      have hpos := width_pos e.digits
      obtain ⟨n, hn, -⟩ := exists_readsAs_on_grid hx h he (j := width e.digits - 1) (by omega)
      exact not_readsAs_of_onGrid? hx (hnone _ (by omega)) n hn
    · -- one of the same width has a point on the same grid, and the digits were the nearest there
      intro e he heq
      rw [← heq] at hwidth
      obtain ⟨n, hn, hle⟩ := exists_readsAs_on_grid hx h he hwidth
      rw [hshortest, value_trim]
      exact le_trans (hnearest n hn) hle

end QCircuit.Decimal
