import QCircuit.Decimal.Shortest
import QCircuit.Proofs.Binary64.Order

/-!
# Decimals that read back

The word a decimal reads as depends on its value alone (`Decimal.SameValue.toBinary64_eq`), however the
value is split into digits and a power of ten. The decimal written for a finite word has a value that
reads back as the word (`Decimal.toBinary64_shortest`), whichever grid it is found on: a point of a grid
is written only after it was read back, and where no grid has one the exact value is written.
-/

set_option autoImplicit false

namespace QCircuit.Decimal

/-! ## Values -/

/-- Two decimals of one value. -/
def SameValue (d e : Decimal) : Prop := d.numerator * e.denominator = e.numerator * d.denominator

theorem denominator_pos (d : Decimal) : 0 < d.denominator := Nat.pow_pos (by decide)

theorem SameValue.refl (d : Decimal) : SameValue d d := rfl

theorem SameValue.symm {d e : Decimal} (h : SameValue d e) : SameValue e d := Eq.symm h

/-- Decimals of one value read as one word. -/
theorem SameValue.toBinary64_eq {d e : Decimal} (h : SameValue d e) (negative : Bool) :
    toBinary64 negative d = toBinary64 negative e :=
  congrArg (Binary64.ofPlace negative)
    (Binary64.placeOfRatio_congr d.denominator_pos e.denominator_pos h)

/-- A power of ten may move from the exponent into the digits. -/
theorem sameValue_shift (digits k : Nat) (exponent : Int) :
    SameValue ⟨digits, exponent + k⟩ ⟨digits * 10 ^ k, exponent⟩ := by
  have hpow : (exponent + k).toNat + (-exponent).toNat =
      k + exponent.toNat + (-(exponent + k)).toNat := by omega
  unfold SameValue numerator denominator
  dsimp only
  rw [Nat.mul_assoc, ← Nat.pow_add, hpow, Nat.pow_add, Nat.pow_add, ← Nat.mul_assoc, ← Nat.mul_assoc]

/-! ## What is written for a word -/

theorem toBinary64_trim (fuel : Nat) (negative : Bool) (d : Decimal) :
    toBinary64 negative (trim fuel d) = toBinary64 negative d := by
  induction fuel generalizing d with
  | zero => rfl
  | succ fuel ih =>
      rw [trim]
      split
      · -- a zero at the end moves from the digits into the exponent
        rename_i h
        have hmove := sameValue_shift (d.digits / 10) 1 d.exponent
        rw [Nat.pow_one, Nat.div_mul_cancel (Nat.dvd_of_mod_eq_zero h.2)] at hmove
        exact (ih _).trans (hmove.toBinary64_eq negative)
      · rfl

/-- A neighbour is chosen where both will do, so the choice is one of the two, and not the further one. -/
theorem nearer_cases (tie : Tie) (below twice divisor : Nat) :
    nearer tie below twice divisor = below ∧ twice ≤ divisor ∨
      nearer tie below twice divisor = below + 1 ∧ divisor ≤ twice := by
  unfold nearer
  split
  · next hlt => exact Or.inl ⟨rfl, Nat.le_of_lt hlt⟩
  · next hle =>
      split
      · next hlt => exact Or.inr ⟨rfl, Nat.le_of_lt hlt⟩
      · cases tie with
        | toEven =>
            dsimp only
            omega
        | away => exact Or.inr ⟨rfl, Nat.le_of_not_lt hle⟩

/-- A neighbour is written only if it reads back. -/
theorem reads_of_chosen? {tie : Tie} {reads : Nat → Bool} {grid : Nat × Nat × Nat} {digits : Nat}
    (h : chosen? tie reads grid = some digits) : reads digits = true := by
  obtain ⟨below, twice, divisor⟩ := grid
  simp only [chosen?] at h
  split at h
  case h_1 hbelow habove =>
    cases h
    rcases nearer_cases tie below twice divisor with ⟨hn, -⟩ | ⟨hn, -⟩
    · rw [hn]
      exact hbelow
    · rw [hn]
      exact habove
  case h_2 hbelow _ =>
    cases h
    exact hbelow
  case h_3 _ habove =>
    cases h
    exact habove
  case h_4 => cases h

theorem toBinary64_of_onGrid? {tie : Tie} {x : Binary64} {exponent : Int} {d : Decimal}
    (h : onGrid? tie x exponent = some d) : toBinary64 x.negative d = x := by
  unfold onGrid? at h
  obtain ⟨digits, hchosen, rfl⟩ := Option.map_eq_some_iff.mp h
  exact of_decide_eq_true (reads_of_chosen? hchosen)

theorem toBinary64_of_firstGrid? {tie : Tie} {x : Binary64} {d : Decimal} {fuel : Nat} {exponent : Int}
    (h : firstGrid? tie x fuel exponent = some d) : toBinary64 x.negative d = x := by
  induction fuel generalizing exponent with
  | zero => cases h
  | succ fuel ih =>
      rw [firstGrid?] at h
      cases hgrid : onGrid? tie x exponent with
      | some e =>
          rw [hgrid] at h
          cases h
          exact toBinary64_of_onGrid? hgrid
      | none =>
          rw [hgrid] at h
          exact ih h

/-- The exact value reads back: `5 ^ 1074` is a common factor of it and of its divisor. -/
theorem toBinary64_exact {x : Binary64} (h : x.isFinite) : toBinary64 x.negative (exact x) = x := by
  -- both facts at every power, so that no power of this size is formed
  have hpow : ∀ k : Nat, 10 ^ k = 2 ^ k * 5 ^ k := Nat.mul_pow 2 5
  have hfive : ∀ k : Nat, 0 < 5 ^ k := fun _ => Nat.pow_pos (by decide)
  have hden : (exact x).denominator = Binary64.unitsPerOne * 5 ^ 1074 := by
    have hexp : (-(exact x).exponent).toNat = 1074 := rfl
    rw [denominator, hexp, Binary64.unitsPerOne]
    exact hpow 1074
  have hnum : (exact x).numerator = x.units * 5 ^ 1074 := by
    have hexp : (exact x).exponent.toNat = 0 := rfl
    rw [numerator, hexp, Nat.pow_zero, Nat.mul_one, exact]
  rw [toBinary64, hnum, hden, Binary64.ofRatio,
    Binary64.placeOfRatio_mul_right _ _ (hfive 1074)]
  exact Binary64.ofRatio_units h

theorem toBinary64_zero {x : Binary64} (h : x.isFinite) (hz : x.units = 0) :
    toBinary64 x.negative ⟨0, 0⟩ = x := by
  have hvalue : SameValue ⟨0, 0⟩ (exact x) := by
    simp only [SameValue, numerator, exact, hz, Nat.zero_mul]
  exact (hvalue.toBinary64_eq _).trans (toBinary64_exact h)

/-- The decimal written for a finite word reads back as the word. -/
theorem toBinary64_shortest (tie : Tie) {x : Binary64} (h : x.isFinite) :
    toBinary64 x.negative (shortest tie x) = x := by
  unfold shortest
  split
  case isTrue hz => exact toBinary64_zero h hz
  case isFalse =>
    split
    case h_1 hgrid =>
      rw [toBinary64_trim]
      exact toBinary64_of_firstGrid? hgrid
    case h_2 => exact toBinary64_exact h

end QCircuit.Decimal
