import QCircuit.Binary64.Rounding
import Mathlib.Tactic.SplitIfs

/-!
# Rounding and the order of words

A word is a sign and a place in the order of magnitudes (`Binary64.place`). Rounding a quotient to a
place depends on the quotient alone (`Binary64.placeOfRatio_congr`), is monotone
(`Binary64.placeOfRatio_mono`) and finds every finite word from its own magnitude
(`Binary64.placeOfRatio_units`). What is rounded is therefore at most any word that is at least the
quotient, so a quotient up to some finite word stays finite (`Binary64.isFinite_ofRatio`).
-/

set_option autoImplicit false

namespace QCircuit.Binary64

/-! ## Places -/

/-- The place of a word in the order of magnitudes. -/
def place (x : Binary64) : Nat := x.exponentField * 2 ^ 52 + x.fractionField

theorem fractionField_lt (x : Binary64) : x.fractionField < 2 ^ 52 :=
  Nat.mod_lt _ (Nat.two_pow_pos 52)

/-- The place is what the sign bit leaves of the bits. -/
theorem place_eq_mod (x : Binary64) : x.place = x.bits.toNat % 2 ^ 63 := by
  unfold place exponentField fractionField
  omega

theorem bits_eq (x : Binary64) :
    x.bits.toNat = (if x.negative then 2 ^ 63 else 0) + x.place := by
  have hlt : x.bits.toNat < 2 ^ 64 := x.bits.toNat_lt
  rw [place_eq_mod]
  by_cases hn : 2 ^ 63 ≤ x.bits.toNat
  · simp only [negative, hn, decide_true, if_true]
    omega
  · simp only [negative, hn, decide_false, Bool.false_eq_true, if_false]
    omega

theorem eq_of_place {x y : Binary64} (hn : x.negative = y.negative) (hp : x.place = y.place) :
    x = y := by
  have h : x.bits.toNat = y.bits.toNat := by rw [bits_eq x, bits_eq y, hn, hp]
  cases x
  cases y
  exact congrArg Binary64.mk (UInt64.toNat_inj.mp h)

theorem isFinite_iff_place_lt (x : Binary64) : x.isFinite ↔ x.place < 2047 * 2 ^ 52 := by
  have hf := fractionField_lt x
  simp only [isFinite, decide_eq_true_eq, place]
  omega

theorem toNat_ofPlace (negative : Bool) (p : Nat) :
    (ofPlace negative p).bits.toNat =
      (if negative then 2 ^ 63 else 0) + min p (2047 * 2 ^ 52) := by
  have hlt : (if negative then 2 ^ 63 else 0) + min p (2047 * 2 ^ 52) < 2 ^ 64 := by
    split <;> omega
  simpa only [ofPlace, UInt64.toNat_ofNat'] using Nat.mod_eq_of_lt hlt

@[simp] theorem place_ofPlace (negative : Bool) (p : Nat) :
    (ofPlace negative p).place = min p (2047 * 2 ^ 52) := by
  rw [place_eq_mod, toNat_ofPlace]
  split <;> omega

@[simp] theorem negative_ofPlace (negative : Bool) (p : Nat) :
    (ofPlace negative p).negative = negative := by
  cases negative with
  | true =>
      simp only [Binary64.negative, toNat_ofPlace, if_true, decide_eq_true_eq]
      omega
  | false =>
      simp only [Binary64.negative, toNat_ofPlace, Bool.false_eq_true, if_false,
        decide_eq_false_iff_not]
      omega

/-- A finite word is found at its place. -/
theorem ofPlace_place {x : Binary64} (h : x.isFinite) : ofPlace x.negative x.place = x := by
  have hp := (isFinite_iff_place_lt x).mp h
  refine eq_of_place (negative_ofPlace _ _) ?_
  rw [place_ofPlace]
  omega

/-! ## The nearest whole number -/

theorem roundHalfEven_bounds (num den : Nat) :
    num / den ≤ roundHalfEven num den ∧ roundHalfEven num den ≤ num / den + 1 := by
  unfold roundHalfEven
  dsimp only
  split
  · omega
  · split <;> omega

/-- A common factor has no say. -/
theorem roundHalfEven_mul_right (num den : Nat) {k : Nat} (hk : 0 < k) :
    roundHalfEven (num * k) (den * k) = roundHalfEven num den := by
  have hdiv : num * k / (den * k) = num / den := Nat.mul_div_mul_right num den hk
  have hmod : 2 * (num * k % (den * k)) = 2 * (num % den) * k := by
    rw [Nat.mul_mod_mul_right, Nat.mul_assoc]
  simp only [roundHalfEven, hdiv, hmod, Nat.mul_lt_mul_right hk]

/-- A whole number is its own rounding. -/
theorem roundHalfEven_mul_self (q : Nat) {den : Nat} (hd : 0 < den) :
    roundHalfEven (q * den) den = q := by
  have hdiv : q * den / den = q := Nat.mul_div_cancel q hd
  have hmod : q * den % den = 0 := Nat.mul_mod_left q den
  simp only [roundHalfEven, hdiv, hmod, Nat.mul_zero, hd, if_true]

theorem roundHalfEven_mono {num num' : Nat} (den : Nat) (h : num ≤ num') :
    roundHalfEven num den ≤ roundHalfEven num' den := by
  have hdiv : num / den ≤ num' / den := Nat.div_le_div_right h
  rcases Nat.lt_or_eq_of_le hdiv with hlt | heq
  · -- the smaller one is rounded up at most to where the greater one is rounded down
    have hup := (roundHalfEven_bounds num den).2
    have hlow := (roundHalfEven_bounds num' den).1
    omega
  · -- over one quotient the remainders are ordered, and so are the three outcomes
    have hmod : num % den ≤ num' % den := by
      have h1 := Nat.div_add_mod num den
      have h2 := Nat.div_add_mod num' den
      rw [← heq] at h2
      omega
    simp only [roundHalfEven, ← heq]
    split_ifs <;> omega

/-! ## Quotients -/

/-- The unit of rounding takes the quotient below `2 ^ 53`. -/
theorem quotient_lt (num den : Nat) :
    num * unitsPerOne / (den * 2 ^ shiftOf num den) < 2 ^ 53 := by
  have hlog : num * unitsPerOne / den < 2 ^ (53 + shiftOf num den) := by
    refine Nat.lt_of_lt_of_le Nat.lt_log2_self (Nat.pow_le_pow_right (by decide) ?_)
    unfold shiftOf
    omega
  rw [← Nat.div_div_eq_div_mul, Nat.div_lt_iff_lt_mul (Nat.two_pow_pos _), ← Nat.pow_add]
  exact hlog

/-- Where the unit is not the least one, the quotient is at least `2 ^ 52` units. -/
theorem le_quotient (num den : Nat) (h : 0 < shiftOf num den) :
    2 ^ 52 ≤ num * unitsPerOne / (den * 2 ^ shiftOf num den) := by
  have hne : num * unitsPerOne / den ≠ 0 := by
    intro hz
    simp [shiftOf, hz] at h
  have hlog : 2 ^ (52 + shiftOf num den) ≤ num * unitsPerOne / den := by
    refine Nat.le_trans (Nat.pow_le_pow_right (by decide) ?_) (Nat.log2_self_le hne)
    unfold shiftOf at h ⊢
    omega
  rw [← Nat.div_div_eq_div_mul, Nat.le_div_iff_mul_le (Nat.two_pow_pos _), ← Nat.pow_add]
  exact hlog

theorem roundHalfEven_le (num den : Nat) :
    roundHalfEven (num * unitsPerOne) (den * 2 ^ shiftOf num den) ≤ 2 ^ 53 := by
  have hup := (roundHalfEven_bounds (num * unitsPerOne) (den * 2 ^ shiftOf num den)).2
  have hquotient := quotient_lt num den
  omega

theorem le_roundHalfEven (num den : Nat) (h : 0 < shiftOf num den) :
    2 ^ 52 ≤ roundHalfEven (num * unitsPerOne) (den * 2 ^ shiftOf num den) :=
  Nat.le_trans (le_quotient num den h)
    (roundHalfEven_bounds (num * unitsPerOne) (den * 2 ^ shiftOf num den)).1

theorem shiftOf_mul_right (num den : Nat) {k : Nat} (hk : 0 < k) :
    shiftOf (num * k) (den * k) = shiftOf num den := by
  unfold shiftOf
  rw [Nat.mul_right_comm num k, Nat.mul_div_mul_right _ _ hk]

theorem placeOfRatio_mul_right (num den : Nat) {k : Nat} (hk : 0 < k) :
    placeOfRatio (num * k) (den * k) = placeOfRatio num den := by
  unfold placeOfRatio
  dsimp only
  rw [shiftOf_mul_right num den hk, Nat.mul_right_comm num k, Nat.mul_right_comm den k,
    roundHalfEven_mul_right _ _ hk]

/-- Equal quotients have the same place. -/
theorem placeOfRatio_congr {num den num' den' : Nat} (hd : 0 < den) (hd' : 0 < den')
    (h : num * den' = num' * den) : placeOfRatio num den = placeOfRatio num' den' := by
  rw [← placeOfRatio_mul_right num den hd', ← placeOfRatio_mul_right num' den' hd, h,
    Nat.mul_comm den den']

/-- A greater quotient over one divisor has no lower place: either the unit is the same, or the smaller
quotient is at most `2 ^ 53` of its units and the greater at least `2 ^ 52` of a unit twice as large. -/
theorem placeOfRatio_le_of_le {num num' : Nat} (den : Nat) (h : num ≤ num') :
    placeOfRatio num den ≤ placeOfRatio num' den := by
  have hquot : num * unitsPerOne / den ≤ num' * unitsPerOne / den :=
    Nat.div_le_div_right (Nat.mul_le_mul_right _ h)
  -- the unit grows with the quotient, and a quotient of zero has the least unit
  have hshift : shiftOf num den ≤ shiftOf num' den := by
    rcases Nat.eq_zero_or_pos (num * unitsPerOne / den) with hz | hpos
    · simp [shiftOf, hz]
    · have hlog : (num * unitsPerOne / den).log2 ≤ (num' * unitsPerOne / den).log2 :=
        (Nat.le_log2 (by omega)).mpr (Nat.le_trans (Nat.log2_self_le (by omega)) hquot)
      unfold shiftOf
      omega
  unfold placeOfRatio
  dsimp only
  rcases Nat.lt_or_eq_of_le hshift with hlt | heq
  · have hup := roundHalfEven_le num den
    have hlow := le_roundHalfEven num' den (Nat.zero_lt_of_lt hlt)
    omega
  · rw [← heq]
    exact Nat.add_le_add_left (roundHalfEven_mono _ (Nat.mul_le_mul_right _ h)) _

/-- The place is monotone in the quotient. -/
theorem placeOfRatio_mono {num den num' den' : Nat} (hd : 0 < den) (hd' : 0 < den')
    (h : num * den' ≤ num' * den) : placeOfRatio num den ≤ placeOfRatio num' den' := by
  rw [← placeOfRatio_mul_right num den hd', ← placeOfRatio_mul_right num' den' hd,
    Nat.mul_comm den' den]
  exact placeOfRatio_le_of_le _ h

/-! ## Words and their own magnitudes -/

theorem unitsPerOne_pos : 0 < unitsPerOne := by
  rw [unitsPerOne]
  apply Nat.two_pow_pos

theorem units_of_exponentField_zero {x : Binary64} (h : x.exponentField = 0) :
    x.units = x.fractionField := if_pos h

theorem units_of_exponentField_succ {x : Binary64} {e : Nat} (h : x.exponentField = e + 1) :
    x.units = (2 ^ 52 + x.fractionField) * 2 ^ e := by
  simp [units, h]

/-- A magnitude is rounded to the place of its word. -/
theorem placeOfRatio_units (x : Binary64) : placeOfRatio x.units unitsPerOne = x.place := by
  have hf := fractionField_lt x
  have hquot : x.units * unitsPerOne / unitsPerOne = x.units :=
    Nat.mul_div_cancel _ unitsPerOne_pos
  cases he : x.exponentField with
  | zero =>
      -- without a leading one the unit is the least, and the magnitude is a whole number of it
      have hu := units_of_exponentField_zero he
      have hshift : shiftOf x.units unitsPerOne = 0 := by
        rw [shiftOf, hquot, hu]
        rcases Nat.eq_zero_or_pos x.fractionField with hz | hpos
        · simp [hz]
        · have hlog := (Nat.log2_lt (Nat.ne_of_gt hpos)).mpr hf
          omega
      simp only [placeOfRatio, hshift, Nat.zero_mul, Nat.pow_zero, Nat.mul_one, Nat.zero_add,
        roundHalfEven_mul_self _ unitsPerOne_pos, place, he]
      exact hu
  | succ e =>
      -- with a leading one the magnitude has fifty-three bits of the unit that lies `e` places above
      have hu := units_of_exponentField_succ he
      have hlow : 2 ^ (52 + e) ≤ x.units := by
        rw [hu, Nat.pow_add]
        exact Nat.mul_le_mul_right _ (Nat.le_add_right _ _)
      have hhigh : x.units < 2 ^ (52 + e + 1) := by
        rw [hu, Nat.add_right_comm, Nat.pow_add]
        exact Nat.mul_lt_mul_of_pos_right (by omega) (Nat.two_pow_pos e)
      have hne : x.units ≠ 0 := Nat.ne_of_gt (Nat.lt_of_lt_of_le (Nat.two_pow_pos _) hlow)
      have hshift : shiftOf x.units unitsPerOne = e := by
        rw [shiftOf, hquot, (Nat.log2_eq_iff hne).mpr ⟨hlow, hhigh⟩]
        omega
      have hround : roundHalfEven (x.units * unitsPerOne) (unitsPerOne * 2 ^ e) =
          2 ^ 52 + x.fractionField := by
        rw [hu, Nat.mul_assoc, Nat.mul_comm (2 ^ e) unitsPerOne]
        exact roundHalfEven_mul_self _ (Nat.mul_pos unitsPerOne_pos (Nat.two_pow_pos e))
      simp only [placeOfRatio, hshift, hround, place, he]
      omega

/-- A finite word is its own rounding. -/
theorem ofRatio_units {x : Binary64} (h : x.isFinite) :
    ofRatio x.negative x.units unitsPerOne = x := by
  rw [ofRatio, placeOfRatio_units, ofPlace_place h]

/-- The order of places is the order of magnitudes. -/
theorem place_le_of_units_le {x y : Binary64} (h : x.units ≤ y.units) : x.place ≤ y.place := by
  rw [← placeOfRatio_units x, ← placeOfRatio_units y]
  exact placeOfRatio_le_of_le _ h

theorem units_lt_of_place_lt {x y : Binary64} (h : x.place < y.place) : x.units < y.units := by
  refine Nat.lt_of_not_le fun hle => ?_
  have hplace := place_le_of_units_le hle
  omega

/-- A quotient up to a finite word is rounded to a word up to it. -/
theorem place_ofRatio_le (negative : Bool) {num den : Nat} {y : Binary64} (hd : 0 < den)
    (h : num * unitsPerOne ≤ y.units * den) : (ofRatio negative num den).place ≤ y.place := by
  have hmono := placeOfRatio_mono hd unitsPerOne_pos h
  rw [placeOfRatio_units] at hmono
  rw [ofRatio, place_ofPlace]
  omega

theorem isFinite_ofRatio (negative : Bool) {num den : Nat} {y : Binary64} (hy : y.isFinite)
    (hd : 0 < den) (h : num * unitsPerOne ≤ y.units * den) :
    (ofRatio negative num den).isFinite := by
  have hle := place_ofRatio_le negative hd h
  have hlt := (isFinite_iff_place_lt y).mp hy
  exact (isFinite_iff_place_lt _).mpr (Nat.lt_of_le_of_lt hle hlt)

end QCircuit.Binary64
