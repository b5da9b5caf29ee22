import QCircuit.Draw.Xoshiro
import QCircuit.Proofs.Binary64.Order

/-!
# Angles within a turn

A source of angles is asked for angles from zero up to a full turn (`AngleSource.WithinTurn`). Twice
such an angle is still finite, and so is half a turn divided by a power of two. The xoshiro256++ source
keeps to the range: its greatest fraction of a turn is rounded below the full turn.
-/

set_option autoImplicit false

namespace QCircuit

namespace Binary64

/-- A finite word of a value from zero up to a full turn. Of the words with a minus sign only the zero
has such a value; the word `tau` has one, being rounded down from a full turn. -/
structure WithinTurn (x : Binary64) : Prop where
  finite : x.isFinite
  nonneg : x.negative → x.units = 0
  le_tau : x.units ≤ tau.units

/-- A word above two turns. -/
def sixteen : Binary64 := ⟨0x4030000000000000⟩

theorem isFinite_double {x : Binary64} (h : x.WithinTurn) : x.double.isFinite := by
  have hle := h.le_tau
  have htau : 2 * tau.units ≤ sixteen.units := by decide +kernel
  rw [double, if_pos h.finite]
  refine isFinite_ofRatio _ (y := sixteen) (by decide) unitsPerOne_pos ?_
  exact Nat.mul_le_mul_right _ (by omega)

theorem isFinite_negDivTwoPow {x : Binary64} (h : x.isFinite) (k : Nat) :
    (x.negDivTwoPow k).isFinite := by
  unfold negDivTwoPow
  split
  · refine isFinite_ofRatio _ h (Nat.mul_pos unitsPerOne_pos (Nat.two_pow_pos k)) ?_
    rw [← Nat.mul_assoc]
    exact Nat.le_mul_of_pos_right _ (Nat.two_pow_pos k)
  · cases hn : x.negative <;> decide

end Binary64

/-- Every draw is an angle within a turn. -/
def AngleSource.WithinTurn {σ : Type} (source : AngleSource σ) : Prop :=
  ∀ s, (source.draw s).1.WithinTurn

theorem AngleSource.withinTurn_of_mem_take {σ : Type} {source : AngleSource σ}
    (h : source.WithinTurn) {n : Nat} {s : σ} {angle : Binary64}
    (ha : angle ∈ (source.take n s).1) : angle.WithinTurn := by
  induction n generalizing s with
  | zero => cases ha
  | succ n ih =>
      rcases List.mem_cons.mp ha with rfl | ha
      · exact h s
      · exact ih ha

namespace Xoshiro

/-- The word below the full turn. -/
def belowTau : Binary64 := ⟨0x401921FB54442D17⟩

/-- A word of the generator gives an angle within a turn. -/
theorem withinTurn_angle (word : UInt64) : (angle word).WithinTurn := by
  have hword : word.toNat / 2 ^ 12 ≤ 2 ^ 52 - 1 := by
    have hlt := word.toNat_lt
    omega
  -- even the greatest fraction of a turn is at most a finite word below it
  have hgreatest : (2 ^ 52 - 1) * Binary64.tau.units ≤ belowTau.units * 2 ^ 52 := by
    decide +kernel
  have hbound : word.toNat / 2 ^ 12 * Binary64.tau.units * Binary64.unitsPerOne ≤
      belowTau.units * (2 ^ 52 * Binary64.unitsPerOne) := by
    rw [← Nat.mul_assoc]
    exact Nat.mul_le_mul_right _ (Nat.le_trans (Nat.mul_le_mul_right _ hword) hgreatest)
  have hpos : 0 < 2 ^ 52 * Binary64.unitsPerOne :=
    Nat.mul_pos (Nat.two_pow_pos 52) Binary64.unitsPerOne_pos
  have hplace := Binary64.place_ofRatio_le Binary64.tau.negative hpos hbound
  refine ⟨Binary64.isFinite_ofRatio _ (by decide) hpos hbound, ?_, ?_⟩
  · intro hn
    rw [angle, Binary64.scale, Binary64.ofRatio, Binary64.negative_ofPlace] at hn
    exact absurd hn (by decide)
  · have htau : belowTau.place < Binary64.tau.place := by decide
    exact Nat.le_of_lt (Binary64.units_lt_of_place_lt (Nat.lt_of_le_of_lt hplace htau))

theorem withinTurn_angles : angles.WithinTurn := fun x => withinTurn_angle x.next.1

end Xoshiro

end QCircuit
