import QCircuit.Binary64.Rounding

/-!
# Angle sources

A source of random angles is seen only through its draws: each draw gives an angle in radians and the
state of the source after it. Whoever takes angles from a source returns its state, so the number of
draws that were made can be read off it.
-/

set_option autoImplicit false

namespace QCircuit

/-- A source of angles with states of type `σ`. -/
structure AngleSource (σ : Type) where
  draw : σ → Binary64 × σ

namespace AngleSource

variable {σ : Type}

/-- A number of draws, in order, and the state after them. -/
def take (source : AngleSource σ) : Nat → σ → List Binary64 × σ
  | 0, s => ([], s)
  | n + 1, s =>
      let (angle, s) := source.draw s
      let (angles, s) := source.take n s
      (angle :: angles, s)

/-- Every draw that is asked for is made. -/
theorem length_take (source : AngleSource σ) (n : Nat) (s : σ) :
    (source.take n s).1.length = n := by
  induction n generalizing s with
  | zero => rfl
  | succ n ih => simp [take, ih]

end AngleSource

end QCircuit
