import Mathlib.Logic.Function.Basic
import QCircuit.Gate

/-!
# Bits along a row of gates

A row of controlled X and swap gates moves bits between the qubits of a register and adds them up; read so,
every qubit carries at each moment a bit of its own (`Bits.after`). A rotation about Z turns the phase of a
qubit by what bit it carries at that moment, and leaves the bit: the phases of a row are its Z rotations in
order, each with its angle, its qubit and the bit that is found there (`Bits.phases`).

A controlled X gate undoes itself (`Bits.through_cx_cx`). A block of gates that gives every assignment of
bits back as it was can be passed over, so the phases of such blocks are found block by block, from the bits
at the start (`Bits.phases_flatMap`).
-/

set_option autoImplicit false

namespace QCircuit

/-- A bit on each qubit. -/
abbrev Bits : Type := Qubit → Bool

/-- The qubits that a gate rotates about Z, with the angle. -/
def Gate.turnsAboutZ : Gate → List (Binary64 × Qubit)
  | .rotation .z angle targets => targets.map fun q => (angle.value, q)
  | _ => []

@[simp] theorem Gate.turnsAboutZ_rz (angle : Angle) (q : Qubit) :
    (Gate.rz angle q).turnsAboutZ = [(angle.value, q)] := rfl

@[simp] theorem Gate.turnsAboutZ_cx (control target : Qubit) :
    (Gate.cx control target).turnsAboutZ = [] := rfl

namespace Bits

/-- The bits after a gate. A controlled X gate adds the bit of its control to that of its target and a swap
gate exchanges two bits; all other gates are passed over. -/
def through (x : Bits) : Gate → Bits
  | .cx control target => Function.update x target (x target ^^ x control)
  | .swap a b => Function.update (Function.update x a (x b)) b (x a)
  | _ => x

@[simp] theorem through_cx (x : Bits) (control target : Qubit) :
    x.through (.cx control target) = Function.update x target (x target ^^ x control) := rfl

@[simp] theorem through_rz (x : Bits) (angle : Angle) (q : Qubit) : x.through (.rz angle q) = x := rfl

/-- Added twice, a bit is gone again. -/
theorem through_cx_cx (x : Bits) {control target : Qubit} (h : control ≠ target) :
    (x.through (.cx control target)).through (.cx control target) = x := by
  rw [through_cx, through_cx, Function.update_self, Function.update_of_ne h, Function.update_idem]
  -- the target carries its own bit and twice that of the control
  rw [Bool.xor_assoc, Bool.xor_self, Bool.xor_false, Function.update_eq_self]

/-- The bits after a row of gates. -/
def after (x : Bits) (gates : List Gate) : Bits := gates.foldl through x

/-- The rotations about Z in a row of gates, in order: the angle, the qubit and the bit that the qubit
carries by then. -/
def phases (x : Bits) : List Gate → List (Binary64 × Qubit × Bool)
  | [] => []
  | g :: rest => (g.turnsAboutZ.map fun (angle, q) => (angle, q, x q)) ++ phases (x.through g) rest

theorem after_append (x : Bits) (before after : List Gate) :
    x.after (before ++ after) = (x.after before).after after := List.foldl_append

theorem phases_append (x : Bits) (before after : List Gate) :
    x.phases (before ++ after) = x.phases before ++ (x.after before).phases after := by
  induction before generalizing x with
  | nil => rfl
  | cons g rest ih =>
      rw [List.cons_append, phases, phases, ih, List.append_assoc]
      rfl

/-! ## Blocks that give the bits back -/

variable {α : Type} {block : α → List Gate} {row : List α}

theorem after_flatMap (h : ∀ a ∈ row, ∀ x : Bits, x.after (block a) = x) (x : Bits) :
    x.after (row.flatMap block) = x := by
  induction row with
  | nil => rfl
  | cons a rest ih =>
      obtain ⟨hfirst, hrest⟩ := List.forall_mem_cons.mp h
      rw [List.flatMap_cons, after_append, hfirst, ih hrest]

/-- Blocks that give the bits back have their phases as if each stood at the start. -/
theorem phases_flatMap (h : ∀ a ∈ row, ∀ x : Bits, x.after (block a) = x) (x : Bits) :
    x.phases (row.flatMap block) = row.flatMap fun a => x.phases (block a) := by
  induction row with
  | nil => rfl
  | cons a rest ih =>
      obtain ⟨hfirst, hrest⟩ := List.forall_mem_cons.mp h
      rw [List.flatMap_cons, phases_append, hfirst, ih hrest, List.flatMap_cons]

end Bits

end QCircuit
