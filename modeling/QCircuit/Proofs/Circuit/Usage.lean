import Mathlib.Data.List.Sort
import QCircuit.Circuit

/-!
# Qubits in use

The qubits that a circuit uses are those that some gate names (`Circuit.mem_qubitsUsed`), each listed
once and in ascending order (`Circuit.ascending_qubitsUsed`). An ascending list is determined by its
members, so a circuit whose gates name every qubit of a register, and no other, uses the whole register
in its order (`Circuit.qubitsUsed_eq_range`).
-/

set_option autoImplicit false

namespace QCircuit

/-! ## One insertion -/

theorem mem_insertAscending {p q : Qubit} {list : List Qubit} :
    p ∈ insertAscending q list ↔ p = q ∨ p ∈ list := by
  induction list with
  | nil => simp [insertAscending]
  | cons first rest ih =>
      -- the three places for the new qubit: in front, on an equal one, or further back
      rw [insertAscending]
      split
      · exact List.mem_cons
      · split
        · next heq => simp [heq]
        · rw [List.mem_cons, ih, List.mem_cons]
          exact or_left_comm

theorem ascending_insertAscending {q : Qubit} {list : List Qubit} (h : list.Pairwise (· < ·)) :
    (insertAscending q list).Pairwise (· < ·) := by
  induction list with
  | nil => exact List.pairwise_singleton _ _
  | cons first rest ih =>
      obtain ⟨hfirst, hrest⟩ := List.pairwise_cons.mp h
      rw [insertAscending]
      split
      · next hlt =>
          refine List.pairwise_cons.mpr ⟨?_, h⟩
          intro p hp
          rcases List.mem_cons.mp hp with rfl | hp
          · exact hlt
          · exact Nat.lt_trans hlt (hfirst p hp)
      · split
        · exact h
        · next hle hne =>
            -- the new qubit goes behind the first, which is below it and below the rest
            refine List.pairwise_cons.mpr ⟨?_, ih hrest⟩
            intro p hp
            rcases mem_insertAscending.mp hp with rfl | hp
            · exact Nat.lt_of_le_of_ne (Nat.le_of_not_lt hle) (Ne.symm hne)
            · exact hfirst p hp

/-! ## The whole list -/

theorem mem_foldr_insertAscending {q : Qubit} {list : List Qubit} :
    q ∈ list.foldr insertAscending [] ↔ q ∈ list := by
  induction list with
  | nil => exact Iff.rfl
  | cons first rest ih => rw [List.foldr_cons, mem_insertAscending, ih, List.mem_cons]

namespace Circuit

/-- A qubit is in use exactly when some gate names it. -/
theorem mem_qubitsUsed {c : Circuit} {q : Qubit} :
    q ∈ c.qubitsUsed ↔ ∃ g ∈ c.gates, q ∈ g.qubits := by
  rw [qubitsUsed, mem_foldr_insertAscending, List.mem_flatMap]

theorem ascending_qubitsUsed (c : Circuit) : c.qubitsUsed.Pairwise (· < ·) := by
  rw [qubitsUsed]
  induction c.gates.flatMap Gate.qubits with
  | nil => exact List.Pairwise.nil
  | cons q rest ih => exact ascending_insertAscending ih

/-- A circuit whose gates name exactly the qubits below a number uses these, in their order. -/
theorem qubitsUsed_eq_range {c : Circuit} {count : Nat}
    (h : ∀ q, (∃ g ∈ c.gates, q ∈ g.qubits) ↔ q < count) : c.qubitsUsed = List.range count := by
  apply List.Pairwise.eq_of_mem_iff (ascending_qubitsUsed c) List.pairwise_lt_range
  intro q
  rw [mem_qubitsUsed, h, List.mem_range]

end Circuit

end QCircuit
