import Mathlib.Data.Nat.Choose.Basic
import QCircuit.Proofs.Circuit.Profile
import QCircuit.Proofs.Circuit.Tally
import QCircuit.Proofs.Generate.Size

/-!
# The profile of a period finding

Three loops leave three profiles. Each control meets the targets one after another, and the next control
follows one layer behind, so the controls are left as stairs and so are the targets (`Shor.after_rows`). The
reversal folds the stairs of the controls: a pair of wires is left level, and the first wire, which is
paired with the highest control, comes to lead (`Shor.leadsAt_reversal`). In the transform every qubit meets
all those before it, of which none is ever higher than it is by then (`Shor.after_transforms`).

A lone control is not reversed and not transformed by any other; it comes out the same
(`Shor.period_profile`).
-/

set_option autoImplicit false

namespace QCircuit.Shor

variable {width : Nat}

/-! ## Gates by name -/

theorem named_entangle (name : String) (width : Nat) :
    named name (entangle width) =
      controls width * (targets width * if "cx" = name then 1 else 0) := by
  have hcx (i j : Nat) : (Gate.cx i (controls width + j)).name = "cx" := rfl
  have hrow (i : Nat) : named name ((List.range (targets width)).map fun j =>
      Gate.cx i (controls width + j)) = targets width * if "cx" = name then 1 else 0 := by
    rw [named_map (hcx i), List.length_range]
  rw [entangle, named_flatMap hrow, List.length_range]

theorem named_reversal (name : String) (count : Nat) :
    named name (reversal count) = count / 2 * if "swap" = name then 1 else 0 := by
  have hswap (i : Nat) : (Gate.swap i (count - 1 - i)).name = "swap" := rfl
  rw [reversal, named_map hswap, List.length_range]

theorem named_transform (name : String) (i : Nat) :
    named name (transform i) =
      (if "h" = name then 1 else 0) + i * if "cp" = name then 1 else 0 := by
  have hh : (Gate.h i).name = "h" := rfl
  have hcp (j : Nat) : (Gate.cp (phase i j) j i).name = "cp" := rfl
  rw [transform, named_cons, hh, named_map hcp, List.length_range]

/-- Each qubit meets all those before it once. -/
theorem named_transforms (name : String) (count : Nat) :
    named name ((List.range count).flatMap transform) = count * (if "h" = name then 1 else 0) +
      count * (count - 1) / 2 * if "cp" = name then 1 else 0 := by
  induction count with
  | zero => simp
  | succ count ih =>
      rw [List.range_succ, List.flatMap_append, List.flatMap_singleton, named_append, ih,
        named_transform, Nat.triangle_succ]
      ring

theorem named_gates (name : String) (width : Nat) :
    named name (gates width) = 2 * controls width * (if "h" = name then 1 else 0) +
      controls width * targets width * (if "cx" = name then 1 else 0) +
      controls width / 2 * (if "swap" = name then 1 else 0) +
      controls width * (controls width - 1) / 2 * (if "cp" = name then 1 else 0) +
        if "measure" = name then 1 else 0 := by
  have hh (i : Nat) : (Gate.h i).name = "h" := rfl
  have hmeasure : (Gate.measure (List.range (controls width))).name = "measure" := rfl
  rw [gates, inverseFourier, named_append, named_append, named_append, named_append, named_map hh,
    List.length_range, named_entangle, named_reversal, named_transforms, named_cons, named_nil, hmeasure]
  ring

theorem length_gates (width : Nat) :
    (gates width).length = 2 * controls width + controls width * targets width + controls width / 2 +
      controls width * (controls width - 1) / 2 + 1 := by
  have hlength := two_mul_length_gates width
  have hdvd : 2 ∣ controls width * (controls width + 1) := Nat.two_dvd_mul_add_one _
  have htriangle := Nat.triangle_succ (controls width)
  rw [Nat.add_sub_cancel, Nat.mul_comm] at htriangle
  omega

/-! ## The grid -/

/-- The wires after some controls have met the targets: those controls are stairs, and so are the targets,
each a layer above the one before it. -/
def grid (controls targets rows : Nat) : Profile := fun q =>
  if q < rows then targets + 1 + q
  else if q < controls then 1
  else if q < controls + targets ∧ 0 < rows then q - controls + rows + 1
  else 0

theorem meet_row (controls i : Nat) (f : Profile) (j : Nat) :
    f.after [.cx i (controls + j)] = f.meet i (controls + j) := f.after_cx i (controls + j)

/-- A control that meets the targets ends as high as the next step of the stairs. -/
theorem after_row {controls targets rows : Nat} (ht : 0 < targets) (hrows : rows < controls) :
    (grid controls targets rows).after ((List.range targets).map fun j => .cx rows (controls + j)) =
      grid controls targets (rows + 1) := by
  obtain ⟨last, rfl⟩ := Nat.exists_eq_succ_of_ne_zero (Nat.ne_of_gt ht)
  have hbase : max (grid controls (last + 1) rows rows) (grid controls (last + 1) rows controls) =
      rows + 1 := by
    simp only [grid]
    split_ifs <;> omega
  have hrow (j : Nat) (hj : j ≤ last) :
      grid controls (last + 1) rows (controls + j) ≤ rows + 1 + j := by
    simp only [grid]
    split_ifs <;> omega
  rw [Profile.after_hub_from_below (meet_row controls rows) (Or.inl hrows) hbase hrow]
  funext p
  simp only [grid]
  split_ifs <;> omega

theorem after_rows {controls targets rows : Nat} (ht : 0 < targets) (hrows : rows ≤ controls) :
    (Profile.empty.raise controls 1).after ((List.range rows).flatMap fun i =>
      (List.range targets).map fun j => .cx i (controls + j)) = grid controls targets rows := by
  induction rows with
  | zero =>
      funext p
      simp [grid, Profile.raise, Profile.empty]
  | succ rows ih =>
      rw [List.range_succ, List.flatMap_append, List.flatMap_singleton, Profile.after_append,
        ih (by omega), after_row ht hrows]

/-! ## The reversal -/

/-- Wires that are exchanged are level after it, one layer above the higher of them. -/
theorem after_swaps (f : Profile) {count pairs : Nat} (h : pairs ≤ count / 2) :
    f.after ((List.range pairs).map fun i => .swap i (count - 1 - i)) = fun q =>
      if q < count ∧ (q < pairs ∨ count - 1 - q < pairs) then max (f q) (f (count - 1 - q)) + 1
      else f q := by
  induction pairs with
  | zero =>
      funext q
      simp
  | succ pairs ih =>
      -- neither wire of the next pair has been swapped before
      have hlow : ¬ (pairs < count ∧ (pairs < pairs ∨ count - 1 - pairs < pairs)) := by omega
      have hhigh : ¬ (count - 1 - pairs < count ∧
          (count - 1 - pairs < pairs ∨ count - 1 - (count - 1 - pairs) < pairs)) := by omega
      rw [List.range_succ, List.map_append, List.map_singleton, Profile.after_append, ih (by omega),
        Profile.after_swap]
      funext q
      simp only [Profile.meet, if_neg hlow, if_neg hhigh]
      by_cases hfirst : q = pairs
      · rw [if_pos (Or.inl hfirst), if_pos (by omega), hfirst]
      · by_cases hsecond : q = count - 1 - pairs
        · have hback : count - 1 - q = pairs := by omega
          rw [if_pos (Or.inr hsecond), if_pos (by omega), hback, hsecond, Nat.max_comm]
        · have hiff : (q < count ∧ (q < pairs ∨ count - 1 - q < pairs)) ↔
              q < count ∧ (q < pairs + 1 ∨ count - 1 - q < pairs + 1) := by omega
          rw [if_neg (by omega)]
          simp only [hiff]

/-- The first wire leads after the reversal, paired with the highest control or alone. -/
theorem leadsAt_reversal {controls : Nat} (targets : Nat) (hc : 0 < controls) :
    ((grid controls targets controls).after (reversal controls)).LeadsAt 0
      (controls + targets + if controls = 1 then 0 else 1) := by
  rw [reversal, after_swaps _ (Nat.le_refl _)]
  constructor
  · simp only [grid]
    split_ifs <;> omega
  · intro q
    simp only [grid]
    split_ifs <;> omega

/-! ## The transform -/

theorem meet_transform (i : Nat) (f : Profile) (j : Nat) :
    f.after [.cp (phase i j) j i] = f.meet i (0 + j) := by
  rw [Profile.after_cp, Profile.meet_comm, Nat.zero_add]

/-- The profile after some qubits are transformed, from one with the first wire in the lead: stairs up to
the last of them, which is as high as the one before it. -/
def transformed (f : Profile) (height last : Nat) : Profile := fun q =>
  if q < last then height + 1 + last + q
  else if q = last then height + 1 + (2 * last - 1)
  else f q

/-- A qubit comes from below, is level with the first qubit once they have met, and stays above the others
that it meets. -/
theorem after_transform {f : Profile} {height : Nat} (h : ∀ q, f q ≤ height) (last : Nat) :
    (transformed f height last).after (transform (last + 1)) = transformed f height (last + 1) := by
  have hf := h (last + 1)
  have hraised (p : Nat) : (transformed f height last).after [.h (last + 1)] p =
      transformed f height last p + if p = last + 1 then 1 else 0 := Profile.after_single rfl _ p
  -- the turned wire is the hub, and it has not been met before
  have hhub : (transformed f height last).after [.h (last + 1)] (last + 1) = f (last + 1) + 1 := by
    rw [hraised, if_pos rfl, transformed, if_neg (by omega), if_neg (by omega)]
  have hspoke (p : Nat) (hp : p ≤ last) :
      (transformed f height last).after [.h (last + 1)] p = transformed f height last p := by
    rw [hraised, if_neg (by omega)]
    rfl
  have hbase : max ((transformed f height last).after [.h (last + 1)] (last + 1))
      ((transformed f height last).after [.h (last + 1)] 0) = height + 1 + last := by
    rw [hhub, hspoke 0 (Nat.zero_le last), transformed]
    split_ifs <;> omega
  -- each spoke is low enough to be met one layer after the one before
  have hrow (j : Nat) (hj : j ≤ last) :
      (transformed f height last).after [.h (last + 1)] (0 + j) ≤ height + 1 + last + j := by
    rw [Nat.zero_add, hspoke j hj, transformed]
    split_ifs <;> omega
  rw [transform, Profile.after_cons,
    Profile.after_hub_from_below (meet_transform (last + 1)) (Or.inr (by omega)) hbase hrow]
  funext p
  simp only [hraised, transformed]
  split_ifs <;> omega

theorem after_transforms {f : Profile} {height : Nat} (h : f.LeadsAt 0 height) (last : Nat) :
    f.after ((List.range (last + 1)).flatMap transform) = transformed f height last := by
  induction last with
  | zero =>
      -- the first qubit has none before it
      have hone : (List.range (0 + 1)).flatMap transform = [.h 0] := rfl
      have hfirst := h.eq
      rw [hone]
      funext p
      rw [Profile.after_single rfl, transformed]
      split_ifs with hp
      · omega
      · rw [hp, hfirst]
      · omega
      · exact Nat.add_zero _
  | succ last ih =>
      rw [List.range_succ, List.flatMap_append, List.flatMap_singleton, Profile.after_append, ih,
        after_transform h.le]

theorem leadsAt_transforms {f : Profile} {height : Nat} (h : f.LeadsAt 0 height) (last : Nat) :
    (f.after ((List.range (last + 1)).flatMap transform)).LeadsAt last
      (height + 1 + (2 * last - 1)) := by
  rw [after_transforms h]
  constructor
  · simp [transformed]
  · intro p
    have hp := h.le p
    simp only [transformed]
    split_ifs <;> omega

/-! ## The circuit -/

/-- The highest control leads in the end. -/
theorem leadsAt_gates (hw : 2 ≤ width) :
    (Profile.empty.after (gates width)).LeadsAt (controls width - 1) (width + 2 * controls width) := by
  have hsum := controls_add_targets width
  have hcontrols : 0 < controls width := Nat.div_pos hw (by decide)
  have htargets : 0 < targets width := by
    unfold targets controls
    omega
  have hsucc : controls width - 1 + 1 = controls width := Nat.sub_add_cancel hcontrols
  -- the lead goes from the first wire to the last one that is transformed
  have hlead := leadsAt_transforms (leadsAt_reversal (targets width) hcontrols) (controls width - 1)
  rw [hsucc, hsum] at hlead
  rw [gates, inverseFourier, entangle, Profile.after_append, Profile.after_append, Profile.after_append,
    Profile.after_append, Profile.after_hadamards, after_rows htargets (Nat.le_refl (controls width))]
  convert hlead.after_measure (Nat.sub_lt hcontrols Nat.zero_lt_one) using 1
  split_ifs <;> omega

/-- **A period finding on some qubits, half of them controls, has exactly so many gates of each name and two
layers for each control more than it has qubits**, whatever the parity of the width, and its metadata record
the two registers. -/
theorem period_profile {settings : Settings} (hw : 2 ≤ fullWidth width settings) :
    ∃ c w controls targets, circuit width settings = .ok c ∧
      w = max width settings.shorMinQubits.toNat ∧ controls = w / 2 ∧ targets = w - controls ∧
      c.width = w ∧
      c.size = 2 * controls + controls * targets + controls / 2 + controls * (controls - 1) / 2 + 1 ∧
      c.countOps.count "h" = 2 * controls ∧
      c.countOps.count "cx" = controls * targets ∧
      c.countOps.count "swap" = controls / 2 ∧
      c.countOps.count "cp" = controls * (controls - 1) / 2 ∧
      c.countOps.count "measure" = 1 ∧
      c.depth = w + 2 * controls ∧
      c.metadata.lookup "control_qubits" = some (.nat controls) ∧
      c.metadata.lookup "target_qubits" = some (.nat targets) := by
  refine ⟨_, _, _, _, circuit_eq hw, rfl, rfl, rfl, rfl, length_gates _, ?_, ?_, ?_, ?_, ?_, ?_, rfl,
    rfl⟩
  · -- of each name, only one or two parts of the circuit have gates
    rw [Circuit.count_countOps, named_gates]
    simp only [String.reduceEq, if_true, if_false, Nat.mul_one, Nat.mul_zero, Nat.add_zero]
    rfl
  · rw [Circuit.count_countOps, named_gates]
    simp only [String.reduceEq, if_true, if_false, Nat.mul_one, Nat.mul_zero, Nat.add_zero, Nat.zero_add]
    rfl
  · rw [Circuit.count_countOps, named_gates]
    simp only [String.reduceEq, if_true, if_false, Nat.mul_one, Nat.mul_zero, Nat.add_zero, Nat.zero_add]
    rfl
  · rw [Circuit.count_countOps, named_gates]
    simp only [String.reduceEq, if_true, if_false, Nat.mul_one, Nat.mul_zero, Nat.add_zero, Nat.zero_add]
    rfl
  · rw [Circuit.count_countOps, named_gates]
    simp only [String.reduceEq, if_true, if_false, Nat.mul_zero, Nat.add_zero, Nat.zero_add]
  · exact Circuit.depth_of_leadsAt (leadsAt_gates hw)

/-- Control: seventeen qubits, of which eight are controls. -/
theorem period_profile_seventeen :
    2 ≤ fullWidth 17 Settings.usual ∧
      ∃ c, circuit 17 Settings.usual = .ok c ∧ c.countOps.count "h" = 16 ∧ c.countOps.count "cx" = 72 ∧
        c.countOps.count "swap" = 4 ∧ c.countOps.count "cp" = 28 ∧ c.depth = 33 := by
  obtain ⟨c, w, controls, targets, hc, hw, hcontrols, htargets, -, -, hh, hcx, hswap, hcp, -, hdepth, -⟩ :=
    period_profile (show 2 ≤ fullWidth 17 Settings.usual by decide)
  have hwidth : w = 17 := hw
  subst hwidth hcontrols htargets
  exact ⟨by decide, c, hc, hh, hcx, hswap, hcp, hdepth⟩

end QCircuit.Shor
