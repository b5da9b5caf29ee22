import QCircuit.Proofs.Circuit.Profile
import QCircuit.Proofs.Circuit.Tally
import QCircuit.Proofs.Generate.Size

/-!
# The profile of a search

In a search the last qubit is the hub of every fan, and it leads: no wire is ever higher than its wire. A
round that it enters in the lead raises it by two layers for each qubit and four more, and it leaves in the
lead (`Grover.leadsAt_round`). So the depth of a search is linear in its rounds, whatever the staircase of
the other wires looks like.

The gates are counted by name round by round (`Grover.named_round`), and what is recorded of a search are the
rounds it has, the rounds that would be best and the size of its search space (`Grover.search_profile`).
-/

set_option autoImplicit false

namespace QCircuit.Grover

variable {width : Nat}

/-! ## Gates by name -/

theorem named_fan (name : String) (width : Nat) :
    named name (fan width) = (width - 1) * if "cx" = name then 1 else 0 := by
  have hcx (i : Nat) : (Gate.cx i (width - 1)).name = "cx" := rfl
  rw [fan, named_map hcx, List.length_range]

theorem named_oracle (name : String) (width : Nat) :
    named name (oracle width) =
      2 * (if "x" = name then 1 else 0) + (width - 1) * if "cx" = name then 1 else 0 := by
  have hx : (Gate.x (width - 1)).name = "x" := rfl
  rw [oracle, List.cons_append, named_cons, named_append, named_fan, named_cons, named_nil, hx]
  ring

theorem named_diffusion (name : String) (width : Nat) :
    named name (diffusion width) = 2 * width * (if "h" = name then 1 else 0) +
      2 * width * (if "x" = name then 1 else 0) + (width - 1) * if "cx" = name then 1 else 0 := by
  have hfront (i : Nat) : named name [.h i, .x i] =
      (if "h" = name then 1 else 0) + if "x" = name then 1 else 0 := by
    rw [named_cons, named_cons, named_nil]
    rfl
  have hback (i : Nat) : named name [.x i, .h i] =
      (if "h" = name then 1 else 0) + if "x" = name then 1 else 0 := by
    rw [named_cons, named_cons, named_nil, Nat.add_zero, Nat.add_comm]
    rfl
  rw [diffusion, named_append, named_append, named_flatMap hfront, named_flatMap hback, named_fan,
    List.length_range]
  ring

/-- The gates of a round: both fans, two gates on each qubit of either name, and two more on the hub. -/
theorem named_round (name : String) (width : Nat) :
    named name (round width) = 2 * width * (if "h" = name then 1 else 0) +
      (2 + 2 * width) * (if "x" = name then 1 else 0) +
        2 * (width - 1) * if "cx" = name then 1 else 0 := by
  rw [round, named_append, named_oracle, named_diffusion]
  ring

theorem named_gates (name : String) (width rounds : Nat) :
    named name (gates width rounds) = width * (if "h" = name then 1 else 0) +
      rounds * (2 * width * (if "h" = name then 1 else 0) +
        (2 + 2 * width) * (if "x" = name then 1 else 0) +
          2 * (width - 1) * if "cx" = name then 1 else 0) +
        if "measure" = name then 1 else 0 := by
  have hh (i : Nat) : (Gate.h i).name = "h" := rfl
  have hmeasure : (Gate.measure (List.range width)).name = "measure" := rfl
  have hrounds : named name (List.replicate rounds (round width)).flatten =
      rounds * named name (round width) := by
    induction rounds with
    | zero => simp
    | succ rounds ih =>
        rw [List.replicate_succ, List.flatten_cons, named_append, ih]
        ring
  rw [gates, named_append, named_append, named_map hh, List.length_range, hrounds, named_round,
    named_cons, named_nil, hmeasure, Nat.add_zero]

/-! ## The lead of the hub -/

theorem leadsAt_fan {f : Profile} {height : Nat} (h : f.LeadsAt (width - 1) height) :
    (f.after (fan width)).LeadsAt (width - 1) (height + (width - 1)) := by
  have hmeet (f : Profile) (i : Nat) :
      f.after [.cx i (width - 1)] = f.meet (width - 1) (0 + i) := by
    rw [Profile.after_cx, Profile.meet_comm, Nat.zero_add]
  exact h.after_hub hmeet (Or.inr (by omega))

/-- A round that the hub enters in the lead raises it by two layers for each qubit and four more, and it
keeps the lead. -/
theorem leadsAt_round (hw : 0 < width) {f : Profile} {height : Nat} (h : f.LeadsAt (width - 1) height) :
    (f.after (round width)).LeadsAt (width - 1) (height + (2 * width + 4)) := by
  have hlast : width - 1 < width := by omega
  have horacle : (f.after (oracle width)).LeadsAt (width - 1) (height + 1 + (width - 1) + 1) := by
    rw [oracle, List.cons_append, Profile.after_cons, Profile.after_append]
    exact (leadsAt_fan (h.after_single rfl)).after_single rfl
  -- two gates on each qubit lie before the second fan and two behind it
  have htwice (i : Nat) : [Gate.h i, .x i].flatMap Gate.operations = List.replicate 2 [i] := rfl
  have htwice' (i : Nat) : [Gate.x i, .h i].flatMap Gate.operations = List.replicate 2 [i] := rfl
  have hback := (leadsAt_fan (horacle.raise hlast 2)).raise hlast 2
  rw [round, diffusion, Profile.after_append, Profile.after_append, Profile.after_append,
    Profile.after_flatMap_range htwice, Profile.after_flatMap_range htwice']
  convert hback using 1
  omega

theorem leadsAt_rounds (hw : 0 < width) (rounds : Nat) {f : Profile} {height : Nat}
    (h : f.LeadsAt (width - 1) height) :
    (f.after (List.replicate rounds (round width)).flatten).LeadsAt (width - 1)
      (height + rounds * (2 * width + 4)) := by
  induction rounds generalizing f height with
  | zero => simpa using h
  | succ rounds ih =>
      rw [List.replicate_succ, List.flatten_cons, Profile.after_append]
      convert ih (leadsAt_round hw h) using 1
      ring

/-- The hub leads from the first layer to the last. -/
theorem leadsAt_gates (hw : 0 < width) (rounds : Nat) :
    (Profile.empty.after (gates width rounds)).LeadsAt (width - 1)
      (2 + rounds * (2 * width + 4)) := by
  have hlast : width - 1 < width := by omega
  have hstart := (Profile.leadsAt_empty (width - 1)).raise hlast 1
  have hrounds := leadsAt_rounds hw rounds hstart
  rw [gates, Profile.after_append, Profile.after_append, Profile.after_hadamards]
  convert hrounds.after_measure hlast using 1
  omega

/-! ## The circuit -/

/-- The size of the search space, cut off at the greatest count. -/
theorem searchSpace_eq (width : Nat) : searchSpace width = min (2 ^ width) (2 ^ (64 : Nat) - 1) := by
  unfold searchSpace maxCount
  split
  · next hlt =>
      have hpow : 2 ^ width ≤ 2 ^ (63 : Nat) := Nat.pow_le_pow_right (by decide) (by omega)
      omega
  · next hge =>
      have hpow : 2 ^ (64 : Nat) ≤ 2 ^ width := Nat.pow_le_pow_right (by decide) (by omega)
      omega

/-- **A search on some qubits has exactly so many gates of each name and exactly so many layers for each
round**, and its metadata record the rounds it has, the best number of rounds and the size of the search
space. -/
theorem search_profile (hw : 0 < width) (settings : Settings) :
    ∃ c rounds, circuit width settings = .ok c ∧ rounds = appliedIterations width settings ∧
      c.width = width ∧
      c.size = width + 6 * width * rounds + 1 ∧
      c.countOps.count "h" = width + 2 * width * rounds ∧
      c.countOps.count "x" = 2 * rounds + 2 * width * rounds ∧
      c.countOps.count "cx" = 2 * rounds * (width - 1) ∧
      c.countOps.count "measure" = 1 ∧
      c.depth = 2 + rounds * (2 * width + 4) ∧
      c.metadata.lookup "iterations" = some (.nat rounds) ∧
      c.metadata.lookup "optimal_iterations" = some (.nat (optimalIterations width)) ∧
      c.metadata.lookup "search_space" = some (.nat (min (2 ^ width) (2 ^ (64 : Nat) - 1))) := by
  refine ⟨_, _, circuit_eq hw settings, rfl, rfl, ?_, ?_, ?_, ?_, ?_, ?_, rfl, rfl, ?_⟩
  · -- the counts follow from the gates of one round, the depth from the wire that leads
    rw [Circuit.size, length_gates hw]
    ring
  · rw [Circuit.count_countOps, named_gates]
    simp only [String.reduceEq, if_true, if_false]
    ring
  · rw [Circuit.count_countOps, named_gates]
    simp only [String.reduceEq, if_true, if_false]
    ring
  · rw [Circuit.count_countOps, named_gates]
    simp only [String.reduceEq, if_true, if_false]
    ring
  · rw [Circuit.count_countOps, named_gates]
    simp only [String.reduceEq, if_true, if_false]
    ring
  · exact Circuit.depth_of_leadsAt (leadsAt_gates hw _)
  · rw [← searchSpace_eq]
    rfl

/-- Control: a search on five qubits, for which four rounds would be best and three are allowed. -/
theorem search_profile_five :
    0 < 5 ∧ ∃ c, circuit 5 Settings.usual = .ok c ∧ c.size = 96 ∧ c.depth = 44 ∧
      c.countOps.count "cx" = 24 ∧ c.metadata.lookup "search_space" = some (.nat 32) := by
  obtain ⟨c, rounds, hc, hrounds, -, hsize, -, -, hcx, -, hdepth, -, -, hspace⟩ :=
    search_profile (show 0 < 5 by decide) Settings.usual
  have hthree : appliedIterations 5 Settings.usual = 3 := by decide +kernel
  rw [hrounds, hthree] at hsize hcx hdepth
  exact ⟨by decide, c, hc, hsize, hdepth, hcx, hspace⟩

end QCircuit.Grover
