import QCircuit.Proofs.Circuit.Profile
import QCircuit.Proofs.Circuit.Tally
import QCircuit.Proofs.Generate.Draws
import QCircuit.Proofs.Generate.Size

/-!
# The profile of an eigensolver circuit

From level wires a chain leaves stairs: each wire one layer above the one before it, the last two level. On
three qubits or more the next chain climbs these stairs and leaves them as they were, two layers higher
(`Vqe.after_chain_stairs`). With its rotations a layer then takes four layers of the circuit, whatever the
width, as it begins on the low wires before the layer ahead of it is done with the high ones. On two qubits
the stairs are level and a layer takes three, on one qubit two (`Vqe.after_layers`).

Every rotation about Y is by a `theta` and every one about Z by a `phi` (`Vqe.rotation_of_mem_layers`). The
gates are counted by name, and the number of parameters that is recorded is the number of rotations there
are (`Vqe.ansatz_profile`).
-/

set_option autoImplicit false

namespace QCircuit.Vqe

variable {σ : Type} {source : AngleSource σ} {width : Nat}

/-! ## Gates by name -/

theorem named_rotations {rotation : Binary64 → Qubit → Gate} {own : String}
    (h : ∀ angle q, (rotation angle q).name = own) (name : String) (angles : List Binary64) :
    named name (rotations rotation angles) = angles.length * if own = name then 1 else 0 := by
  have hname (entry : Binary64 × Nat) : ((fun (angle, q) => rotation angle q) entry).name = own :=
    h entry.1 entry.2
  rw [rotations, named_map hname, List.length_zipIdx]

theorem named_layer (name : String) (width : Nat) (thetas phis : List Binary64) :
    named name (layer width thetas phis) = thetas.length * (if "ry" = name then 1 else 0) +
      (width - 1) * (if "cx" = name then 1 else 0) + phis.length * if "rz" = name then 1 else 0 := by
  have hry (angle : Binary64) (q : Qubit) : (Gate.ry ⟨.theta, angle⟩ q).name = "ry" := rfl
  have hcx (i : Nat) : (Gate.cx i (i + 1)).name = "cx" := rfl
  have hrz (angle : Binary64) (q : Qubit) : (Gate.rz ⟨.phi, angle⟩ q).name = "rz" := rfl
  rw [layer, named_append, named_append, named_rotations hry, named_rotations hrz, chain, named_map hcx,
    List.length_range]

theorem named_layers (name : String) (source : AngleSource σ) (width count : Nat) (s : σ) :
    named name (layers source width count s).1 = count * (width * (if "ry" = name then 1 else 0) +
      (width - 1) * (if "cx" = name then 1 else 0) + width * if "rz" = name then 1 else 0) := by
  induction count generalizing s with
  | zero => simp [layers]
  | succ count ih =>
      simp only [layers, named_append, named_layer, AngleSource.length_take, ih]
      ring

theorem named_gates (name : String) (source : AngleSource σ) (width count : Nat) (s : σ) :
    named name ((layers source width count s).1 ++ [.measure (List.range width)]) =
      count * (width * (if "ry" = name then 1 else 0) + (width - 1) * (if "cx" = name then 1 else 0) +
        width * if "rz" = name then 1 else 0) + if "measure" = name then 1 else 0 := by
  have hmeasure : (Gate.measure (List.range width)).name = "measure" := rfl
  rw [named_append, named_layers, named_cons, named_nil, hmeasure, Nat.add_zero]

/-! ## Rotations -/

theorem eq_of_mem_rotations {rotation : Binary64 → Qubit → Gate} {angles : List Binary64} {g : Gate}
    (h : g ∈ rotations rotation angles) : ∃ angle q, g = rotation angle q := by
  obtain ⟨⟨angle, q⟩, -, rfl⟩ := List.mem_map.mp h
  exact ⟨angle, q, rfl⟩

/-- The rotations of a layer about Y are by a `theta` each, those about Z by a `phi`. -/
theorem rotation_of_mem_layer {thetas phis : List Binary64} {axis : Axis} {angle : Angle}
    {targets : List Qubit} (h : Gate.rotation axis angle targets ∈ layer width thetas phis) :
    axis = .y ∧ angle.name = .theta ∨ axis = .z ∧ angle.name = .phi := by
  rcases List.mem_append.mp h with h | h
  · rcases List.mem_append.mp h with h | h
    · obtain ⟨value, q, heq⟩ := eq_of_mem_rotations h
      cases heq
      exact Or.inl ⟨rfl, rfl⟩
    · obtain ⟨i, -, heq⟩ := List.mem_map.mp h
      cases heq
  · obtain ⟨value, q, heq⟩ := eq_of_mem_rotations h
    cases heq
    exact Or.inr ⟨rfl, rfl⟩

theorem rotation_of_mem_layers {count : Nat} {s : σ} {axis : Axis} {angle : Angle}
    {targets : List Qubit} (h : Gate.rotation axis angle targets ∈ (layers source width count s).1) :
    axis = .y ∧ angle.name = .theta ∨ axis = .z ∧ angle.name = .phi := by
  induction count generalizing s with
  | zero => cases h
  | succ count ih =>
      rcases List.mem_append.mp h with h | h
      · exact rotation_of_mem_layer h
      · exact ih h

theorem length_turns_layers (source : AngleSource σ) (width count : Nat) (s : σ) :
    (turns (layers source width count s).1).length = 2 * width * count := by
  have hturns := congrArg List.length (turns_layers source width count s).1
  rwa [List.length_map, List.length_map, List.length_range] at hturns

/-! ## Stairs -/

/-- Each wire one layer above the one before it, the last two level. -/
def stairs (width : Nat) : Profile := fun q => if q < width then min q (width - 2) else 0

theorem stairs_two : stairs 2 = Profile.empty := by
  funext q
  simp [stairs, Profile.empty]

theorem after_rotations {rotation : Binary64 → Qubit → Gate}
    (h : ∀ angle q, (rotation angle q).operations = [[q]]) (f : Profile) (angles : List Binary64) :
    f.after (rotations rotation angles) = f.raise angles.length 1 := by
  apply Profile.after_of_operations
  have hsnd : angles.zipIdx.map Prod.snd = List.range angles.length := by
    rw [List.zipIdx_map_snd, List.range_eq_range']
  rw [rotations, List.flatMap_map, ← hsnd, List.map_map, List.map_eq_flatMap]
  simp only [h, Function.comp_apply]

theorem meet_chain (f : Profile) (i : Nat) : f.after [.cx i (i + 1)] = f.meet i (i + 1) :=
  f.after_cx i (i + 1)

/-- A chain whose first wire climbs one layer at each meeting leaves stairs. -/
theorem after_chain_of_climb (hw : 2 ≤ width) {f : Profile} {base : Nat}
    (hclimb : ∀ met, met ≤ width - 2 → climb (f 0) (fun j => f (j + 1)) (met + 1) = base + (met + 1))
    (houtside : ∀ p, width ≤ p → f p = 0) :
    f.after (chain width) = (stairs width).raise width (base + 1) := by
  rw [chain, Profile.after_chain meet_chain]
  funext p
  simp only [stairs, Profile.raise]
  by_cases hp : p < width - 1
  · rw [if_pos hp, hclimb p (by omega), if_pos (by omega), if_pos (by omega)]
    omega
  · by_cases hlast : p = width - 1
    · have hmet := hclimb (width - 2) (Nat.le_refl _)
      rw [show width - 2 + 1 = width - 1 by omega] at hmet
      rw [if_neg hp, if_pos hlast, hmet, if_pos (by omega), if_pos (by omega)]
      omega
    · rw [if_neg hp, if_neg hlast, houtside p (by omega), if_neg (by omega), if_neg (by omega)]

theorem after_chain_level (hw : 2 ≤ width) (height : Nat) :
    (Profile.empty.raise width height).after (chain width) = (stairs width).raise width (height + 1) := by
  have hlevel (p : Nat) : Profile.empty.raise width height p = if p < width then height else 0 := by
    simp [Profile.raise, Profile.empty]
  apply after_chain_of_climb hw
  · intro met hmet
    simp only [hlevel]
    rw [if_pos (by omega)]
    apply climb_eq
    intro j hj
    split <;> omega
  · intro p hp
    rw [hlevel, if_neg (by omega)]

/-- On three qubits or more a chain climbs the stairs of the chain before it and leaves them as they were,
two layers higher. -/
theorem after_chain_stairs (hw : 3 ≤ width) (height : Nat) :
    ((stairs width).raise width height).after (chain width) =
      (stairs width).raise width (height + 2) := by
  have hstairs (p : Nat) : (stairs width).raise width height p =
      if p < width then min p (width - 2) + height else 0 := by
    simp only [stairs, Profile.raise]
    split <;> rfl
  apply after_chain_of_climb (by omega)
  · -- the first wire is one layer below the second, and never below the others when it meets them
    intro met hmet
    simp only [hstairs]
    apply climb_succ_eq
    · rw [if_pos (by omega), if_pos (by omega)]
      omega
    · intro j hj
      split <;> omega
  · -- no layer is on a wire past the width
    intro p hp
    rw [hstairs, if_neg (by omega)]

theorem after_chain_one (height : Nat) :
    (Profile.empty.raise 1 height).after (chain 1) = Profile.empty.raise 1 (height + 0) := rfl

theorem after_chain_two (height : Nat) :
    (Profile.empty.raise 2 height).after (chain 2) = Profile.empty.raise 2 (height + 1) := by
  rw [after_chain_level (by decide), stairs_two]

/-! ## Layers -/

/-- A layer adds one layer before its chain and one behind it. -/
theorem after_layer {f g : Profile} {rise : Nat}
    (hchain : ∀ height, (f.raise width height).after (chain width) = g.raise width (height + rise))
    (height : Nat) {thetas phis : List Binary64} (hthetas : thetas.length = width)
    (hphis : phis.length = width) :
    (f.raise width height).after (layer width thetas phis) = g.raise width (height + (rise + 2)) := by
  rw [layer, Profile.after_append, Profile.after_append, after_rotations (fun _ _ => rfl),
    after_rotations (fun _ _ => rfl), hthetas, hphis, Profile.raise_raise, hchain, Profile.raise_raise]
  congr 1
  omega

/-- Wires whose shape a chain leaves as it is, some layers higher, rise by as many layers and two more at
each layer. -/
theorem after_layers (source : AngleSource σ) {f : Profile} {rise : Nat}
    (hchain : ∀ height, (f.raise width height).after (chain width) = f.raise width (height + rise))
    (count height : Nat) (s : σ) :
    (f.raise width height).after (layers source width count s).1 =
      f.raise width (height + count * (rise + 2)) := by
  induction count generalizing height s with
  | zero => simp [layers]
  | succ count ih =>
      simp only [layers]
      rw [Profile.after_append, after_layer hchain height (source.length_take width _)
        (source.length_take width _), ih]
      congr 1
      ring

theorem leadsAt_stairs (hw : 2 ≤ width) (height : Nat) :
    ((stairs width).raise width height).LeadsAt (width - 1) (width - 2 + height) := by
  constructor
  · simp only [Profile.raise, stairs]
    rw [if_pos (by omega), if_pos (by omega)]
    omega
  · intro p
    simp only [Profile.raise, stairs]
    split <;> omega

/-- On level wires that stay level every wire leads. -/
theorem leadsAt_layers_level (source : AngleSource σ) {rise : Nat} (hw : 0 < width)
    (hchain : ∀ height, (Profile.empty.raise width height).after (chain width) =
      Profile.empty.raise width (height + rise)) (count : Nat) (s : σ) :
    (Profile.empty.after (layers source width count s).1).LeadsAt (width - 1) (count * (rise + 2)) := by
  have hlayers := after_layers source hchain count 0 s
  rw [Profile.raise_zero, Nat.zero_add] at hlayers
  have hlast : width - 1 < width := Nat.sub_lt hw Nat.zero_lt_one
  have hlead := (Profile.leadsAt_empty (width - 1)).raise hlast (count * (rise + 2))
  rwa [Nat.zero_add, ← hlayers] at hlead

/-- The first layer builds the stairs and every later one lifts them by four. -/
theorem leadsAt_layers_stairs (source : AngleSource σ) (hw : 3 ≤ width) (count : Nat) (s : σ) :
    (Profile.empty.after (layers source width (count + 1) s).1).LeadsAt (width - 1)
      (width - 2 + (3 + count * 4)) := by
  have hfirst := after_layer (after_chain_level (by omega)) 0 (source.length_take width s)
    (source.length_take width (source.take width s).2)
  rw [Profile.raise_zero] at hfirst
  simp only [layers]
  rw [Profile.after_append, hfirst, after_layers source (after_chain_stairs hw)]
  exact leadsAt_stairs (by omega) _

/-- The last wire leads after any number of layers. -/
theorem leadsAt_layers (source : AngleSource σ) (hw : 0 < width) (count : Nat) (s : σ) :
    (Profile.empty.after (layers source width count s).1).LeadsAt (width - 1)
      (if count = 0 then 0 else if width = 1 then 2 * count else if width = 2 then 3 * count
        else width + 4 * count - 3) := by
  rcases (by omega : width = 1 ∨ width = 2 ∨ 3 ≤ width) with rfl | rfl | hw
  · convert leadsAt_layers_level source hw after_chain_one count s using 1
    split_ifs <;> omega
  · convert leadsAt_layers_level source hw after_chain_two count s using 1
    split_ifs <;> omega
  · cases count with
    | zero => exact Profile.leadsAt_empty _
    | succ count =>
        convert leadsAt_layers_stairs source hw count s using 1
        rw [if_neg (by omega), if_neg (by omega), if_neg (by omega)]
        omega

/-! ## The circuit -/

/-- **An eigensolver circuit on some qubits has exactly so many gates of each name and exactly so many
layers for its rounds**, its rotations about Y are by a `theta` and those about Z by a `phi`, and the number
of parameters in its metadata is the number of its rotations. -/
theorem ansatz_profile (h : source.WithinTurn) (hw : 0 < width) (settings : Settings) (s : σ) :
    ∃ c count, (circuit source width settings s).1 = .ok c ∧ count = settings.vqeLayers.toNat ∧
      c.width = width ∧
      c.size = count * (3 * width - 1) + 1 ∧
      c.countOps.count "ry" = width * count ∧
      c.countOps.count "rz" = width * count ∧
      c.countOps.count "cx" = (width - 1) * count ∧
      c.countOps.count "measure" = 1 ∧
      (∀ axis angle targets, Gate.rotation axis angle targets ∈ c.gates →
        axis = .y ∧ angle.name = .theta ∨ axis = .z ∧ angle.name = .phi) ∧
      c.metadata.lookup "layers" = some (.nat count) ∧
      c.metadata.lookup "parameters" = some (.nat (turns c.gates).length) ∧
      c.depth = if count = 0 then 1 else if width = 1 then 2 * count + 1
        else if width = 2 then 3 * count + 1 else width + 4 * count - 2 := by
  refine ⟨_, _, congrArg Prod.fst (circuit_eq h hw settings s), rfl, rfl, ?_, ?_, ?_, ?_, ?_, ?_, rfl,
    ?_, ?_⟩
  · -- a layer has two turns on each wire, and one gate fewer than wires in its chain
    have hlayer : width + (width - 1) + width = 3 * width - 1 := by omega
    rw [Circuit.size, List.length_append, length_layers, hlayer]
    rfl
  · rw [Circuit.count_countOps, named_gates]
    simp only [String.reduceEq, if_true, if_false]
    ring
  · rw [Circuit.count_countOps, named_gates]
    simp only [String.reduceEq, if_true, if_false]
    ring
  · rw [Circuit.count_countOps, named_gates]
    simp only [String.reduceEq, if_true, if_false]
    ring
  · rw [Circuit.count_countOps, named_gates]
    simp only [String.reduceEq, if_true, if_false]
    ring
  · -- the last gate measures, so a rotation is one of a layer
    intro axis angle targets hmem
    rcases List.mem_append.mp hmem with hmem | hmem
    · exact rotation_of_mem_layers hmem
    · cases List.mem_singleton.mp hmem
  · have hmeasure : turns [Gate.measure (List.range width)] = [] := rfl
    have htotal : settings.vqeLayers.toNat * width * 2 = 2 * width * settings.vqeLayers.toNat := by ring
    simp only [turns_append, hmeasure, List.append_nil, length_turns_layers]
    rw [← htotal]
    rfl
  · apply Circuit.depth_of_leadsAt
    -- the last wire leads at every width, and is measured with the others
    have hlast : width - 1 < width := Nat.sub_lt hw Nat.zero_lt_one
    rw [Profile.after_append]
    convert (leadsAt_layers source hw settings.vqeLayers.toNat s).after_measure hlast using 1
    split_ifs <;> omega

/-- Control: four qubits and three layers, with the angles of a seeded source. -/
theorem ansatz_profile_four :
    Xoshiro.angles.WithinTurn ∧ 0 < 4 ∧
      ∃ c, (circuit Xoshiro.angles 4 Settings.usual (Xoshiro.ofSeed 7)).1 = .ok c ∧ c.size = 34 ∧
        c.countOps.count "ry" = 12 ∧ c.countOps.count "rz" = 12 ∧ c.countOps.count "cx" = 9 ∧
        c.depth = 14 := by
  obtain ⟨c, count, hc, hcount, -, hsize, hry, hrz, hcx, -, -, -, -, hdepth⟩ :=
    ansatz_profile Xoshiro.withinTurn_angles (show 0 < 4 by decide) Settings.usual (Xoshiro.ofSeed 7)
  have hthree : count = 3 := hcount
  rw [hthree] at hsize hry hrz hcx hdepth
  exact ⟨Xoshiro.withinTurn_angles, by decide, c, hc, hsize, hry, hrz, hcx, hdepth⟩

end QCircuit.Vqe
