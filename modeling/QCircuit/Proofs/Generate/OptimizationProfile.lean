import QCircuit.Proofs.Circuit.Profile
import QCircuit.Proofs.Circuit.Tally
import QCircuit.Proofs.Generate.Draws
import QCircuit.Proofs.Generate.Size
import QCircuit.Proofs.Problem.Resolution

/-!
# The profile of an optimization

The phase of an edge brings both of its wires three layers above the higher of them and leaves the others
alone (`Qaoa.after_edgePhase`). So no wire rises by more than three layers at an edge, and by more than one
at the mixing rotations, whatever the graph (`Qaoa.after_layers_le`).

On the ring every edge has a vertex in common with the one before it, so the lead goes around with the
edges: the wire that leads hands it on to the next one, three layers higher, and the last hands it back to
the first (`Qaoa.leadsAt_ring`). There the bound on the depth is exact (`Qaoa.optimization_profile`).
-/

set_option autoImplicit false

namespace QCircuit.Qaoa

variable {σ : Type} {source : AngleSource σ} {width : Nat} {pairs : List (Qubit × Qubit)}

/-! ## Gates by name -/

theorem named_edgePhase (name : String) (gamma : Binary64) (edge : Qubit × Qubit) :
    named name (edgePhase gamma edge) =
      2 * (if "cx" = name then 1 else 0) + if "rz" = name then 1 else 0 := by
  have hcx : (Gate.cx edge.1 edge.2).name = "cx" := rfl
  have hrz : (Gate.rz ⟨.phi, gamma.double⟩ edge.2).name = "rz" := rfl
  rw [edgePhase, named_cons, named_cons, named_cons, named_nil, hcx, hrz]
  ring

theorem named_layer (name : String) (width : Nat) (pairs : List (Qubit × Qubit))
    (gamma beta : Binary64) :
    named name (layer width pairs gamma beta) =
      pairs.length * (2 * (if "cx" = name then 1 else 0) + if "rz" = name then 1 else 0) +
        width * if "rx" = name then 1 else 0 := by
  have hrx (q : Qubit) : (Gate.rx ⟨.theta, beta.double⟩ q).name = "rx" := rfl
  rw [layer, named_append, cost, named_flatMap (named_edgePhase name gamma), mixer, named_map hrx,
    List.length_range]

theorem named_layers (name : String) (source : AngleSource σ) (width : Nat)
    (pairs : List (Qubit × Qubit)) (count : Nat) (s : σ) :
    named name (layers source width pairs count s).1 =
      count * (pairs.length * (2 * (if "cx" = name then 1 else 0) + if "rz" = name then 1 else 0) +
        width * if "rx" = name then 1 else 0) := by
  have hlayer (l : Nat) := named_layer name width pairs (source.stream s (2 * l))
    (source.stream s (2 * l + 1))
  rw [layers_eq, named_flatMap hlayer, List.length_range]

theorem named_gates (name : String) (source : AngleSource σ) (width : Nat)
    (pairs : List (Qubit × Qubit)) (count : Nat) (s : σ) :
    named name (gates width (layers source width pairs count s).1) =
      width * (if "h" = name then 1 else 0) +
        count * (pairs.length * (2 * (if "cx" = name then 1 else 0) + if "rz" = name then 1 else 0) +
          width * if "rx" = name then 1 else 0) + if "measure" = name then 1 else 0 := by
  have hh (q : Qubit) : (Gate.h q).name = "h" := rfl
  have hmeasure : (Gate.measure (List.range width)).name = "measure" := rfl
  rw [gates, named_append, named_append, named_map hh, List.length_range, named_layers, named_cons,
    named_nil, hmeasure, Nat.add_zero]

/-- How often each name occurs that occurs at all. -/
theorem countOps_gates {c : Circuit} {source : AngleSource σ} {count : Nat} {s : σ}
    (h : c.gates = gates width (layers source width pairs count s).1) :
    c.countOps.count "h" = width ∧
      c.countOps.count "cx" = 2 * count * pairs.length ∧
      c.countOps.count "rz" = count * pairs.length ∧
      c.countOps.count "rx" = count * width ∧
      c.countOps.count "measure" = 1 := by
  have hcount (name : String) := (Circuit.count_countOps c name).trans
    ((congrArg (named name) h).trans (named_gates name source width pairs count s))
  simp only [hcount, String.reduceEq, if_true, if_false]
  refine ⟨?_, ?_, ?_, ?_, ?_⟩ <;> ring

theorem length_gates (source : AngleSource σ) (width : Nat) (pairs : List (Qubit × Qubit))
    (count : Nat) (s : σ) :
    (gates width (layers source width pairs count s).1).length =
      width + count * (3 * pairs.length + width) + 1 := by
  rw [gates, List.length_append, List.length_append, List.length_map, List.length_range, length_layers,
    List.length_singleton, Nat.mul_comm pairs.length 3]

/-! ## One edge -/

/-- The two wires of an edge meet, the second is turned, and they meet again. -/
theorem after_edgePhase (f : Profile) (gamma : Binary64) (edge : Qubit × Qubit) :
    f.after (edgePhase gamma edge) = fun q =>
      if q = edge.1 ∨ q = edge.2 then max (f edge.1) (f edge.2) + 3 else f q := by
  have hturn (f : Profile) (q : Nat) :
      f.after [.rz ⟨.phi, gamma.double⟩ edge.2] q = f q + if q = edge.2 then 1 else 0 :=
    Profile.after_single rfl f q
  rw [edgePhase, Profile.after_cons, Profile.after_cx, Profile.after_cons, Profile.after_cx]
  funext q
  simp only [Profile.meet, hturn, true_or, or_true, if_true]
  by_cases hq : q = edge.1 ∨ q = edge.2
  · rw [if_pos hq, if_pos hq]
    split <;> omega
  · have hsecond : q ≠ edge.2 := fun h => hq (Or.inr h)
    rw [if_neg hq, if_neg hq, if_neg hq, if_neg hsecond, Nat.add_zero]

theorem after_edgePhase_le {f : Profile} {height : Nat} (h : ∀ q, f q ≤ height) (gamma : Binary64)
    (edge : Qubit × Qubit) (q : Nat) : f.after (edgePhase gamma edge) q ≤ height + 3 := by
  have hq := h q
  have hmax := Nat.max_le.mpr ⟨h edge.1, h edge.2⟩
  simp only [after_edgePhase]
  split <;> omega

/-- A wire that leads hands the lead on along an edge. -/
theorem leadsAt_edgePhase {f : Profile} (gamma : Binary64) (edge : Qubit × Qubit) {height : Nat}
    (h : f.LeadsAt edge.1 height) : (f.after (edgePhase gamma edge)).LeadsAt edge.2 (height + 3) := by
  constructor
  · rw [after_edgePhase]
    simp only [or_true, if_true, h.eq, Nat.max_eq_left (h.le edge.2)]
  · exact after_edgePhase_le h.le gamma edge

/-! ## Layers -/

theorem after_cost_le (gamma : Binary64) (pairs : List (Qubit × Qubit)) {f : Profile} {height : Nat}
    (h : ∀ q, f q ≤ height) (q : Nat) :
    f.after (cost gamma pairs) q ≤ height + 3 * pairs.length := by
  induction pairs generalizing f height with
  | nil => exact h q
  | cons edge rest ih =>
      have hrest := ih (after_edgePhase_le h gamma edge)
      rw [cost, List.flatMap_cons, Profile.after_append, List.length_cons]
      refine Nat.le_trans hrest ?_
      omega

theorem after_mixer (f : Profile) (beta : Binary64) (width : Nat) :
    f.after (mixer beta width) = f.raise width 1 := Profile.after_map_range (fun _ => rfl) f width

theorem after_layer_le (gamma beta : Binary64) (width : Nat) (pairs : List (Qubit × Qubit))
    {f : Profile} {height : Nat} (h : ∀ q, f q ≤ height) (q : Nat) :
    f.after (layer width pairs gamma beta) q ≤ height + (3 * pairs.length + 1) := by
  have hcost := after_cost_le gamma pairs h q
  rw [layer, Profile.after_append, after_mixer, Profile.raise]
  split <;> omega

/-- No wire rises by more than three layers for each edge and one more at each layer. -/
theorem after_layers_le (source : AngleSource σ) (width : Nat) (pairs : List (Qubit × Qubit))
    (count : Nat) {f : Profile} {height : Nat} (h : ∀ q, f q ≤ height) (s : σ) (q : Nat) :
    f.after (layers source width pairs count s).1 q ≤ height + count * (3 * pairs.length + 1) := by
  induction count generalizing f height s with
  | zero => simpa [layers] using h q
  | succ count ih =>
      have hlayer := after_layer_le (source.draw s).1 (source.draw (source.draw s).2).1 width pairs h
      have hrest := ih hlayer (source.draw (source.draw s).2).2
      have hcount : height + (count + 1) * (3 * pairs.length + 1) =
          height + (3 * pairs.length + 1) + count * (3 * pairs.length + 1) := by ring
      rw [hcount]
      simp only [layers]
      rw [Profile.after_append]
      exact hrest

/-! ## The ring -/

/-- After some edges of the ring the wire that the last of them leads to is in the lead. -/
theorem leadsAt_ring (gamma : Binary64) {f : Profile} {height : Nat} (h : f.LeadsAt 0 height)
    {count : Nat} (hcount : count ≤ width) :
    (f.after (cost gamma ((List.range count).map fun i => (i, (i + 1) % width)))).LeadsAt
      (count % width) (height + 3 * count) := by
  induction count with
  | zero =>
      rw [Nat.zero_mod]
      exact h
  | succ count ih =>
      have hlead := ih (by omega)
      rw [Nat.mod_eq_of_lt hcount] at hlead
      have hnext := leadsAt_edgePhase gamma (count, (count + 1) % width) hlead
      rw [List.range_succ, List.map_append, cost, List.flatMap_append, Profile.after_append]
      exact hnext

/-- A layer on the ring goes around once, and the first wire leads again. -/
theorem leadsAt_layer_ring (hw : 0 < width) (gamma beta : Binary64) {f : Profile} {height : Nat}
    (h : f.LeadsAt 0 height) :
    (f.after (layer width (Graph.ringPairs width) gamma beta)).LeadsAt 0
      (height + (3 * width + 1)) := by
  have hring := leadsAt_ring gamma h (Nat.le_refl width)
  rw [Nat.mod_self] at hring
  rw [layer, Profile.after_append, after_mixer]
  exact hring.raise hw 1

theorem leadsAt_layers_ring (source : AngleSource σ) (hw : 0 < width) (count : Nat) {f : Profile}
    {height : Nat} (h : f.LeadsAt 0 height) (s : σ) :
    (f.after (layers source width (Graph.ringPairs width) count s).1).LeadsAt 0
      (height + count * (3 * width + 1)) := by
  induction count generalizing f height s with
  | zero => simpa [layers] using h
  | succ count ih =>
      have hlayer := leadsAt_layer_ring hw (source.draw s).1 (source.draw (source.draw s).2).1 h
      have hrest := ih hlayer (source.draw (source.draw s).2).2
      have hcount : height + (count + 1) * (3 * width + 1) =
          height + (3 * width + 1) + count * (3 * width + 1) := by ring
      rw [hcount]
      simp only [layers]
      rw [Profile.after_append]
      exact hrest

/-! ## The circuit -/

/-- Each layer adds what its edges ask for at most, to the layer before them all and the one behind. -/
theorem after_gates_le (source : AngleSource σ) (width : Nat) (pairs : List (Qubit × Qubit))
    (count : Nat) (s : σ) (q : Nat) :
    Profile.empty.after (gates width (layers source width pairs count s).1) q ≤
      2 + count * (3 * pairs.length + 1) := by
  have hstart (q : Nat) : Profile.empty.raise width 1 q ≤ 1 := by
    simp only [Profile.raise, Profile.empty]
    split <;> omega
  have hlayers := after_layers_le source width pairs count hstart s q
  rw [gates, Profile.after_append, Profile.after_append, Profile.after_hadamards, Profile.after_measure,
    Profile.raise]
  split <;> omega

/-- On the ring the first wire leads from the first layer to the last. -/
theorem leadsAt_gates_ring (source : AngleSource σ) (hw : 0 < width) (count : Nat) (s : σ) :
    (Profile.empty.after (gates width (layers source width (Graph.ringPairs width) count s).1)).LeadsAt 0
      (2 + count * (3 * width + 1)) := by
  have hstart := (Profile.leadsAt_empty 0).raise hw 1
  have hlayers := leadsAt_layers_ring source hw count hstart s
  rw [gates, Profile.after_append, Profile.after_append, Profile.after_hadamards]
  convert hlayers.after_measure hw using 1
  omega

/-- **An optimization on some qubits has exactly so many gates of each name for its edges and layers**, its
metadata record how many edges and layers there are, and it has at most three layers for each edge and one
more in each round, besides the first and the last; on the ring it has exactly so many. -/
theorem optimization_profile (h : source.WithinTurn) (hw : 0 < width) (hword : width < UInt32.size)
    {edges : Option (List Edge)} (hpairs : Graph.edges width edges = .ok pairs) (settings : Settings)
    (s : σ) :
    ∃ c count, (circuit source width edges settings s).1 = .ok c ∧
      count = settings.qaoaLayers.toNat ∧ c.width = width ∧
      c.size = width + count * (3 * pairs.length + width) + 1 ∧
      c.countOps.count "h" = width ∧
      c.countOps.count "cx" = 2 * count * pairs.length ∧
      c.countOps.count "rz" = count * pairs.length ∧
      c.countOps.count "rx" = count * width ∧
      c.countOps.count "measure" = 1 ∧
      c.metadata.lookup "edges" = some (.nat pairs.length) ∧
      c.metadata.lookup "layers" = some (.nat count) ∧
      c.depth ≤ 2 + count * (3 * pairs.length + 1) ∧
      (edges = none → 2 ≤ width → c.depth = 2 + count * (3 * width + 1)) := by
  have hmake := congrArg Prod.fst (circuit_eq h hw hpairs settings s)
  obtain ⟨hh, hcx, hrz, hrx, hmeasure⟩ := countOps_gates (c := ⟨Family.qaoa.title, width,
    gates width (layers source width pairs settings.qaoaLayers.toNat s).1,
    Circuit.described (metadata settings.qaoaLayers.toNat pairs)⟩) rfl
  refine ⟨_, _, hmake, rfl, rfl, length_gates source width pairs _ s, hh, hcx, hrz, hrx, hmeasure, rfl,
    rfl, ?_, ?_⟩
  · exact Circuit.depth_le_iff.mpr (after_gates_le source width pairs _ s)
  · rintro rfl h2
    -- without edges the pairs are those of the ring
    have hring := Graph.edges_none h2 (Nat.le_of_lt hword)
    rw [hpairs] at hring
    cases hring
    exact Circuit.depth_of_leadsAt (leadsAt_gates_ring source hw _ s)

/-- Control: two layers on the ring of five qubits. -/
theorem optimization_profile_five :
    Xoshiro.angles.WithinTurn ∧ 0 < 5 ∧ 5 < UInt32.size ∧ Graph.edges 5 none = .ok (Graph.ringPairs 5) ∧
      ∃ c, (circuit Xoshiro.angles 5 none Settings.usual (Xoshiro.ofSeed 7)).1 = .ok c ∧ c.size = 46 ∧
        c.countOps.count "cx" = 20 ∧ c.countOps.count "rx" = 10 ∧ c.depth = 34 := by
  have hring : Graph.edges 5 none = .ok (Graph.ringPairs 5) := Graph.edges_none (by decide) (by decide)
  obtain ⟨c, count, hc, hcount, -, hsize, -, hcx, -, hrx, -, -, -, -, hdepth⟩ :=
    optimization_profile Xoshiro.withinTurn_angles (show 0 < 5 by decide) (by decide) hring Settings.usual
      (Xoshiro.ofSeed 7)
  have htwo : count = 2 := hcount
  rw [htwo] at hsize hcx hrx hdepth
  exact ⟨Xoshiro.withinTurn_angles, by decide, by decide, hring, c, hc, hsize, hcx, hrx,
    hdepth rfl (by decide)⟩

end QCircuit.Qaoa
