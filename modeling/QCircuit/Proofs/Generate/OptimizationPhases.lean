import QCircuit.Proofs.Circuit.Bits
import QCircuit.Proofs.Generate.Draws
import QCircuit.Proofs.Problem.Graph

/-!
# The phases of an optimization

The gates of an edge first add the bit of its one qubit to that of the other, then rotate the other, which
by then carries the sum of the two bits, and add the bit once more, which takes it away again
(`Qaoa.phases_edgePhase`, `Qaoa.after_edgePhase_bits`). So an edge finds the bits as they were at the
start of its layer, whatever edges come before it and whichever qubits these share with it, and the
rotations of a layer are one for each edge, by the sum of the two bits that it joins
(`Qaoa.phases_cost`).
-/

set_option autoImplicit false

namespace QCircuit.Qaoa

variable {σ : Type} {source : AngleSource σ} {width : Nat} {pairs : List (Qubit × Qubit)}

/-! ## One edge -/

/-- The gates of an edge give the bits back as they were. -/
theorem after_edgePhase_bits {edge : Qubit × Qubit} (h : edge.1 ≠ edge.2) (gamma : Binary64)
    (x : Bits) : x.after (edgePhase gamma edge) = x := by
  rw [edgePhase, Bits.after, List.foldl_cons, List.foldl_cons, List.foldl_cons, List.foldl_nil,
    Bits.through_rz]
  exact x.through_cx_cx h

/-- The one rotation of an edge finds the sum of the bits of its qubits. -/
theorem phases_edgePhase (gamma : Binary64) (edge : Qubit × Qubit) (x : Bits) :
    x.phases (edgePhase gamma edge) = [(gamma.double, edge.2, x edge.1 ^^ x edge.2)] := by
  have hsum : x.through (.cx edge.1 edge.2) edge.2 = (x edge.1 ^^ x edge.2) := by
    rw [Bits.through_cx, Function.update_self, Bool.xor_comm]
  simp only [edgePhase, Bits.phases, Gate.turnsAboutZ_cx, Gate.turnsAboutZ_rz, hsum, List.map_nil,
    List.map_cons, List.nil_append, List.append_nil]

/-! ## The edges of a layer -/

/-- The edges of a layer give the bits back as they were. -/
theorem after_cost_bits (hp : ∀ p ∈ pairs, p.1 ≠ p.2) (gamma : Binary64) (x : Bits) :
    x.after (cost gamma pairs) = x := by
  apply Bits.after_flatMap
  intro p hmem
  exact after_edgePhase_bits (hp p hmem) gamma

/-- Each edge of a layer is rotated by once, by the sum of the bits of its qubits at the start. -/
theorem phases_cost (hp : ∀ p ∈ pairs, p.1 ≠ p.2) (gamma : Binary64) (x : Bits) :
    x.phases (cost gamma pairs) = pairs.map fun p => (gamma.double, p.2, x p.1 ^^ x p.2) := by
  have hback : ∀ p ∈ pairs, ∀ x : Bits, x.after (edgePhase gamma p) = x := by
    intro p hmem
    exact after_edgePhase_bits (hp p hmem) gamma
  rw [cost, Bits.phases_flatMap hback, List.map_eq_flatMap]
  simp only [phases_edgePhase]

/-- Besides the rotations a layer has nothing for its edges but controlled X gates. -/
theorem cx_or_rz_of_mem_cost {gamma : Binary64} {g : Gate} (h : g ∈ cost gamma pairs) :
    ∃ p ∈ pairs, g = .cx p.1 p.2 ∨ g = .rz ⟨.phi, gamma.double⟩ p.2 := by
  obtain ⟨p, hmem, hg⟩ := List.mem_flatMap.mp h
  refine ⟨p, hmem, ?_⟩
  simp only [edgePhase, List.mem_cons, List.not_mem_nil, or_false] at hg
  rcases hg with hg | hg | hg
  · exact Or.inl hg
  · exact Or.inr hg
  · exact Or.inl hg

/-! ## The circuit -/

/-- **A layer of an optimization applies one phase for each edge and nothing else before it mixes.** Its
gates for the edges are controlled X gates and rotations about Z. On every assignment of bits they give the
bits back as they were, and the rotations are one for each edge in order, by twice the first angle that the
layer draws, on the second qubit of the edge when that carries the sum of the bits of both. -/
theorem cost_phases (h : source.WithinTurn) (hw : 0 < width) {edges : Option (List Edge)}
    (hpairs : Graph.edges width edges = .ok pairs) (settings : Settings) (s : σ) :
    ∃ (c : Circuit) (coupling mixing : Nat → List Gate),
      (circuit source width edges settings s).1 = .ok c ∧
      c.gates = (List.range width).map .h ++
        (List.range settings.qaoaLayers.toNat).flatMap (fun l => coupling l ++ mixing l) ++
        [.measure (List.range width)] ∧
      ∀ l, mixing l = (List.range width).map (.rx ⟨.theta, (source.stream s (2 * l + 1)).double⟩) ∧
        (∀ g ∈ coupling l, ∃ p ∈ pairs,
          g = .cx p.1 p.2 ∨ g = .rz ⟨.phi, (source.stream s (2 * l)).double⟩ p.2) ∧
        ∀ x : Bits, x.after (coupling l) = x ∧
          x.phases (coupling l) =
            pairs.map fun p => ((source.stream s (2 * l)).double, p.2, x p.1 ^^ x p.2) := by
  have hjoined : ∀ p ∈ pairs, p.1 ≠ p.2 := fun p hmem => (Graph.joined_of_edges_ok hpairs p hmem).2.2
  refine ⟨_, fun l => cost (source.stream s (2 * l)) pairs,
    fun l => mixer (source.stream s (2 * l + 1)) width,
    congrArg Prod.fst (circuit_eq h hw hpairs settings s), ?_, ?_⟩
  · simp only [gates, layers_eq, layer]
  · intro l
    refine ⟨rfl, ?_, ?_⟩
    · intro g hg
      exact cx_or_rz_of_mem_cost hg
    · intro x
      exact ⟨after_cost_bits hjoined _ x, phases_cost hjoined _ x⟩

/-- Control: an edge, the same edge the other way round and one that goes on from it. With only the qubit
between them set, all three rotations of the first layer find a bit that is set. -/
theorem cost_phases_shared :
    Xoshiro.angles.WithinTurn ∧ 0 < 3 ∧
      Graph.edges 3 (some [.pair 0 1, .pair 1 0, .vertex 1]) = .ok [(0, 1), (1, 0), (1, 2)] ∧
      ∃ (c : Circuit) (coupling mixing : Nat → List Gate) (angle : Binary64),
        (circuit Xoshiro.angles 3 (some [.pair 0 1, .pair 1 0, .vertex 1]) Settings.usual
          (Xoshiro.ofSeed 7)).1 = .ok c ∧
        c.gates = (List.range 3).map .h ++
          (List.range 2).flatMap (fun l => coupling l ++ mixing l) ++ [.measure (List.range 3)] ∧
        Bits.phases (fun q => q == 1) (coupling 0) =
          [(angle, 1, true), (angle, 0, true), (angle, 2, true)] ∧
        Bits.after (fun q => q == 1) (coupling 0) = fun q => q == 1 := by
  have hpairs : Graph.edges 3 (some [.pair 0 1, .pair 1 0, .vertex 1]) =
      .ok [(0, 1), (1, 0), (1, 2)] := rfl
  obtain ⟨c, coupling, mixing, hc, hgates, hlayer⟩ :=
    cost_phases Xoshiro.withinTurn_angles (show 0 < 3 by decide) hpairs Settings.usual (Xoshiro.ofSeed 7)
  obtain ⟨-, -, hbits⟩ := hlayer 0
  obtain ⟨hafter, hphases⟩ := hbits fun q => q == 1
  exact ⟨Xoshiro.withinTurn_angles, by decide, hpairs, c, coupling, mixing, _, hc, hgates, hphases,
    hafter⟩

end QCircuit.Qaoa
