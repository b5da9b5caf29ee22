import QCircuit.Proofs.Generate.Draws

/-!
# More rounds

Rounds are laid out one behind another, each from the draws that follow those of the rounds before it, so
how many there are in all is nothing that a round could depend on. The gates of a number of rounds therefore
begin with those of any smaller number, and what comes behind these are the rounds that a source lays out
that has been drawn from so often (`Vqe.layers_add`, `Qaoa.layers_add`).

Three of the generators have a knob for the number of their rounds. To raise it puts more rounds between
the gates that were there and the measurement, which stays the same (`Generate.goesOn_of_le`). A search does
no more rounds than are best, so from there on its knob changes nothing.
-/

set_option autoImplicit false

namespace QCircuit

variable {σ : Type} {source : AngleSource σ} {width : Nat}

/-! ## Rounds behind rounds -/

namespace Grover

/-- A search with more rounds begins with the gates of the one with fewer. -/
theorem gates_add (width m n : Nat) :
    gates width (m + n) = (List.range width).map .h ++ (List.replicate m (round width)).flatten ++
      (List.replicate n (round width)).flatten ++ [.measure (List.range width)] := by
  rw [gates, ← List.replicate_append_replicate, List.flatten_append, ← List.append_assoc]

/-- A cap that is raised takes no round away. -/
theorem appliedIterations_le_of_cap_le {settings raised : Settings}
    (h : settings.groverMaxIterations ≤ raised.groverMaxIterations) (width : Nat) :
    appliedIterations width settings ≤ appliedIterations width raised := by
  have hle := UInt32.le_iff_toNat_le.mp h
  unfold appliedIterations
  omega

end Grover

namespace Vqe

/-- The layers of an eigensolver, cut in two behind any of them: the second part is drawn from where the
draws of the first end. -/
theorem layers_add (source : AngleSource σ) (width m n : Nat) (s : σ) :
    (layers source width (m + n) s).1 = (layers source width m s).1 ++
      (layers source width n (source.after (2 * width * m) s)).1 := by
  induction m generalizing s with
  | zero => rw [Nat.zero_add, Nat.mul_zero, AngleSource.after, layers, List.nil_append]
  | succ m ih =>
      -- a layer draws twice for every qubit, and the layers behind it start where its draws end
      have hdraws : 2 * width * (m + 1) = width + (width + 2 * width * m) := by
        rw [Nat.mul_succ]
        omega
      rw [Nat.succ_add, hdraws, source.after_add, source.after_add]
      simp only [layers, AngleSource.take_eq, ih, List.append_assoc]

theorem layers_of_le (source : AngleSource σ) (width : Nat) {m n : Nat} (h : m ≤ n) (s : σ) :
    (layers source width n s).1 = (layers source width m s).1 ++
      (layers source width (n - m) (source.after (2 * width * m) s)).1 := by
  rw [← layers_add, Nat.add_sub_of_le h]

end Vqe

namespace Qaoa

/-- The layers of an optimization, cut in two behind any of them. -/
theorem layers_add (source : AngleSource σ) (width : Nat) (pairs : List (Qubit × Qubit)) (m n : Nat)
    (s : σ) :
    (layers source width pairs (m + n) s).1 = (layers source width pairs m s).1 ++
      (layers source width pairs n (source.after (2 * m) s)).1 := by
  induction m generalizing s with
  | zero => rw [Nat.zero_add, Nat.mul_zero, AngleSource.after, layers, List.nil_append]
  | succ m ih =>
      -- one draw for the cost and one for the mixer, however many pairs there are
      have hdraws : 2 * (m + 1) = 1 + (1 + 2 * m) := by omega
      rw [Nat.succ_add, hdraws, source.after_add, source.after_add]
      simp only [layers, ih, List.append_assoc, AngleSource.after]

theorem layers_of_le (source : AngleSource σ) (width : Nat) (pairs : List (Qubit × Qubit)) {m n : Nat}
    (h : m ≤ n) (s : σ) :
    (layers source width pairs n s).1 = (layers source width pairs m s).1 ++
      (layers source width pairs (n - m) (source.after (2 * m) s)).1 := by
  rw [← layers_add, Nat.add_sub_of_le h]

end Qaoa

/-! ## Circuits -/

namespace Generate

/-- Both answers are circuits that end in the measurement of the register; up to there the second has the
gates of the first and then some more. -/
def GoesOn (width : Nat) (more : List Gate) (answer raised : Except GenerationError Circuit) : Prop :=
  ∃ (c d : Circuit) (front : List Gate), answer = .ok c ∧ raised = .ok d ∧
    c.gates = front ++ [.measure (List.range width)] ∧
    d.gates = front ++ more ++ [.measure (List.range width)]

variable {edges : Option (List Edge)} {pairs : List (Qubit × Qubit)} {settings raised : Settings}

theorem goesOn_grover (hw : 0 < width)
    (hle : settings.groverMaxIterations ≤ raised.groverMaxIterations) (s : σ) :
    GoesOn width
      (List.replicate (Grover.appliedIterations width raised - Grover.appliedIterations width settings)
        (Grover.round width)).flatten
      (direct source .grover width edges settings s).1
      (direct source .grover width edges raised s).1 := by
  have hrounds := Grover.appliedIterations_le_of_cap_le hle width
  rw [direct, direct, Grover.circuit_eq hw, Grover.circuit_eq hw]
  refine ⟨_, _, _, rfl, rfl, rfl, ?_⟩
  rw [← Grover.gates_add, Nat.add_sub_of_le hrounds]

theorem goesOn_vqe (h : source.WithinTurn) (hw : 0 < width)
    (hle : settings.vqeLayers ≤ raised.vqeLayers) (s : σ) :
    GoesOn width
      (Vqe.layers source width (raised.vqeLayers.toNat - settings.vqeLayers.toNat)
        (source.after (2 * width * settings.vqeLayers.toNat) s)).1
      (direct source .vqe width edges settings s).1
      (direct source .vqe width edges raised s).1 := by
  have hlayers := Vqe.layers_of_le source width (UInt32.le_iff_toNat_le.mp hle) s
  rw [direct, direct, Vqe.circuit_eq h hw, Vqe.circuit_eq h hw, hlayers]
  exact ⟨_, _, _, rfl, rfl, rfl, rfl⟩

theorem goesOn_qaoa (h : source.WithinTurn) (hw : 0 < width)
    (hpairs : Graph.edges width edges = .ok pairs) (hle : settings.qaoaLayers ≤ raised.qaoaLayers)
    (s : σ) :
    GoesOn width
      (Qaoa.layers source width pairs (raised.qaoaLayers.toNat - settings.qaoaLayers.toNat)
        (source.after (2 * settings.qaoaLayers.toNat) s)).1
      (direct source .qaoa width edges settings s).1
      (direct source .qaoa width edges raised s).1 := by
  have hlayers := Qaoa.layers_of_le source width pairs (UInt32.le_iff_toNat_le.mp hle) s
  rw [direct, direct, Qaoa.circuit_eq h hw hpairs, Qaoa.circuit_eq h hw hpairs, hlayers]
  refine ⟨_, _, _, rfl, rfl, rfl, ?_⟩
  rw [Qaoa.gates, ← List.append_assoc]

/-- **To raise a knob for rounds only puts more rounds before the measurement.** Of two settings that differ
in one such knob alone, drawn for from one state of the source, the greater gives the gates of the smaller
without their measurement, then more rounds, and then the same measurement. A search gets rounds of the one
kind it has; an eigensolver and an optimization get the layers that are drawn after those of the smaller. -/
theorem goesOn_of_le (h : source.WithinTurn) (hw : 0 < width)
    (hpairs : Graph.edges width edges = .ok pairs) (settings : Settings) {a b : UInt32} (hab : a ≤ b)
    (s : σ) :
    GoesOn width
      (List.replicate (min (Grover.optimalIterations width) b.toNat -
        min (Grover.optimalIterations width) a.toNat) (Grover.round width)).flatten
      (direct source .grover width edges { settings with groverMaxIterations := a } s).1
      (direct source .grover width edges { settings with groverMaxIterations := b } s).1 ∧
    GoesOn width
      (Vqe.layers source width (b.toNat - a.toNat) (source.after (2 * width * a.toNat) s)).1
      (direct source .vqe width edges { settings with vqeLayers := a } s).1
      (direct source .vqe width edges { settings with vqeLayers := b } s).1 ∧
    GoesOn width
      (Qaoa.layers source width pairs (b.toNat - a.toNat) (source.after (2 * a.toNat) s)).1
      (direct source .qaoa width edges { settings with qaoaLayers := a } s).1
      (direct source .qaoa width edges { settings with qaoaLayers := b } s).1 :=
  ⟨goesOn_grover hw hab s, goesOn_vqe h hw hab s, goesOn_qaoa h hw hpairs hab s⟩

/-- Control: an optimization of one layer and one of three on a ring of three qubits. The second has two
layers more, drawn after two angles of the first. -/
theorem goesOn_of_le_ring :
    Xoshiro.angles.WithinTurn ∧ 0 < 3 ∧
      Graph.edges 3 none = .ok [(0, 1), (1, 2), (2, 0)] ∧ (1 : UInt32) ≤ 3 ∧
      GoesOn 3
        (Qaoa.layers Xoshiro.angles 3 [(0, 1), (1, 2), (2, 0)] 2
          (Xoshiro.angles.after 2 (Xoshiro.ofSeed 7))).1
        (direct Xoshiro.angles .qaoa 3 none ⟨3, 16, 3, 1⟩ (Xoshiro.ofSeed 7)).1
        (direct Xoshiro.angles .qaoa 3 none ⟨3, 16, 3, 3⟩ (Xoshiro.ofSeed 7)).1 := by
  have hpairs : Graph.edges 3 none = .ok [(0, 1), (1, 2), (2, 0)] := rfl
  obtain ⟨-, -, hring⟩ := goesOn_of_le Xoshiro.withinTurn_angles (show 0 < 3 by decide) hpairs
    Settings.usual (show (1 : UInt32) ≤ 3 by decide) (Xoshiro.ofSeed 7)
  exact ⟨Xoshiro.withinTurn_angles, by decide, hpairs, by decide, hring⟩

end Generate

end QCircuit
