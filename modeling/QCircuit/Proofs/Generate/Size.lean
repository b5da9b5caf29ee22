import Mathlib.Algebra.BigOperators.Group.List.Basic
import Mathlib.Tactic.Ring
import QCircuit.Proofs.Generate.Draws
import QCircuit.Proofs.Generate.Width

/-!
# How large a generated circuit is

The gates that a generator lays out are counted loop by loop: a search takes six gates for each qubit and
round (`Grover.length_gates`), a period finding is quadratic in its width (`Shor.two_mul_length_gates`),
and the two generators that draw take as many gates for one layer as for another (`Vqe.length_layers`,
`Qaoa.length_layers`).

As the sizing chooses at most sixty-three qubits and the settings are bounded, so are the circuits that are
answered (`Generate.named_size_le`). The longest one without edges is a search on sixty-three qubits.
-/

set_option autoImplicit false

namespace QCircuit

variable {width : Nat}

/-! ## Searches -/

namespace Grover

theorem length_fan (width : Nat) : (fan width).length = width - 1 := by simp [fan]

theorem length_oracle (hw : 0 < width) : (oracle width).length = width + 1 := by
  simp only [oracle, List.length_append, List.length_cons, List.length_nil, length_fan]
  omega

/-- Two gates on each qubit before the fan and two behind it. -/
theorem length_diffusion (width : Nat) :
    (diffusion width).length = width * 2 + (width - 1) + width * 2 := by
  have hpairs : ∀ f : Nat → List Gate, (∀ i, (f i).length = 2) →
      ((List.range width).flatMap f).length = width * 2 := by
    intro f hf
    rw [length_flatMap_of_length hf, List.length_range]
  rw [diffusion, List.length_append, List.length_append, length_fan, hpairs _ fun _ => rfl,
    hpairs _ fun _ => rfl]

theorem length_round (hw : 0 < width) : (round width).length = 6 * width := by
  rw [round, List.length_append, length_oracle hw, length_diffusion]
  omega

theorem length_gates (hw : 0 < width) (rounds : Nat) :
    (gates width rounds).length = width + rounds * (6 * width) + 1 := by
  simp [gates, length_round hw, Nat.add_assoc]

theorem length_gates_le (hw : 0 < width) (hwidth : width ≤ 63) {rounds : Nat} (hrounds : rounds ≤ 64) :
    (gates width rounds).length ≤ 24256 := by
  have hmul := Nat.mul_le_mul hrounds (Nat.mul_le_mul_left 6 hwidth)
  rw [length_gates hw]
  omega

end Grover

/-! ## Period finding -/

namespace Shor

theorem length_entangle (width : Nat) :
    (entangle width).length = controls width * targets width := by
  have hrow : ∀ i, ((List.range (targets width)).map fun j =>
      Gate.cx i (controls width + j)).length = targets width := by
    intro i
    rw [List.length_map, List.length_range]
  rw [entangle, length_flatMap_of_length hrow, List.length_range]

theorem length_reversal (count : Nat) : (reversal count).length = count / 2 := by simp [reversal]

theorem length_transform (i : Nat) : (transform i).length = i + 1 := by simp [transform]

/-- Each qubit is transformed with one gate more than the one before it. -/
theorem two_mul_length_transforms (count : Nat) :
    2 * ((List.range count).flatMap transform).length = count * (count + 1) := by
  induction count with
  | zero => rfl
  | succ count ih =>
      rw [List.range_succ, List.flatMap_append, List.length_append, List.flatMap_singleton,
        length_transform, Nat.mul_add, ih]
      ring

theorem two_mul_length_gates (width : Nat) :
    2 * (gates width).length = 2 * (controls width + controls width * targets width +
      controls width / 2 + 1) + controls width * (controls width + 1) := by
  have htransforms := two_mul_length_transforms (controls width)
  simp only [gates, inverseFourier, List.length_append, List.length_map, List.length_range,
    length_entangle, length_reversal, List.length_singleton]
  omega

/-- Either register has at most sixty-four qubits. -/
theorem length_gates_le (h : width ≤ 128) : (gates width).length ≤ 6273 := by
  have hcontrols : controls width ≤ 64 := Nat.div_le_of_le_mul h
  have htargets : targets width ≤ 64 := by
    unfold targets controls
    omega
  have hentangle := Nat.mul_le_mul hcontrols htargets
  have htransforms := Nat.mul_le_mul hcontrols (Nat.add_le_add_right hcontrols 1)
  have hlength := two_mul_length_gates width
  omega

end Shor

/-! ## Layers with drawn angles -/

variable {σ : Type}

namespace Vqe

theorem length_rotations (rotation : Binary64 → Qubit → Gate) (angles : List Binary64) :
    (rotations rotation angles).length = angles.length := by simp [rotations]

theorem length_layer (width : Nat) (thetas phis : List Binary64) :
    (layer width thetas phis).length = thetas.length + (width - 1) + phis.length := by
  simp [layer, chain, length_rotations, Nat.add_assoc]

theorem length_layers (source : AngleSource σ) (width count : Nat) (s : σ) :
    (layers source width count s).1.length = count * (width + (width - 1) + width) := by
  induction count generalizing s with
  | zero => simp [layers]
  | succ count ih =>
      -- whatever angles are drawn, there is one for each rotation
      simp only [layers, List.length_append, length_layer, AngleSource.length_take, ih]
      ring

theorem length_layers_le (source : AngleSource σ) (hwidth : width ≤ 63) {count : Nat}
    (hcount : count ≤ 64) (s : σ) : (layers source width count s).1.length ≤ 12032 := by
  have hlayer : width + (width - 1) + width ≤ 188 := by omega
  rw [length_layers]
  exact Nat.mul_le_mul hcount hlayer

end Vqe

namespace Qaoa

theorem length_layers (source : AngleSource σ) (width : Nat) (pairs : List (Qubit × Qubit))
    (count : Nat) (s : σ) :
    (layers source width pairs count s).1.length = count * (pairs.length * 3 + width) := by
  induction count generalizing s with
  | zero => simp [layers]
  | succ count ih =>
      simp only [layers, List.length_append, length_cost, mixer, List.length_map, List.length_range, ih]
      ring

theorem length_layers_le (source : AngleSource σ) (width : Nat) (pairs : List (Qubit × Qubit))
    {count : Nat} (hcount : count ≤ 64) (s : σ) :
    (layers source width pairs count s).1.length ≤ 64 * (pairs.length * 3 + width) := by
  rw [length_layers]
  exact Nat.mul_le_mul_right _ hcount

end Qaoa

/-! ## Answers -/

namespace Generate

variable {source : AngleSource σ} {edges : Option (List Edge)} {settings : Settings} {s : σ}
  {family : Family} {c : Circuit}

/-- A graph has as many edges as are given, or as the ring has. -/
theorem length_pairs_le {pairs : List (Qubit × Qubit)} (h : Graph.edges width edges = .ok pairs) :
    pairs.length ≤ width + (edges.getD []).length := by
  rw [Graph.length_edges h]
  cases edges with
  | none => simp [Graph.ring]
  | some edges => exact Nat.le_add_left _ _

theorem Makes.size_le (h : Makes source width edges settings s family c) (hbounded : settings.Bounded)
    (hlow : 2 ≤ width) (hhigh : width ≤ 63) : c.size ≤ 24256 + 192 * (edges.getD []).length := by
  cases h with
  | bell => exact Nat.le_trans (by decide : 3 ≤ 24256) (Nat.le_add_right _ _)
  | grover =>
      have hrounds : Grover.appliedIterations width settings ≤ 64 :=
        Nat.le_trans (Nat.min_le_right _ _) hbounded.grover
      have hlength := Grover.length_gates_le (by omega) hhigh hrounds
      exact Nat.le_trans hlength (Nat.le_add_right _ _)
  | shor =>
      -- here the settings may ask for more qubits than the sizing does
      have hfull : Shor.fullWidth width settings ≤ 128 := Nat.max_le.mpr ⟨by omega, hbounded.shor⟩
      have hlength := Shor.length_gates_le hfull
      show (Shor.gates (Shor.fullWidth width settings)).length ≤ _
      omega
  | vqe =>
      have hlayers := Vqe.length_layers_le source hhigh hbounded.vqe s
      rw [Circuit.size, List.length_append, List.length_singleton]
      omega
  | @qaoa pairs hpairs =>
      have hedges := length_pairs_le hpairs
      have hlayers := Qaoa.length_layers_le source width pairs hbounded.qaoa s
      simp only [Circuit.size, Qaoa.gates, List.length_append, List.length_map, List.length_range,
        List.length_singleton]
      omega

/-- **No request is answered with a circuit of more than 128 qubits, or of more gates than 24256 and
another 192 for each edge of the problem**, whatever the item count, the settings and the angles. -/
theorem named_size_le (source : AngleSource σ) (id : String) (problem : Problem) (settings : Settings)
    (s : σ) {c : Circuit} (h : (named source id problem settings s).1 = .ok c) :
    c.width ≤ 128 ∧ c.size ≤ 24256 + 192 * (problem.edges.getD []).length := by
  obtain ⟨family, width, -, hbounded, -, hlow, hhigh, hmakes, -⟩ := makes_of_named_ok h
  exact ⟨hmakes.width_le hbounded hhigh, hmakes.size_le hbounded hlow hhigh⟩

/-- Control: a search among as many items as can be counted, with as many rounds as may be asked for, has
exactly so many gates. -/
theorem named_size_le_search :
    ∃ c, (named Xoshiro.angles "grover" ⟨some 9223372036854775807, none⟩ ⟨64, 16, 3, 2⟩
        (Xoshiro.ofSeed 7)).1 = .ok c ∧
      c.size = 24256 ∧ c.width ≤ 128 ∧ c.size ≤ 24256 := by
  have haccept : accept "grover" ⟨some 9223372036854775807, none⟩ ⟨64, 16, 3, 2⟩ =
      .ok (.grover, 63) := by decide +kernel
  have hrounds : Grover.appliedIterations 63 ⟨64, 16, 3, 2⟩ = 64 := by decide +kernel
  have h : (named Xoshiro.angles "grover" ⟨some 9223372036854775807, none⟩ ⟨64, 16, 3, 2⟩
      (Xoshiro.ofSeed 7)).1 =
      .ok ⟨Family.grover.title, 63, Grover.gates 63 64,
        Circuit.described (Grover.metadata 63 ⟨64, 16, 3, 2⟩)⟩ := by
    simp only [named, haccept, direct]
    rw [Grover.circuit_eq (by decide), hrounds]
    rfl
  have hsize : (Grover.gates 63 64).length = 24256 := Grover.length_gates (by decide) 64
  exact ⟨_, h, hsize, named_size_le _ _ _ _ _ h⟩

end Generate

end QCircuit
