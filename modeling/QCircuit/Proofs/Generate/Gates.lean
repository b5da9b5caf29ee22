import QCircuit.Generate
import QCircuit.Proofs.Circuit.Building
import QCircuit.Proofs.Draw.Turn
import QCircuit.Proofs.Problem.Graph

/-!
# The generators build what they lay out

Every gate that a generator lays out is acceptable on its register: from one qubit on for searches,
eigensolvers and optimizations, from two on for period finding. So no gate is refused, and the circuit
holds exactly the gates laid out (`Grover.circuit_eq` and its like). Drawn angles have to lie within a
turn, for the doubled angles of an optimization could otherwise be infinite. What the two generators that
draw can answer from any source is listed in `Vqe.circuit_cases` and `Qaoa.circuit_cases`.
-/

set_option autoImplicit false

namespace QCircuit

variable {width : Nat}

/-- All gates of a row are acceptable. -/
abbrev AllAcceptable (width : Nat) (gates : List Gate) : Prop :=
  ∀ g ∈ gates, g.Acceptable width

theorem allAcceptable_map_range {count : Nat} {f : Nat → Gate}
    (h : ∀ i, i < count → (f i).Acceptable width) :
    AllAcceptable width ((List.range count).map f) :=
  List.forall_mem_map.mpr fun i hi => h i (List.mem_range.mp hi)

theorem allAcceptable_flatMap_range {count : Nat} {f : Nat → List Gate}
    (h : ∀ i, i < count → AllAcceptable width (f i)) :
    AllAcceptable width ((List.range count).flatMap f) :=
  List.forall_mem_flatMap.mpr fun i hi => h i (List.mem_range.mp hi)

theorem allAcceptable_append {gates gates' : List Gate} (h : AllAcceptable width gates)
    (h' : AllAcceptable width gates') : AllAcceptable width (gates ++ gates') :=
  List.forall_mem_append.mpr ⟨h, h'⟩

theorem acceptable_fixed {kind : FixedKind} {q : Nat} (h : q < width) :
    (Gate.fixed kind [q]).Acceptable width := Gate.placed_singleton.mpr h

theorem acceptable_rotation {axis : Axis} {angle : Angle} {q : Nat} (ha : angle.value.isFinite)
    (h : q < width) : (Gate.rotation axis angle [q]).Acceptable width :=
  ⟨ha, Gate.placed_singleton.mpr h⟩

theorem acceptable_cx {control target : Nat} (hne : control ≠ target) (hc : control < width)
    (ht : target < width) : (Gate.cx control target).Acceptable width := ⟨hne, hc, ht⟩

/-- All qubits in superposition. -/
theorem allAcceptable_hadamards {count : Nat} (h : count ≤ width) :
    AllAcceptable width ((List.range count).map .h) :=
  allAcceptable_map_range fun _ hi => acceptable_fixed (Nat.lt_of_lt_of_le hi h)

theorem allAcceptable_measure {count : Nat} (hpos : 0 < count) (h : count ≤ width) :
    AllAcceptable width [.measure (List.range count)] :=
  List.forall_mem_singleton.mpr (Gate.placed_range hpos h)

/-! ## Bell pairs -/

namespace Bell

theorem circuit_eq :
    circuit = .ok ⟨Family.bell.title, 2, gates, Circuit.described metadata⟩ :=
  Circuit.build_of_acceptable _ _ (by decide) (by decide)

end Bell

/-! ## Searches -/

namespace Grover

theorem allAcceptable_fan (hw : 0 < width) : AllAcceptable width (fan width) :=
  allAcceptable_map_range fun i hi => acceptable_cx (by omega) (by omega) (by omega)

theorem allAcceptable_oracle (hw : 0 < width) : AllAcceptable width (oracle width) := by
  have hx : (Gate.x (width - 1)).Acceptable width := acceptable_fixed (by omega)
  refine List.forall_mem_cons.mpr ⟨hx, ?_⟩
  exact allAcceptable_append (allAcceptable_fan hw) (List.forall_mem_singleton.mpr hx)

theorem allAcceptable_diffusion (hw : 0 < width) : AllAcceptable width (diffusion width) := by
  refine allAcceptable_append (allAcceptable_append ?_ (allAcceptable_fan hw)) ?_
  · refine allAcceptable_flatMap_range fun i hi => List.forall_mem_cons.mpr ⟨acceptable_fixed hi, ?_⟩
    exact List.forall_mem_singleton.mpr (acceptable_fixed hi)
  · refine allAcceptable_flatMap_range fun i hi => List.forall_mem_cons.mpr ⟨acceptable_fixed hi, ?_⟩
    exact List.forall_mem_singleton.mpr (acceptable_fixed hi)

theorem allAcceptable_gates (hw : 0 < width) (rounds : Nat) :
    AllAcceptable width (gates width rounds) := by
  refine allAcceptable_append (allAcceptable_append (allAcceptable_hadamards (Nat.le_refl _)) ?_)
    (allAcceptable_measure hw (Nat.le_refl _))
  intro g hg
  obtain ⟨row, hrow, hg⟩ := List.mem_flatten.mp hg
  obtain ⟨-, rfl⟩ := List.mem_replicate.mp hrow
  exact allAcceptable_append (allAcceptable_oracle hw) (allAcceptable_diffusion hw) g hg

theorem circuit_eq (hw : 0 < width) (settings : Settings) :
    circuit width settings = .ok ⟨Family.grover.title, width,
      gates width (appliedIterations width settings),
      Circuit.described (metadata width settings)⟩ :=
  Circuit.build_of_acceptable _ _ hw (allAcceptable_gates hw _)

end Grover

/-! ## Period finding -/

namespace Shor

theorem controls_add_targets (width : Nat) : controls width + targets width = width := by
  unfold targets controls
  omega

theorem allAcceptable_entangle (width : Nat) : AllAcceptable width (entangle width) := by
  -- controls lie below `controls width` and targets from there on
  have hsum := controls_add_targets width
  exact allAcceptable_flatMap_range fun i hi => allAcceptable_map_range fun j hj =>
    acceptable_cx (by omega) (by omega) (by omega)

theorem allAcceptable_inverseFourier {count : Nat} (h : count ≤ width) :
    AllAcceptable width (inverseFourier count) := by
  refine allAcceptable_append (allAcceptable_map_range fun i hi => ?_)
    (allAcceptable_flatMap_range fun i hi => List.forall_mem_cons.mpr ⟨?_, ?_⟩)
  · -- only the lower half is exchanged with the upper, so no qubit meets itself
    have hne : i ≠ count - 1 - i := by omega
    exact ⟨hne, Nat.lt_of_lt_of_le (by omega) h, Nat.lt_of_lt_of_le (by omega) h⟩
  · exact acceptable_fixed (Nat.lt_of_lt_of_le hi h)
  · refine allAcceptable_map_range fun j hj => ?_
    have hphase : (phase i j).isFinite := Binary64.isFinite_negDivTwoPow (by decide) _
    exact ⟨hphase, Nat.ne_of_lt hj, Nat.lt_trans hj (Nat.lt_of_lt_of_le hi h),
      Nat.lt_of_lt_of_le hi h⟩

theorem allAcceptable_gates (hw : 2 ≤ width) : AllAcceptable width (gates width) := by
  have hle : controls width ≤ width := Nat.div_le_self width 2
  have hpos : 0 < controls width := Nat.div_pos hw (by decide)
  refine allAcceptable_append (allAcceptable_append (allAcceptable_append ?_ ?_) ?_) ?_
  · exact allAcceptable_hadamards hle
  · exact allAcceptable_entangle width
  · exact allAcceptable_inverseFourier hle
  · exact allAcceptable_measure hpos hle

theorem circuit_eq {settings : Settings} (hw : 2 ≤ fullWidth width settings) :
    circuit width settings = .ok ⟨Family.shor.title, fullWidth width settings,
      gates (fullWidth width settings), Circuit.described (metadata (fullWidth width settings))⟩ :=
  Circuit.build_of_acceptable _ _ (by omega) (allAcceptable_gates hw)

end Shor

/-! ## Eigensolvers -/

variable {σ : Type} {source : AngleSource σ}

namespace Vqe

/-- One rotation for each angle, on qubits that are counted from zero. -/
theorem allAcceptable_rotations {rotation : Binary64 → Qubit → Gate} {angles : List Binary64}
    (h : ∀ angle ∈ angles, ∀ q, q < angles.length → (rotation angle q).Acceptable width) :
    AllAcceptable width (rotations rotation angles) := by
  refine List.forall_mem_map.mpr ?_
  rintro ⟨angle, q⟩ hmem
  have hq : q < angles.length := by simpa using List.snd_lt_add_of_mem_zipIdx hmem
  exact h angle (List.fst_mem_of_mem_zipIdx hmem) q hq

theorem allAcceptable_chain (width : Nat) : AllAcceptable width (chain width) :=
  allAcceptable_map_range fun i hi => acceptable_cx (by omega) (by omega) (by omega)

theorem allAcceptable_layer {thetas phis : List Binary64} (ht : thetas.length = width)
    (hp : phis.length = width) (hthetas : ∀ angle ∈ thetas, angle.WithinTurn)
    (hphis : ∀ angle ∈ phis, angle.WithinTurn) : AllAcceptable width (layer width thetas phis) := by
  refine allAcceptable_append (allAcceptable_append ?_ (allAcceptable_chain width)) ?_
  · exact allAcceptable_rotations fun angle ha q hq =>
      acceptable_rotation (hthetas angle ha).finite (ht ▸ hq)
  · exact allAcceptable_rotations fun angle ha q hq =>
      acceptable_rotation (hphis angle ha).finite (hp ▸ hq)

theorem allAcceptable_layers (h : source.WithinTurn) (width count : Nat) (s : σ) :
    AllAcceptable width (layers source width count s).1 := by
  induction count generalizing s with
  | zero => exact fun g hg => (List.not_mem_nil hg).elim
  | succ count ih =>
      refine allAcceptable_append (allAcceptable_layer ?_ ?_ ?_ ?_) (ih _)
      · exact source.length_take width s
      · exact source.length_take width _
      · exact fun angle => AngleSource.withinTurn_of_mem_take h
      · exact fun angle => AngleSource.withinTurn_of_mem_take h

/-- An empty register is refused before any draw; on any other one the gates are built. -/
theorem circuit_cases (source : AngleSource σ) (width : Nat) (settings : Settings) (s : σ) :
    (width = 0 ∧ circuit source width settings s = (.error (.zeroQubits Family.vqe.title), s)) ∨
      (0 < width ∧ circuit source width settings s =
        (Circuit.build Family.vqe.title width
          ((layers source width settings.vqeLayers.toNat s).1 ++ [.measure (List.range width)])
          (metadata width settings.vqeLayers.toNat),
        (layers source width settings.vqeLayers.toNat s).2)) := by
  rcases Nat.eq_zero_or_pos width with rfl | hw
  · exact Or.inl ⟨rfl, rfl⟩
  · exact Or.inr ⟨hw, by simp only [circuit, if_neg (Nat.ne_of_gt hw)]⟩

theorem circuit_eq (h : source.WithinTurn) (hw : 0 < width) (settings : Settings) (s : σ) :
    circuit source width settings s =
      (.ok ⟨Family.vqe.title, width,
        (layers source width settings.vqeLayers.toNat s).1 ++ [.measure (List.range width)],
        Circuit.described (metadata width settings.vqeLayers.toNat)⟩,
      (layers source width settings.vqeLayers.toNat s).2) := by
  have hall := allAcceptable_append
    (allAcceptable_layers h width settings.vqeLayers.toNat s)
    (allAcceptable_measure hw (Nat.le_refl _))
  simp only [circuit, if_neg (Nat.ne_of_gt hw), Circuit.build_of_acceptable _ _ hw hall]

end Vqe

/-! ## Optimizations -/

namespace Qaoa

variable {pairs : List (Qubit × Qubit)}

theorem allAcceptable_cost {gamma : Binary64} (hg : gamma.double.isFinite)
    (hp : ∀ p ∈ pairs, p.1 < width ∧ p.2 < width ∧ p.1 ≠ p.2) :
    AllAcceptable width (cost gamma pairs) := by
  refine List.forall_mem_flatMap.mpr fun p hmem => ?_
  obtain ⟨h1, h2, hne⟩ := hp p hmem
  have hcx : (Gate.cx p.1 p.2).Acceptable width := acceptable_cx hne h1 h2
  have hrz : (Gate.rz ⟨.phi, gamma.double⟩ p.2).Acceptable width := acceptable_rotation hg h2
  exact List.forall_mem_cons.mpr ⟨hcx, List.forall_mem_cons.mpr
    ⟨hrz, List.forall_mem_singleton.mpr hcx⟩⟩

theorem allAcceptable_mixer {beta : Binary64} (hb : beta.double.isFinite) (width : Nat) :
    AllAcceptable width (mixer beta width) :=
  allAcceptable_map_range fun _ hi => acceptable_rotation hb hi

theorem allAcceptable_layers (h : source.WithinTurn)
    (hp : ∀ p ∈ pairs, p.1 < width ∧ p.2 < width ∧ p.1 ≠ p.2) (count : Nat) (s : σ) :
    AllAcceptable width (layers source width pairs count s).1 := by
  induction count generalizing s with
  | zero => exact fun g hg => (List.not_mem_nil hg).elim
  | succ count ih =>
      -- a layer draws two angles and doubles both
      have hgamma := Binary64.isFinite_double (h s)
      have hbeta := Binary64.isFinite_double (h (source.draw s).2)
      exact allAcceptable_append
        (allAcceptable_append (allAcceptable_cost hgamma hp) (allAcceptable_mixer hbeta width)) (ih _)

/-- The gates of a circuit whose layers are given. -/
def gates (width : Nat) (layers : List Gate) : List Gate :=
  (List.range width).map .h ++ layers ++ [.measure (List.range width)]

/-- An empty register and then a graph with a bad edge are refused before any draw; otherwise the gates
are built. -/
theorem circuit_cases (source : AngleSource σ) (width : Nat) (edges : Option (List Edge))
    (settings : Settings) (s : σ) :
    (width = 0 ∧ circuit source width edges settings s =
        (.error (.circuit (.zeroQubits Family.qaoa.title)), s)) ∨
      (∃ fault, 0 < width ∧ Graph.edges width edges = .error fault ∧
        circuit source width edges settings s = (.error (.invalidInput fault), s)) ∨
      ∃ pairs, 0 < width ∧ Graph.edges width edges = .ok pairs ∧
        circuit source width edges settings s =
          ((Circuit.build Family.qaoa.title width
            (gates width (layers source width pairs settings.qaoaLayers.toNat s).1)
            (metadata settings.qaoaLayers.toNat pairs)).mapError .circuit,
          (layers source width pairs settings.qaoaLayers.toNat s).2) := by
  rcases Nat.eq_zero_or_pos width with rfl | hw
  · exact Or.inl ⟨rfl, rfl⟩
  · cases hpairs : Graph.edges width edges with
    | error fault =>
        exact Or.inr (Or.inl ⟨fault, hw, rfl, by simp only [circuit, if_neg (Nat.ne_of_gt hw), hpairs]⟩)
    | ok pairs =>
        refine Or.inr (Or.inr ⟨pairs, hw, rfl, ?_⟩)
        simp only [circuit, if_neg (Nat.ne_of_gt hw), hpairs, gates]

theorem circuit_eq (h : source.WithinTurn) (hw : 0 < width) {edges : Option (List Edge)}
    (hpairs : Graph.edges width edges = .ok pairs) (settings : Settings) (s : σ) :
    circuit source width edges settings s =
      (.ok ⟨Family.qaoa.title, width,
        gates width (layers source width pairs settings.qaoaLayers.toNat s).1,
        Circuit.described (metadata settings.qaoaLayers.toNat pairs)⟩,
      (layers source width pairs settings.qaoaLayers.toNat s).2) := by
  have hall : AllAcceptable width
      (gates width (layers source width pairs settings.qaoaLayers.toNat s).1) :=
    allAcceptable_append
      (allAcceptable_append (allAcceptable_hadamards (Nat.le_refl _))
        (allAcceptable_layers h (Graph.joined_of_edges_ok hpairs) _ s))
      (allAcceptable_measure hw (Nat.le_refl _))
  unfold gates at hall ⊢
  simp only [circuit, if_neg (Nat.ne_of_gt hw), hpairs, Circuit.build_of_acceptable _ _ hw hall]
  rfl

end Qaoa

end QCircuit
