import QCircuit.Proofs.Circuit.Usage
import QCircuit.Proofs.Generate.Layout
import QCircuit.Proofs.Qasm.Reader

/-!
# Measured once and last

Every generator lays out gates of known kinds without a measurement, and then one measurement of the
first qubits: of all of them, or of the control qubits in a period finding (`Generate.Makes.gates_eq`).
No qubit of the register is left out by the gates (`Generate.Makes.qubitsUsed_eq`).

So the program of such a circuit exists, and its measurements stand at its end, on different qubits
(`measuresLast_entries`): no bit is written twice, and no qubit is acted on once it is measured.
-/

set_option autoImplicit false

namespace QCircuit

/-! ## Unitary gates -/

namespace Gate

/-- The gate is of a known kind and is no measurement. -/
def Unitary (g : Gate) : Prop := g.kind? ≠ none ∧ g.isMeasure = false

instance : DecidablePred Unitary := fun _ => inferInstanceAs (Decidable (_ ∧ _))

@[simp] theorem unitary_fixed (kind : FixedKind) (targets : List Qubit) :
    (Gate.fixed kind targets).Unitary := ⟨Option.some_ne_none _, rfl⟩
@[simp] theorem unitary_rotation (axis : Axis) (angle : Angle) (targets : List Qubit) :
    (Gate.rotation axis angle targets).Unitary := ⟨Option.some_ne_none _, rfl⟩
@[simp] theorem unitary_cx (control target : Qubit) : (Gate.cx control target).Unitary :=
  ⟨Option.some_ne_none _, rfl⟩
@[simp] theorem unitary_cp (theta : Binary64) (control target : Qubit) :
    (Gate.cp theta control target).Unitary := ⟨Option.some_ne_none _, rfl⟩
@[simp] theorem unitary_swap (a b : Qubit) : (Gate.swap a b).Unitary := ⟨Option.some_ne_none _, rfl⟩

/-- The name of a unitary gate is not that of a measurement. -/
theorem Unitary.name_ne {g : Gate} (h : g.Unitary) : g.name ≠ GateKind.measure.name := by
  cases g with
  | fixed kind targets =>
      show kind.kind.name ≠ GateKind.measure.name
      cases kind <;> decide
  | rotation axis angle targets =>
      show axis.kind.name ≠ GateKind.measure.name
      cases axis <;> decide
  | cx control target => exact show GateKind.cx.name ≠ GateKind.measure.name by decide
  | cp theta control target => exact show GateKind.cp.name ≠ GateKind.measure.name by decide
  | swap a b => exact show GateKind.swap.name ≠ GateKind.measure.name by decide
  | measure targets => cases h.2
  | custom name qubits params => exact absurd rfl h.1

theorem name_of_mem_entries {g : Gate} {e : Entry} (h : e ∈ g.entries) : e.name = g.name := by
  rw [entries] at h
  split at h
  · obtain ⟨q, -, rfl⟩ := List.mem_map.mp h
    rfl
  · rw [List.mem_singleton.mp h]

end Gate

/-- A row of unitary gates. -/
def AllUnitary (gates : List Gate) : Prop := ∀ g ∈ gates, g.Unitary

theorem allUnitary_append {before after : List Gate} (h : AllUnitary before)
    (h' : AllUnitary after) : AllUnitary (before ++ after) := List.forall_mem_append.mpr ⟨h, h'⟩

theorem allUnitary_map {α : Type} {f : α → Gate} (h : ∀ a, (f a).Unitary) (row : List α) :
    AllUnitary (row.map f) := List.forall_mem_map.mpr fun a _ => h a

theorem allUnitary_flatMap {α : Type} {f : α → List Gate} (h : ∀ a, AllUnitary (f a))
    (row : List α) : AllUnitary (row.flatMap f) := List.forall_mem_flatMap.mpr fun a _ => h a

/-- All qubits in superposition. -/
theorem allUnitary_hadamards (count : Nat) : AllUnitary ((List.range count).map .h) :=
  allUnitary_map (fun _ => Gate.unitary_fixed _ _) _

/-! ## Generators -/

namespace Grover

theorem allUnitary_fan (width : Nat) : AllUnitary (fan width) :=
  allUnitary_map (fun _ => Gate.unitary_cx _ _) _

theorem allUnitary_round (width : Nat) : AllUnitary (round width) := by
  have hends : ∀ q, AllUnitary [.x q] := fun q => by simp [AllUnitary, Gate.x]
  have hfront : ∀ q, AllUnitary [.h q, .x q] := fun q => by simp [AllUnitary, Gate.h, Gate.x]
  have hback : ∀ q, AllUnitary [.x q, .h q] := fun q => by simp [AllUnitary, Gate.h, Gate.x]
  apply allUnitary_append
  · exact allUnitary_append (allUnitary_append (hends _) (allUnitary_fan width)) (hends _)
  · apply allUnitary_append
    · exact allUnitary_append (allUnitary_flatMap hfront _) (allUnitary_fan width)
    · exact allUnitary_flatMap hback _

theorem allUnitary_rounds (width rounds : Nat) :
    AllUnitary ((List.range width).map .h ++ (List.replicate rounds (round width)).flatten) := by
  apply allUnitary_append (allUnitary_hadamards width)
  intro g hg
  obtain ⟨row, hrow, hg⟩ := List.mem_flatten.mp hg
  obtain ⟨-, rfl⟩ := List.mem_replicate.mp hrow
  exact allUnitary_round width g hg

end Grover

namespace Shor

theorem allUnitary_entangle (width : Nat) : AllUnitary (entangle width) :=
  allUnitary_flatMap (fun _ => allUnitary_map (fun _ => Gate.unitary_cx _ _) _) _

theorem allUnitary_inverseFourier (count : Nat) : AllUnitary (inverseFourier count) := by
  apply allUnitary_append
  · exact allUnitary_map (fun _ => Gate.unitary_swap _ _) _
  · apply allUnitary_flatMap
    intro i
    have hphases : AllUnitary ((List.range i).map fun j => .cp (phase i j) j i) :=
      allUnitary_map (fun _ => Gate.unitary_cp _ _ _) _
    exact List.forall_mem_cons.mpr ⟨Gate.unitary_fixed _ _, hphases⟩

/-- With a control qubit at all, every target is entangled with the first one. -/
theorem cx_mem_entangle {width q : Nat} (hpos : 0 < controls width) (hlow : controls width ≤ q)
    (hq : q < width) : .cx 0 q ∈ entangle width := by
  have hsum := controls_add_targets width
  refine List.mem_flatMap.mpr ⟨0, List.mem_range.mpr hpos, ?_⟩
  refine List.mem_map.mpr ⟨q - controls width, List.mem_range.mpr (by omega), ?_⟩
  rw [Nat.add_sub_cancel' hlow]

end Shor

variable {σ : Type} {source : AngleSource σ}

namespace Vqe

theorem allUnitary_layers (source : AngleSource σ) (width count : Nat) (s : σ) :
    AllUnitary (layers source width count s).1 := by
  induction count generalizing s with
  | zero => exact fun g hg => (List.not_mem_nil hg).elim
  | succ count ih =>
      -- rotations, the chain and rotations again, then the other layers
      have hchain : AllUnitary (chain width) := allUnitary_map (fun _ => Gate.unitary_cx _ _) _
      refine allUnitary_append (allUnitary_append (allUnitary_append ?_ hchain) ?_) (ih _)
      · exact allUnitary_map (fun _ => Gate.unitary_rotation _ _ _) _
      · exact allUnitary_map (fun _ => Gate.unitary_rotation _ _ _) _

end Vqe

namespace Qaoa

theorem allUnitary_layers (source : AngleSource σ) (width : Nat) (pairs : List (Qubit × Qubit))
    (count : Nat) (s : σ) : AllUnitary (layers source width pairs count s).1 := by
  induction count generalizing s with
  | zero => exact fun g hg => (List.not_mem_nil hg).elim
  | succ count ih =>
      refine allUnitary_append (allUnitary_append ?_ ?_) (ih _)
      · apply allUnitary_flatMap
        intro edge
        simp [AllUnitary, edgePhase, Gate.rz]
      · exact allUnitary_map (fun _ => Gate.unitary_rotation _ _ _) _

end Qaoa

/-- How many qubits the circuit of a family measures: the control qubits of a period finding, and else
the whole register. -/
def Family.measured (family : Family) (width : Nat) : Nat :=
  match family with
  | .shor => Shor.controls width
  | .bell | .grover | .vqe | .qaoa => width

namespace Generate

variable {width : Nat} {edges : Option (List Edge)} {settings : Settings} {s : σ} {family : Family}
  {c : Circuit}

/-- Unitary gates, and then one measurement of the first qubits in their order. -/
theorem Makes.gates_eq (h : Makes source width edges settings s family c) :
    ∃ body, AllUnitary body ∧
      c.gates = body ++ [.measure (List.range (family.measured c.width))] := by
  cases h with
  | bell => exact ⟨[.h 0, .cx 0 1], by simp [AllUnitary, Gate.h], rfl⟩
  | grover => exact ⟨_, Grover.allUnitary_rounds _ _, rfl⟩
  | shor =>
      refine ⟨_, ?_, rfl⟩
      exact allUnitary_append
        (allUnitary_append (allUnitary_hadamards _) (Shor.allUnitary_entangle _))
        (Shor.allUnitary_inverseFourier _)
  | vqe => exact ⟨_, Vqe.allUnitary_layers _ _ _ _, rfl⟩
  | qaoa _ =>
      exact ⟨_, allUnitary_append (allUnitary_hadamards _) (Qaoa.allUnitary_layers _ _ _ _ _), rfl⟩

theorem Makes.measure_mem (h : Makes source width edges settings s family c) :
    Gate.measure (List.range (family.measured c.width)) ∈ c.gates := by
  obtain ⟨body, -, hgates⟩ := h.gates_eq
  rw [hgates]
  exact List.mem_append_right body List.mem_cons_self

/-- A finished circuit measures a qubit, as a measurement of none is refused. -/
theorem Makes.measured_pos (h : Makes source width edges settings s family c) (hc : c.Finished) :
    0 < family.measured c.width := by
  obtain ⟨hne, -⟩ := hc.acceptable h.measure_mem
  rw [Ne, List.range_eq_nil] at hne
  exact Nat.pos_of_ne_zero hne

/-- Every qubit of the register is measured, or is a target of a period finding. -/
theorem Makes.exists_gate (h : Makes source width edges settings s family c)
    (hpos : 0 < family.measured c.width) {q : Qubit} (hq : q < c.width) :
    ∃ g ∈ c.gates, q ∈ g.qubits := by
  by_cases hmeasured : q < family.measured c.width
  · exact ⟨_, h.measure_mem, List.mem_range.mpr hmeasured⟩
  · cases h with
    | shor =>
        -- the first control qubit reaches every target
        have hcx := Shor.cx_mem_entangle hpos (Nat.le_of_not_lt hmeasured) hq
        refine ⟨.cx 0 q, ?_, by simp⟩
        exact List.mem_append_left _ (List.mem_append_left _ (List.mem_append_right _ hcx))
    | _ => exact absurd hq hmeasured

/-- The gates of a finished circuit name the whole register. -/
theorem Makes.qubitsUsed_eq (h : Makes source width edges settings s family c) (hc : c.Finished) :
    c.qubitsUsed = List.range c.width := by
  apply Circuit.qubitsUsed_eq_range
  intro q
  constructor
  · rintro ⟨g, hg, hq⟩
    exact Gate.lt_of_acceptable (hc.acceptable hg) hq
  · exact h.exists_gate (h.measured_pos hc)

end Generate

/-! ## Programs -/

/-- What is measured is not acted on again, and so is not measured again either. -/
def MeasuresLast (entries : List Entry) : Prop :=
  entries.Pairwise fun e later => e.name = GateKind.measure.name → ∀ q ∈ e.operands, q ∉ later.operands

/-- Unitary gates and a measurement of different qubits behind them. -/
theorem measuresLast_entries {body : List Gate} (h : AllUnitary body) {targets : List Qubit}
    (hnodup : targets.Nodup) :
    MeasuresLast ((body ++ [Gate.measure targets]).flatMap Gate.entries) := by
  have hbody : ∀ e ∈ body.flatMap Gate.entries, e.name ≠ GateKind.measure.name := by
    intro e he
    obtain ⟨g, hg, he⟩ := List.mem_flatMap.mp he
    rw [Gate.name_of_mem_entries he]
    exact (h g hg).name_ne
  have hlast : [Gate.measure targets].flatMap Gate.entries =
      targets.map fun q => (⟨GateKind.measure.name, none, [q]⟩ : Entry) := by
    rw [List.flatMap_singleton]
    rfl
  rw [List.flatMap_append, hlast]
  refine List.pairwise_append.mpr ⟨?_, ?_, ?_⟩
  · -- nothing is measured before the last gate
    apply List.pairwise_of_forall_mem_list
    intro e he later _ hname
    exact absurd hname (hbody e he)
  · -- the last gate measures each of its targets once
    apply List.Pairwise.map _ _ hnodup
    intro p q hne _ r hr hr'
    rw [List.mem_singleton.mp hr] at hr'
    exact hne (List.mem_singleton.mp hr')
  · intro e he later _ hname
    exact absurd hname (hbody e he)

namespace Generate

/-- Whatever circuit a named request is answered with, from whatever source of angles: its gates are
unitary but for the last, which measures the first qubits in order, all of them or the control qubits;
they use the whole register; and there is a program, which reads as the entries of the gates. In it what
is measured is not acted on again. As the reader refuses a measurement into another bit than that of its
qubit, no bit is written twice. -/
theorem named_measured_once (source : AngleSource σ) (id : String) (problem : Problem)
    (settings : Settings) (s : σ) {c : Circuit}
    (h : (named source id problem settings s).1 = .ok c) :
    ∃ (family : Family) (body : List Gate) (text : String), family.Named id ∧
      c.gates = body ++ [.measure (List.range (family.measured c.width))] ∧
      (∀ g ∈ body, g.Unitary) ∧ 1 ≤ family.measured c.width ∧
      c.qubitsUsed = List.range c.width ∧
      Qasm.program c = .ok text ∧ Qasm.read? text = some (c.width, c.entries) ∧
      MeasuresLast c.entries := by
  obtain ⟨family, width, hn, -, -, -, -, hmakes, hfinished⟩ := makes_of_named_ok h
  obtain ⟨body, hunitary, hgates⟩ := hmakes.gates_eq
  have hkinds : ∀ g ∈ c.gates, g.kind? ≠ none := by
    intro g hg
    rw [hgates] at hg
    rcases List.mem_append.mp hg with hg | hg
    · exact (hunitary g hg).1
    · rw [List.mem_singleton.mp hg]
      exact Option.some_ne_none _
  refine ⟨family, body, Qasm.document c, hn, hgates, hunitary, hmakes.measured_pos hfinished,
    hmakes.qubitsUsed_eq hfinished, Qasm.program_eq_ok_iff.mpr ⟨hkinds, rfl⟩, ?_, ?_⟩
  · rw [Qasm.read?_document hfinished, Qasm.map_entry_body hkinds]
    rfl
  · rw [Circuit.entries, hgates]
    exact measuresLast_entries hunitary List.nodup_range

/-- Control: a period finding on three qubits measures its only control qubit and uses all three. -/
theorem named_measured_once_shor :
    ∃ c text, (named Xoshiro.angles "Shor" ⟨some 5, none⟩ ⟨3, 0, 3, 2⟩ (Xoshiro.ofSeed 7)).1 = .ok c ∧
      c.gates = [.h 0, .cx 0 1, .cx 0 2, .h 0, .measure [0]] ∧ c.qubitsUsed = [0, 1, 2] ∧
      Qasm.program c = .ok text ∧ Qasm.read? text = some (3, c.entries) ∧ MeasuresLast c.entries := by
  have haccept : accept "Shor" ⟨some 5, none⟩ ⟨3, 0, 3, 2⟩ = .ok (.shor, 3) := by decide
  have h : (named Xoshiro.angles "Shor" ⟨some 5, none⟩ ⟨3, 0, 3, 2⟩ (Xoshiro.ofSeed 7)).1 =
      .ok ⟨Family.shor.title, 3, Shor.gates 3, Circuit.described (Shor.metadata 3)⟩ := by
    simp only [named, haccept, direct]
    rw [Shor.circuit_eq (by decide)]
    rfl
  obtain ⟨family, body, text, -, -, -, -, hused, hprogram, hread, hlast⟩ :=
    named_measured_once _ _ _ _ _ h
  exact ⟨_, text, h, by decide, hused, hprogram, hread, hlast⟩

end Generate

end QCircuit
