import QCircuit.Proofs.Circuit.Heights
import QCircuit.Proofs.Qasm.Statement

/-!
# Broadcast gates taken apart

A broadcast gate stands for the same gate on each of its targets, one after another (`Gate.split`). What a
gate does, which qubits it names and what is written for it are what its parts do, name and write, in
order, however often a target is listed; and the parts of an acceptable gate are acceptable.

So a circuit and its parts (`Circuit.split`) have the same operations, the same qubits and the same
statements. Depth, qubits in use and program are read off these.
-/

set_option autoImplicit false

namespace QCircuit

/-- A broadcast gate taken apart into one gate on each listed target. Any other gate stays whole. -/
def Gate.split : Gate → List Gate
  | .fixed kind targets => targets.map fun q => .fixed kind [q]
  | .rotation axis angle targets => targets.map fun q => .rotation axis angle [q]
  | .measure targets => targets.map fun q => .measure [q]
  | .cx control target => [.cx control target]
  | .cp theta control target => [.cp theta control target]
  | .swap a b => [.swap a b]
  | .custom name qubits params => [.custom name qubits params]

/-- A circuit with its broadcast gates taken apart. -/
def Circuit.split (c : Circuit) : Circuit := { c with gates := c.gates.flatMap Gate.split }

/-! ## One gate and its parts -/

namespace Gate

theorem operations_split (g : Gate) : g.split.flatMap operations = g.operations := by
  cases g <;>
    simp [split, operations, List.map_eq_flatMap, List.flatMap_assoc]

theorem qubits_split (g : Gate) : g.split.flatMap qubits = g.qubits := by
  cases g <;> simp [split, List.flatMap_map]

theorem statements_split (g : Gate) : g.split.flatMap Qasm.statements = Qasm.statements g := by
  cases g <;> simp [split, Qasm.statements, List.map_eq_flatMap, List.flatMap_assoc]

/-- The parts of a gate are of its kind. -/
theorem kind?_of_mem_split {g part : Gate} (h : part ∈ g.split) : part.kind? = g.kind? := by
  cases g with
  | fixed kind targets =>
      obtain ⟨q, -, rfl⟩ := List.mem_map.mp h
      rfl
  | rotation axis angle targets =>
      obtain ⟨q, -, rfl⟩ := List.mem_map.mp h
      rfl
  | measure targets =>
      obtain ⟨q, -, rfl⟩ := List.mem_map.mp h
      rfl
  | _ => rw [List.mem_singleton.mp h]

/-- The parts of an acceptable gate are acceptable: each target has been checked with the others. -/
theorem Acceptable.of_mem_split {width : Nat} {g part : Gate} (hg : g.Acceptable width)
    (h : part ∈ g.split) : part.Acceptable width := by
  cases g with
  | fixed kind targets =>
      obtain ⟨q, hq, rfl⟩ := List.mem_map.mp h
      exact placed_singleton.mpr (hg.2 q hq)
  | rotation axis angle targets =>
      obtain ⟨q, hq, rfl⟩ := List.mem_map.mp h
      exact ⟨hg.1, placed_singleton.mpr (hg.2.2 q hq)⟩
  | measure targets =>
      obtain ⟨q, hq, rfl⟩ := List.mem_map.mp h
      exact placed_singleton.mpr (hg.2 q hq)
  | _ =>
      rw [List.mem_singleton.mp h]
      exact hg

end Gate

/-! ## Circuits -/

namespace Circuit

/-- What every gate shares with its parts, a row of gates shares with all parts. -/
theorem flatMap_split {α : Type} {view : Gate → List α} (h : ∀ g : Gate, g.split.flatMap view = view g)
    (gates : List Gate) : (gates.flatMap Gate.split).flatMap view = gates.flatMap view := by
  rw [List.flatMap_assoc]
  exact congrArg (gates.flatMap ·) (funext h)

theorem depth_split (c : Circuit) : c.split.depth = c.depth := by
  rw [depth, depth, Heights.heightsOf_eq, Heights.heightsOf_eq]
  exact congrArg (fun row => (Heights.stackAll row).highest)
    (flatMap_split Gate.operations_split c.gates)

theorem qubitsUsed_split (c : Circuit) : c.split.qubitsUsed = c.qubitsUsed :=
  congrArg (List.foldr insertAscending []) (flatMap_split Gate.qubits_split c.gates)

theorem document_split (c : Circuit) : Qasm.document c.split = Qasm.document c := by
  have hbody : Qasm.body c.split.gates = Qasm.body c.gates :=
    flatMap_split Gate.statements_split c.gates
  rw [Qasm.document, Qasm.document, Qasm.lines, Qasm.lines, hbody]
  rfl

theorem kind?_of_mem_split {c : Circuit} (h : ∀ g ∈ c.gates, g.kind? ≠ none) :
    ∀ part ∈ c.split.gates, part.kind? ≠ none := by
  intro part hpart
  obtain ⟨g, hg, hmem⟩ := List.mem_flatMap.mp hpart
  rw [Gate.kind?_of_mem_split hmem]
  exact h g hg

theorem Finished.acceptable_split {c : Circuit} (hc : c.Finished) :
    ∀ part ∈ c.split.gates, part.Acceptable c.width := by
  intro part hpart
  obtain ⟨g, hg, hmem⟩ := List.mem_flatMap.mp hpart
  exact (hc.acceptable hg).of_mem_split hmem

theorem Finished.split {c : Circuit} (hc : c.Finished) : c.split.Finished := by
  obtain ⟨entries, hentries⟩ := hc.exists_described
  have hbuild := build_of_acceptable c.algorithm entries hc.width_pos hc.acceptable_split
  rw [← hentries] at hbuild
  exact finished_of_build hbuild

/-- **A circuit is as good as its parts.** The gates of a finished circuit with its broadcast gates taken
apart are all taken by a fresh builder of the same width. The circuit of the parts is finished, is as deep
and uses the same qubits; and where no gate is custom it has the same program. -/
theorem split_agrees {c : Circuit} (hc : c.Finished) :
    (∃ b, Builder.start c.algorithm c.width = .ok b ∧
        b.pushAll c.split.gates = (.ok (), { b with gates := c.split.gates.toArray })) ∧
      c.split.Finished ∧ c.split.depth = c.depth ∧ c.split.qubitsUsed = c.qubitsUsed ∧
      ((∀ g ∈ c.gates, g.kind? ≠ none) →
        ∃ text, Qasm.program c = .ok text ∧ Qasm.program c.split = .ok text) := by
  refine ⟨⟨_, Builder.start_of_pos c.algorithm hc.width_pos, ?_⟩, hc.split, depth_split c,
    qubitsUsed_split c, ?_⟩
  · rw [Builder.pushAll_of_acceptable hc.acceptable_split, Array.empty_append]
  · intro hkinds
    have hparts := kind?_of_mem_split hkinds
    exact ⟨Qasm.document c, Qasm.program_eq_ok_iff.mpr ⟨hkinds, rfl⟩,
      Qasm.program_eq_ok_iff.mpr ⟨hparts, (document_split c).symm⟩⟩

/-- Control: a rotation that lists a target twice, with a controlled gate behind it, is two rotations in a
row and as deep as before. -/
theorem split_agrees_repeated :
    ∃ c : Circuit, c.Finished ∧
      c.split.gates = [.rx ⟨.phi, .pi⟩ 1, .rx ⟨.phi, .pi⟩ 1, .cx 1 0, .measure [0], .measure [1]] ∧
      c.split.depth = c.depth ∧ c.depth = 4 ∧
      ∃ text, Qasm.program c = .ok text ∧ Qasm.program c.split = .ok text := by
  let c : Circuit :=
    ⟨"demo", 2, [.rotation .x ⟨.phi, .pi⟩ [1, 1], .cx 1 0, .measure [0, 1]], []⟩
  have hc : c.Finished :=
    ⟨_, [.push (.rotation .x ⟨.phi, .pi⟩ [1, 1]), .cx 1 0, .measureAll], rfl, rfl⟩
  obtain ⟨-, -, hdepth, -, hprogram⟩ := split_agrees hc
  exact ⟨c, hc, rfl, hdepth, rfl, hprogram (by decide)⟩

end Circuit

end QCircuit
