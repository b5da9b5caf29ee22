import QCircuit.Qasm
import QCircuit.Proofs.Circuit.Building
import QCircuit.Proofs.Decimal.Positional

/-!
# What statements say

An entry is what one line of a program says, without its spelling: a name, an angle if there is one, and
operands in order. A gate stands for one entry a target where it is broadcast and for one entry
otherwise (`Gate.entries`). The statements of a gate of a known kind are those entries
(`Qasm.map_entry_statements`), and a statement is determined by its entry (`Qasm.Statement.entry_inj`).

On a register that accepts the gate every one of its statements is sound: its operands are distinct and
lie on the register, and its angle is finite (`Qasm.sound_of_mem_statements`).
-/

set_option autoImplicit false

namespace QCircuit

/-! ## Entries -/

/-- What one line of a program says. -/
structure Entry where
  name : String
  radians : Option Binary64
  operands : List Qubit
deriving DecidableEq

/-- The entries of a gate: a broadcast gate has one for each target, any other gate one for all its
qubits. -/
def Gate.entries (g : Gate) : List Entry :=
  if g.isBroadcast then g.targets.map fun q => ⟨g.name, g.radians?, [q]⟩
  else [⟨g.name, g.radians?, g.qubits⟩]

/-- The entries of a circuit, gate after gate. -/
def Circuit.entries (c : Circuit) : List Entry := c.gates.flatMap Gate.entries

namespace Qasm

/-- What a statement says. -/
def Statement.entry : Statement → Entry
  | .fixed kind q => ⟨kind.kind.name, none, [q]⟩
  | .rotation axis radians q => ⟨axis.kind.name, some radians, [q]⟩
  | .cx control target => ⟨GateKind.cx.name, none, [control, target]⟩
  | .cp radians control target => ⟨GateKind.cp.name, some radians, [control, target]⟩
  | .swap a b => ⟨GateKind.swap.name, none, [a, b]⟩
  | .measure q => ⟨GateKind.measure.name, none, [q]⟩

/-- The statement that says an entry, if there is one. -/
def Statement.saying? (e : Entry) : Option Statement :=
  match GateKind.ofName? e.name, e.radians, e.operands with
  | some .h, none, [q] => some (.fixed .h q)
  | some .x, none, [q] => some (.fixed .x q)
  | some .y, none, [q] => some (.fixed .y q)
  | some .z, none, [q] => some (.fixed .z q)
  | some .rx, some radians, [q] => some (.rotation .x radians q)
  | some .ry, some radians, [q] => some (.rotation .y radians q)
  | some .rz, some radians, [q] => some (.rotation .z radians q)
  | some .cx, none, [control, target] => some (.cx control target)
  | some .cp, some radians, [control, target] => some (.cp radians control target)
  | some .swap, none, [a, b] => some (.swap a b)
  | some .measure, none, [q] => some (.measure q)
  | _, _, _ => none

theorem saying?_entry (s : Statement) : Statement.saying? s.entry = some s := by
  cases s with
  | fixed kind q => cases kind <;> simp [Statement.entry, Statement.saying?, FixedKind.kind,
      GateKind.ofName?_name]
  | rotation axis radians q => cases axis <;> simp [Statement.entry, Statement.saying?, Axis.kind,
      GateKind.ofName?_name]
  | cx control target => simp [Statement.entry, Statement.saying?, GateKind.ofName?_name]
  | cp radians control target => simp [Statement.entry, Statement.saying?, GateKind.ofName?_name]
  | swap a b => simp [Statement.entry, Statement.saying?, GateKind.ofName?_name]
  | measure q => simp [Statement.entry, Statement.saying?, GateKind.ofName?_name]

/-- Statements that say the same are one statement. -/
theorem Statement.entry_inj {s t : Statement} (h : s.entry = t.entry) : s = t := by
  have hback := saying?_entry s
  rw [h, saying?_entry] at hback
  exact (Option.some.inj hback).symm

/-- The statements of a gate of a known kind say its entries. -/
theorem map_entry_statements {g : Gate} (h : g.kind? ≠ none) :
    (statements g).map Statement.entry = g.entries := by
  cases g with
  | fixed kind targets => simp [statements, Gate.entries, Gate.isBroadcast, Gate.targets, Gate.name,
      Gate.radians?, Statement.entry]
  | rotation axis angle targets => simp [statements, Gate.entries, Gate.isBroadcast, Gate.targets,
      Gate.name, Gate.radians?, Statement.entry]
  | cx control target => rfl
  | cp theta control target => rfl
  | swap a b => rfl
  | measure targets => simp [statements, Gate.entries, Gate.isBroadcast, Gate.targets, Gate.name,
      Gate.radians?, Statement.entry]
  | custom name qubits params => exact absurd rfl h

/-! ## Sound statements -/

/-- Operands on the register, apart from each other where there are two, and a finite angle. -/
def Statement.Sound (width : Nat) : Statement → Prop
  | .fixed _ q => q < width
  | .rotation _ radians q => radians.isFinite ∧ q < width
  | .cx control target => control ≠ target ∧ control < width ∧ target < width
  | .cp radians control target =>
      radians.isFinite ∧ control ≠ target ∧ control < width ∧ target < width
  | .swap a b => a ≠ b ∧ a < width ∧ b < width
  | .measure q => q < width

/-- A register accepts a gate only with sound statements: a broadcast gate has each of its targets
checked, the other shapes have their own operands checked. -/
theorem sound_of_mem_statements {width : Nat} {g : Gate} {s : Statement} (hg : g.Acceptable width)
    (hs : s ∈ statements g) : s.Sound width := by
  cases g with
  | fixed kind targets =>
      obtain ⟨q, hq, rfl⟩ := List.mem_map.mp hs
      exact hg.2 q hq
  | rotation axis angle targets =>
      obtain ⟨q, hq, rfl⟩ := List.mem_map.mp hs
      exact ⟨hg.1, hg.2.2 q hq⟩
  | cx control target =>
      rw [List.mem_singleton.mp hs]
      exact hg
  | cp theta control target =>
      rw [List.mem_singleton.mp hs]
      exact hg
  | swap a b =>
      rw [List.mem_singleton.mp hs]
      exact hg
  | measure targets =>
      obtain ⟨q, hq, rfl⟩ := List.mem_map.mp hs
      exact hg.2 q hq
  | custom name qubits params => exact absurd hs List.not_mem_nil

/-! ## Bodies -/

/-- A finished circuit has a body of sound statements. -/
theorem sound_of_mem_body {c : Circuit} (hc : c.Finished) {s : Statement} (hs : s ∈ body c.gates) :
    s.Sound c.width := by
  obtain ⟨g, hg, hmem⟩ := List.mem_flatMap.mp hs
  exact sound_of_mem_statements (hc.acceptable hg) hmem

/-- Where every gate is of a known kind, the body says the entries of the circuit. -/
theorem map_entry_body {gates : List Gate} (h : ∀ g ∈ gates, g.kind? ≠ none) :
    (body gates).map Statement.entry = gates.flatMap Gate.entries := by
  induction gates with
  | nil => rfl
  | cons g rest ih =>
      -- gate after gate, as the body is laid out
      have hg := map_entry_statements (h g List.mem_cons_self)
      have hrest := ih fun g' hg' => h g' (List.mem_cons_of_mem _ hg')
      rw [body] at hrest
      rw [body, List.flatMap_cons, List.map_append, hg, hrest, List.flatMap_cons]

/-- Nothing is unsupported exactly where every gate is of a known kind, whatever the positions are
counted from. -/
theorem firstUnsupported?_eq_none_iff (position : Nat) (gates : List Gate) :
    firstUnsupported? position gates = none ↔ ∀ g ∈ gates, g.kind? ≠ none := by
  induction gates generalizing position with
  | nil => simp [firstUnsupported?]
  | cons g rest ih =>
      cases g with
      | custom name qubits params => simp [firstUnsupported?, Gate.kind?]
      | fixed kind targets => simp [firstUnsupported?, ih, Gate.kind?]
      | rotation axis angle targets => simp [firstUnsupported?, ih, Gate.kind?]
      | cx control target => simp [firstUnsupported?, ih, Gate.kind?]
      | cp theta control target => simp [firstUnsupported?, ih, Gate.kind?]
      | swap a b => simp [firstUnsupported?, ih, Gate.kind?]
      | measure targets => simp [firstUnsupported?, ih, Gate.kind?]

/-- The text of a circuit without regard to whether it has a program. -/
def document (c : Circuit) : String := String.join ((lines c).map fun line => line ++ "\n")

/-- A circuit has a program exactly where every gate is of a known kind, and then it is the document of
the circuit. -/
theorem program_eq_ok_iff {c : Circuit} {text : String} :
    program c = .ok text ↔ (∀ g ∈ c.gates, g.kind? ≠ none) ∧ text = document c := by
  rw [← firstUnsupported?_eq_none_iff 0, program]
  cases firstUnsupported? 0 c.gates with
  | none => simp [document, eq_comm]
  | some unsupported => simp

end Qasm

end QCircuit
