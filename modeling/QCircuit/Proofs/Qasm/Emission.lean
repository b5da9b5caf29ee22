import Mathlib.Order.Bounds.Basic
import QCircuit.Proofs.Qasm.Statement

/-!
# Writing a program gate by gate

A writer goes over the gates twice. The first time it only looks for a gate that has no statement; the
second time it writes the statements of one gate after another behind the text that stands so far, and
refuses a gate without statements by itself, whatever was found before (`Qasm.writeGate`). What was written
stays when it refuses.

The two passes refuse the same gate at the same position (`Qasm.answer_writeGates`). So the second pass
refuses nothing once the first is through, and the writer leaves the program of the circuit or no text at
all (`Qasm.emit_eq`). Which gate is reported is said in `Qasm.program_answer`.
-/

set_option autoImplicit false

namespace QCircuit

theorem Gate.exists_custom_of_kind? {g : Gate} (h : g.kind? = none) :
    ∃ name qubits params, g = .custom name qubits params := by
  cases g with
  | custom name qubits params => exact ⟨name, qubits, params, rfl⟩
  | _ => cases h

namespace Qasm

/-! ## The first pass -/

theorem firstUnsupported?_cons_of_known {g : Gate} (h : g.kind? ≠ none) (position : Nat)
    (rest : List Gate) :
    firstUnsupported? position (g :: rest) = firstUnsupported? (position + 1) rest := by
  cases g with
  | custom name qubits params => exact absurd rfl h
  | _ => rfl

/-- Every gate is of a known kind, or the first custom one is found. -/
theorem firstUnsupported?_cases (position : Nat) (gates : List Gate) :
    ((∀ g ∈ gates, g.kind? ≠ none) ∧ firstUnsupported? position gates = none) ∨
      ∃ before name qubits params after, gates = before ++ .custom name qubits params :: after ∧
        (∀ g ∈ before, g.kind? ≠ none) ∧
        firstUnsupported? position gates = some ⟨name, position + before.length⟩ := by
  induction gates generalizing position with
  | nil => exact Or.inl ⟨by simp, rfl⟩
  | cons g rest ih =>
      by_cases hg : g.kind? = none
      · obtain ⟨name, qubits, params, rfl⟩ := Gate.exists_custom_of_kind? hg
        exact Or.inr ⟨[], name, qubits, params, rest, rfl, by simp, rfl⟩
      · rw [firstUnsupported?_cons_of_known hg]
        rcases ih (position + 1) with ⟨hrest, hnone⟩ | ⟨before, name, qubits, params, after, rfl, hbefore, hsome⟩
        · exact Or.inl ⟨List.forall_mem_cons.mpr ⟨hg, hrest⟩, hnone⟩
        · refine Or.inr ⟨g :: before, name, qubits, params, after, rfl,
            List.forall_mem_cons.mpr ⟨hg, hbefore⟩, ?_⟩
          rw [hsome, List.length_cons, Nat.add_assoc, Nat.add_comm 1]

/-! ## The second pass -/

/-- Lines behind a text, each ended by a line feed. -/
def writeLines (text : String) (lines : List String) : String :=
  lines.foldl (fun text line => text ++ line ++ "\n") text

/-- A gate written behind a text, or refused at its position: the answer, and the text that stands then. -/
def writeGate (position : Nat) (text : String) : Gate → Except Unsupported Unit × String
  | .custom name _ _ => (.error ⟨name, position⟩, text)
  | g => (.ok (), writeLines text ((statements g).map Statement.text))

/-- Gates written one after another, up to the first that is refused. -/
def writeGates (position : Nat) (text : String) : List Gate → Except Unsupported Unit × String
  | [] => (.ok (), text)
  | g :: rest =>
      match writeGate position text g with
      | (.error refusal, text) => (.error refusal, text)
      | (.ok (), text) => writeGates (position + 1) text rest

/-- Both passes over a circuit: the answer, and the text that stands at the end. -/
def emit (c : Circuit) : Except Unsupported Unit × String :=
  match firstUnsupported? 0 c.gates with
  | some refusal => (.error refusal, "")
  | none => writeGates 0 (writeLines "" (header c.width)) c.gates

theorem writeLines_append (text : String) (lines more : List String) :
    writeLines text (lines ++ more) = writeLines (writeLines text lines) more := List.foldl_append

theorem writeLines_eq (text : String) (lines : List String) :
    writeLines text lines = text ++ String.join (lines.map fun line => line ++ "\n") := by
  induction lines generalizing text with
  | nil => simp [writeLines]
  | cons line rest ih =>
      have hstep : writeLines text (line :: rest) = writeLines (text ++ line ++ "\n") rest := rfl
      rw [hstep, ih, List.map_cons, String.join_cons]
      simp only [String.append_assoc]

theorem writeGate_of_known {g : Gate} (h : g.kind? ≠ none) (position : Nat) (text : String) :
    writeGate position text g = (.ok (), writeLines text ((statements g).map Statement.text)) := by
  cases g with
  | custom name qubits params => exact absurd rfl h
  | _ => rfl

/-- Gates of known kinds are written, and the pass goes on behind them. -/
theorem writeGates_append {before : List Gate} (h : ∀ g ∈ before, g.kind? ≠ none) (position : Nat)
    (text : String) (rest : List Gate) :
    writeGates position text (before ++ rest) =
      writeGates (position + before.length) (writeLines text ((body before).map Statement.text))
        rest := by
  induction before generalizing position text with
  | nil => rfl
  | cons g before ih =>
      obtain ⟨hg, hbefore⟩ := List.forall_mem_cons.mp h
      rw [List.cons_append, writeGates, writeGate_of_known hg]
      simp only
      rw [ih hbefore, List.length_cons, body, body, List.flatMap_cons, List.map_append,
        writeLines_append, Nat.add_assoc, Nat.add_comm 1]

theorem writeGates_of_known {gates : List Gate} (h : ∀ g ∈ gates, g.kind? ≠ none) (position : Nat)
    (text : String) :
    writeGates position text gates =
      (.ok (), writeLines text ((body gates).map Statement.text)) := by
  have happend := writeGates_append h position text []
  rwa [List.append_nil] at happend

/-- The two passes agree: the second one by itself refuses the gate that the first one finds, at the same
position. -/
theorem answer_writeGates (position : Nat) (text : String) (gates : List Gate) :
    (writeGates position text gates).1 =
      match firstUnsupported? position gates with
      | some refusal => .error refusal
      | none => .ok () := by
  rcases firstUnsupported?_cases position gates with
    ⟨hknown, hnone⟩ | ⟨before, name, qubits, params, after, rfl, hbefore, hsome⟩
  · rw [hnone, writeGates_of_known hknown]
  · rw [hsome, writeGates_append hbefore]
    rfl

/-! ## Programs -/

/-- The writer leaves the program of the circuit, or refuses with no text written. -/
theorem emit_eq (c : Circuit) :
    emit c =
      match program c with
      | .ok text => (.ok (), text)
      | .error refusal => (.error refusal, "") := by
  rcases firstUnsupported?_cases 0 c.gates with
    ⟨hknown, hnone⟩ | ⟨before, name, qubits, params, after, -, -, hsome⟩
  · simp only [emit, program, hnone]
    rw [writeGates_of_known hknown, ← writeLines_append, writeLines_eq, String.empty_append, lines]
  · simp only [emit, program, hsome]

/-- The indices of the custom gates in a row. -/
def customPositions (gates : List Gate) : Set Nat :=
  {i | ∃ name qubits params, gates[i]? = some (.custom name qubits params)}

theorem isLeast_customPositions {before : List Gate} (h : ∀ g ∈ before, g.kind? ≠ none) (name : String)
    (qubits : List Qubit) (params : List Binary64) (after : List Gate) :
    IsLeast (customPositions (before ++ .custom name qubits params :: after)) before.length := by
  refine ⟨⟨name, qubits, params, by simp⟩, ?_⟩
  rintro i ⟨name', qubits', params', hi⟩
  by_contra hlt
  rw [List.getElem?_append_left (Nat.lt_of_not_le hlt)] at hi
  exact h _ (List.mem_of_getElem? hi) rfl

/-- A circuit without custom gates has a program; another one is refused for its first custom gate, which
is reported with its name and its index. -/
theorem program_cases (c : Circuit) :
    ((∀ g ∈ c.gates, g.kind? ≠ none) ∧ program c = .ok (document c)) ∨
      ∃ name qubits params position, IsLeast (customPositions c.gates) position ∧
        c.gates[position]? = some (.custom name qubits params) ∧
        program c = .error ⟨name, position⟩ := by
  rcases firstUnsupported?_cases 0 c.gates with
    ⟨hknown, -⟩ | ⟨before, name, qubits, params, after, hgates, hbefore, hsome⟩
  · exact Or.inl ⟨hknown, program_eq_ok_iff.mpr ⟨hknown, rfl⟩⟩
  · refine Or.inr ⟨name, qubits, params, before.length, ?_, ?_, ?_⟩
    · -- the gates before it are known, so its index is the least one
      rw [hgates]
      exact isLeast_customPositions hbefore name qubits params after
    · rw [hgates, List.getElem?_append_right (Nat.le_refl _), Nat.sub_self]
      rfl
    · rw [program, hsome, Nat.zero_add]

theorem exists_program_iff (c : Circuit) :
    (∃ text, program c = .ok text) ↔
      ∀ name qubits params, Gate.custom name qubits params ∉ c.gates := by
  rcases program_cases c with ⟨hknown, hok⟩ | ⟨name, qubits, params, position, -, hat, herror⟩
  · refine iff_of_true ⟨_, hok⟩ ?_
    intro name qubits params hmem
    exact hknown _ hmem rfl
  · refine iff_of_false ?_ fun hnone => hnone name qubits params (List.mem_of_getElem? hat)
    rintro ⟨text, hok⟩
    rw [herror] at hok
    cases hok

theorem program_eq_error_iff {c : Circuit} {refusal : Unsupported} :
    program c = .error refusal ↔ IsLeast (customPositions c.gates) refusal.position ∧
      ∃ qubits params, c.gates[refusal.position]? = some (.custom refusal.gate qubits params) := by
  rcases program_cases c with ⟨hknown, hok⟩ | ⟨name, qubits, params, position, hleast, hat, herror⟩
  · rw [hok]
    refine iff_of_false (fun h => by cases h) ?_
    rintro ⟨-, qubits, params, hat⟩
    exact hknown _ (List.mem_of_getElem? hat) rfl
  · rw [herror]
    constructor
    · rintro ⟨⟩
      exact ⟨hleast, qubits, params, hat⟩
    · -- there is one least index, and one gate stands there
      rintro ⟨hleast', qubits', params', hat'⟩
      obtain rfl := hleast.unique hleast'
      rw [hat] at hat'
      cases hat'
      rfl

/-- **A circuit has a program exactly if it has no custom gate, and is refused for its first custom gate
otherwise**: the error has the least index of such a gate, and the name of the gate at that index. A writer
that goes over the gates twice leaves the program, or refuses before it has written anything; by itself its
second pass would refuse the same gate, so behind the first pass it refuses none, whatever is written
already. -/
theorem program_answer (c : Circuit) :
    ((∃ text, program c = .ok text) ↔
      ∀ name qubits params, Gate.custom name qubits params ∉ c.gates) ∧
    (∀ refusal, program c = .error refusal ↔
      IsLeast (customPositions c.gates) refusal.position ∧
        ∃ qubits params, c.gates[refusal.position]? = some (.custom refusal.gate qubits params)) ∧
    (∀ text, program c = .ok text → emit c = (.ok (), text) ∧
      ∀ g ∈ c.gates, ∀ position written, (writeGate position written g).1 = .ok ()) ∧
    (∀ refusal, program c = .error refusal → emit c = (.error refusal, "")) ∧
    ∀ written, (writeGates 0 written c.gates).1 = (program c).map fun _ => () := by
  refine ⟨exists_program_iff c, fun refusal => program_eq_error_iff, ?_, ?_, ?_⟩
  · -- the pass that writes meets known gates only
    intro text hok
    rw [emit_eq, hok]
    refine ⟨rfl, ?_⟩
    intro g hg position written
    rw [writeGate_of_known ((program_eq_ok_iff.mp hok).1 g hg)]
  · intro refusal herror
    rw [emit_eq, herror]
  · intro written
    rw [answer_writeGates, program]
    cases firstUnsupported? 0 c.gates <;> rfl

/-- Control: of two custom gates behind a Hadamard gate, the first one is reported, though it is named like
a gate of a known kind, and nothing is written of the Hadamard gate. -/
theorem program_answer_named_like_cx :
    ∃ c : Circuit, c.Finished ∧
      c.gates = [.h 0, .custom "cx" [0, 1] [], .custom "ccx" [0, 1, 2] []] ∧
      program c = .error ⟨"cx", 1⟩ ∧ emit c = (.error ⟨"cx", 1⟩, "") := by
  let c : Circuit :=
    ⟨"demo", 3, [.h 0, .custom "cx" [0, 1] [], .custom "ccx" [0, 1, 2] []], []⟩
  have hc : c.Finished :=
    ⟨_, [.h 0, .custom "cx" [0, 1] [], .custom "ccx" [0, 1, 2] []], rfl, rfl⟩
  obtain ⟨-, herror, -, hwritten, -⟩ := program_answer c
  have hknown : ∀ g ∈ [Gate.h 0], g.kind? ≠ none := by decide
  have hleast : IsLeast (customPositions c.gates) 1 := isLeast_customPositions hknown "cx" [0, 1] [] _
  have h : program c = .error ⟨"cx", 1⟩ := (herror ⟨"cx", 1⟩).mpr ⟨hleast, [0, 1], [], rfl⟩
  exact ⟨c, hc, rfl, h, hwritten _ h⟩

end Qasm

end QCircuit
