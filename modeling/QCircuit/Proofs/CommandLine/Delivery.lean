import QCircuit.Proofs.CommandLine.Additions
import QCircuit.Proofs.CommandLine.Stages

/-!
# Where a document goes

How much is said on the way and where the document goes have no part in what a generation makes, for it
reads neither. So two runs with one seed that differ in nothing else deliver one document, each to its own
place, or fail for one reason (`CommandLine.runs_agree`).

What a run leaves is said in full, and in order. The notes come first, on standard error. A document that is
printed is all of standard output, with a line feed behind it unless it ends in one; a document that is
written is all of its file, nothing is printed, and one line behind the notes confirms it
(`CommandLine.Outcome.Delivers`).
-/

set_option autoImplicit false

namespace QCircuit.CommandLine

variable {files : Files} {freshSeed : UInt64} {g : Generation} {c : Circuit}

namespace Outcome

/-- What a run leaves that delivers the document of a circuit on standard output, or in the file under a
path: all that it did, in order, and what that comes to on each stream. -/
inductive Delivers (outcome : Outcome) (notes : List String) (c : Circuit) (document : String) :
    Option String → Prop
  | printed : outcome.code = 0 → document.toList.getLast? = some '\n' →
      outcome.effects = notes.map .note ++ [.print document] → outcome.stdout = document →
      outcome.stderr = notes → outcome.written = [] → Delivers outcome notes c document none
  | printedEnded : outcome.code = 0 → document.toList.getLast? ≠ some '\n' →
      outcome.effects = notes.map .note ++ [.print document, .print "\n"] →
      outcome.stdout = document ++ "\n" → outcome.stderr = notes → outcome.written = [] →
      Delivers outcome notes c document none
  | wrote {path : String} : outcome.code = 0 →
      outcome.effects = notes.map .note ++ [.write path document, .note (confirmation c path)] →
      outcome.stdout = "" → outcome.stderr = notes ++ [confirmation c path] →
      outcome.written = [(path, document)] → Delivers outcome notes c document (some path)

/-- What a run leaves that fails: notes and the failure on standard error, and nothing else. -/
structure Fails (outcome : Outcome) (notes : List String) (failure : Failure) : Prop where
  code : outcome.code = 1
  effects : outcome.effects = notes.map .note ++ [.note ("Error: " ++ failure.message)]
  stdout : outcome.stdout = ""
  stderr : outcome.stderr = notes ++ ["Error: " ++ failure.message]
  written : outcome.written = []

theorem Delivers.code_eq {outcome : Outcome} {notes : List String} {document : String}
    {output : Option String} (h : outcome.Delivers notes c document output) : outcome.code = 0 := by
  cases h with
  | printed hcode => exact hcode
  | printedEnded hcode => exact hcode
  | wrote hcode => exact hcode

/-- A run that has done what a delivery asks for behind its notes delivers the document. -/
theorem delivers_of_delivery (notes : List String) (c : Circuit) (document : String)
    (output : Option String) :
    (Run.outcome ⟨notes.map .note ++ delivery c document output, .ok ()⟩).Delivers notes c document
      output := by
  cases output with
  | none =>
      by_cases hended : document.toList.getLast? = some '\n'
      · rw [delivery, if_pos hended]
        refine .printed rfl hended rfl (stdout_notes notes _ 0) ?_ (written_notes notes _ 0)
        exact (stderr_notes notes _ 0).trans (List.append_nil notes)
      · rw [delivery, if_neg hended]
        refine .printedEnded rfl hended rfl (stdout_notes notes _ 0) ?_ (written_notes notes _ 0)
        exact (stderr_notes notes _ 0).trans (List.append_nil notes)
  | some path =>
      exact .wrote rfl rfl (stdout_notes notes _ 0) (stderr_notes notes _ 0) (written_notes notes _ 0)

theorem fails_of_notes (notes : List String) (failure : Failure) :
    (Run.outcome ⟨notes.map .note, .error (.failure failure)⟩).Fails notes failure where
  code := rfl
  effects := rfl
  stdout := stdout_notes notes _ 1
  stderr := stderr_notes notes _ 1
  written := written_notes notes _ 1

end Outcome

/-! ## One generation -/

/-- With a place for its document, a generation delivers the document of its circuit, or there is none and
the failure is reported. -/
theorem runGeneration_leaves (hplace : files.takes g.output) (freshSeed : UInt64) (verbosity : Nat) :
    (∃ c text, Generates files freshSeed g c ∧ document g.format c = .ok text ∧
        documentOf files freshSeed g = .ok (c, text) ∧
        (runGeneration files freshSeed verbosity g).outcome.Delivers
          (notesOf files freshSeed g verbosity) c text g.output) ∨
      ∃ failure, documentOf files freshSeed g = .error failure ∧
        (runGeneration files freshSeed verbosity g).outcome.Fails
          (notesOf files freshSeed g verbosity) failure := by
  rcases documentOf_cases files freshSeed g with
    ⟨c, text, hgenerates, htext, hdocument⟩ | ⟨failure, -, hdocument⟩
  · refine Or.inl ⟨c, text, hgenerates, htext, hdocument, ?_⟩
    rw [runGeneration_of_document hdocument, deliver_of_takes hplace]
    exact Outcome.delivers_of_delivery _ c text g.output
  · refine Or.inr ⟨failure, hdocument, ?_⟩
    rw [runGeneration_of_failure hdocument]
    exact Outcome.fails_of_notes _ failure

/-! ## Two generations -/

variable {seed : UInt64}

/-- With a seed of its own, a generation has the same answer wherever its document goes. -/
theorem answer_elsewhere (hseed : g.seed = some seed) (output : Option String)
    (freshSeed freshSeed' : UInt64) :
    answer freshSeed' { g with output := output } = answer freshSeed g := by
  funext problem settings
  simp only [answer, hseed, Option.getD_some]

theorem documentOf_elsewhere (hseed : g.seed = some seed) (output : Option String)
    (freshSeed freshSeed' : UInt64) :
    documentOf files freshSeed' { g with output := output } = documentOf files freshSeed g := by
  simp only [documentOf, answer_elsewhere hseed output freshSeed freshSeed']

theorem notesOf_elsewhere (hseed : g.seed = some seed) (output : Option String)
    (freshSeed freshSeed' : UInt64) (verbosity : Nat) :
    notesOf files freshSeed' { g with output := output } verbosity =
      notesOf files freshSeed g verbosity := by
  simp only [notesOf, eventsOf, answer_elsewhere hseed output freshSeed freshSeed']

/-- Two runs of a generation with places for its document deliver the same one, or fail for the same
reason. -/
theorem runGeneration_agrees (hseed : g.seed = some seed) {output : Option String}
    (hplace : files.takes g.output) (hplace' : files.takes output) (freshSeed freshSeed' : UInt64)
    (verbosity verbosity' : Nat) :
    (∃ c text, Generates files freshSeed g c ∧ document g.format c = .ok text ∧
        (runGeneration files freshSeed verbosity g).outcome.Delivers (notesOf files freshSeed g verbosity) c
          text g.output ∧
        (runGeneration files freshSeed' verbosity' { g with output := output }).outcome.Delivers
          (notesOf files freshSeed g verbosity') c text output) ∨
      ∃ failure,
        (runGeneration files freshSeed verbosity g).outcome.Fails (notesOf files freshSeed g verbosity)
          failure ∧
        (runGeneration files freshSeed' verbosity' { g with output := output }).outcome.Fails
          (notesOf files freshSeed g verbosity') failure := by
  -- the second run, told in terms of the first generation
  have hother := runGeneration_leaves (g := { g with output := output }) hplace' freshSeed' verbosity'
  rw [documentOf_elsewhere hseed output freshSeed, notesOf_elsewhere hseed output freshSeed] at hother
  -- both runs have one `documentOf`, so they come to one document, or both to one failure
  rcases runGeneration_leaves hplace freshSeed verbosity with
    ⟨c, text, hgenerates, htext, hdocument, hdelivers⟩ | ⟨failure, hdocument, hfails⟩
  · rcases hother with ⟨c', text', -, -, hdocument', hdelivers'⟩ | ⟨failure, hdocument', -⟩
    · rw [hdocument] at hdocument'
      cases hdocument'
      exact Or.inl ⟨c, text, hgenerates, htext, hdelivers, hdelivers'⟩
    · rw [hdocument] at hdocument'
      cases hdocument'
  · rcases hother with ⟨c', text', -, -, hdocument', -⟩ | ⟨failure', hdocument', hfails'⟩
    · rw [hdocument] at hdocument'
      cases hdocument'
    · rw [hdocument] at hdocument'
      cases hdocument'
      exact Or.inr ⟨failure, hfails, hfails'⟩

/-- **How much is said on the way and where the document goes have no part in what a generation makes.**
Two command lines with one seed are read as the same generation, but for the verbosity and for the output,
which each of them may or may not name. Where the place of either document takes it, both runs end with the
same code. They succeed with one document: each prints it, with a line feed behind it unless it ends in one,
or has it alone in its file and prints nothing. Or they fail for one reason, with nothing printed or written.
Whatever becomes of a run, its notes come first and stand on standard error.

Flags for more verbosity and an output that are put into the first command line make such a second one. -/
theorem runs_agree (files : Files) (seedVariable : Option String) {arguments arguments' : List String}
    {verbosity verbosity' : Nat} {output : Option String}
    (h : demandOf seedVariable arguments = .command ⟨verbosity, .generate g⟩)
    (h' : demandOf seedVariable arguments' =
      .command ⟨verbosity', .generate { g with output := output }⟩)
    (hseed : g.seed = some seed) (hplace : files.takes g.output) (hplace' : files.takes output)
    (freshSeed freshSeed' : UInt64) :
    ((demandOf seedVariable arguments).run files freshSeed).code =
      ((demandOf seedVariable arguments').run files freshSeed').code ∧
    (((demandOf seedVariable arguments).run files freshSeed).code = 0 →
      ∃ c text, Generates files freshSeed g c ∧ document g.format c = .ok text ∧
        ((demandOf seedVariable arguments).run files freshSeed).Delivers
          (notesOf files freshSeed g verbosity) c text g.output ∧
        ((demandOf seedVariable arguments').run files freshSeed').Delivers
          (notesOf files freshSeed g verbosity') c text output) ∧
    (((demandOf seedVariable arguments).run files freshSeed).code ≠ 0 →
      ∃ failure,
        ((demandOf seedVariable arguments).run files freshSeed).Fails
          (notesOf files freshSeed g verbosity) failure ∧
        ((demandOf seedVariable arguments').run files freshSeed').Fails
          (notesOf files freshSeed g verbosity') failure) ∧
    ∀ (row : List String) (added : Option String) (shown : Nat) (command : Command),
      Extends arguments row added → demandOf seedVariable row = .command ⟨shown, command⟩ →
      command = .generate { g with output := g.output.or added } := by
  have hextends : ∀ (row : List String) (added : Option String) (shown : Nat) (command : Command),
      Extends arguments row added → demandOf seedVariable row = .command ⟨shown, command⟩ →
      command = .generate { g with output := g.output.or added } :=
    fun row added shown command hrow => demandOf_extends hrow h
  rw [h, h']
  simp only [Demand.run, Invocation.run, Command.run]
  rcases runGeneration_agrees hseed hplace hplace' freshSeed freshSeed' verbosity verbosity' with
    ⟨c, text, hgenerates, htext, hdelivers, hdelivers'⟩ | ⟨failure, hfails, hfails'⟩
  · refine ⟨hdelivers.code_eq.trans hdelivers'.code_eq.symm, fun _ => ?_, fun hne => ?_, hextends⟩
    · exact ⟨c, text, hgenerates, htext, hdelivers, hdelivers'⟩
    · exact absurd hdelivers.code_eq hne
  · refine ⟨hfails.code.trans hfails'.code.symm, fun hcode => ?_, fun _ => ?_, hextends⟩
    · rw [hfails.code] at hcode
      cases hcode
    · exact ⟨failure, hfails, hfails'⟩

/-- Control: a report of a Bell pair, once printed without a word and once written to a file with every
note. -/
theorem runs_agree_bell :
    demandOf none ["generate", "bell", "-s", "7", "-f", "json"] =
        .command ⟨0, .generate ⟨"bell", none, some 7, .json, none, none⟩⟩ ∧
      demandOf none ["-v", "generate", "--output=bell.json", "bell", "-vvfjson", "--seed", "7"] =
        .command ⟨2, .generate ⟨"bell", none, some 7, .json, some "bell.json", none⟩⟩ ∧
      ∃ c text,
        ((demandOf none ["generate", "bell", "-s", "7", "-f", "json"]).run
          ⟨fun _ => .missing, fun _ => true, true⟩ 1).Delivers [] c text none ∧
        ((demandOf none ["-v", "generate", "--output=bell.json", "bell", "-vvfjson", "--seed", "7"]).run
          ⟨fun _ => .missing, fun _ => true, true⟩ 2).Delivers
            ["DEBUG generating circuit algorithm=Bell num_qubits=2",
              " INFO generated circuit algorithm=\"Bell\" num_qubits=2 num_gates=3"]
            c text (some "bell.json") := by
  have h : demandOf none ["generate", "bell", "-s", "7", "-f", "json"] =
      .command ⟨0, .generate ⟨"bell", none, some 7, .json, none, none⟩⟩ := by decide +kernel
  have h' : demandOf none
      ["-v", "generate", "--output=bell.json", "bell", "-vvfjson", "--seed", "7"] =
        .command ⟨2, .generate ⟨"bell", none, some 7, .json, some "bell.json", none⟩⟩ := by
    decide +kernel
  have hquiet : notesOf ⟨fun _ => .missing, fun _ => true, true⟩ 1
      ⟨"bell", none, some 7, .json, none, none⟩ 0 = [] := by decide +kernel
  have hloud : notesOf ⟨fun _ => .missing, fun _ => true, true⟩ 1
      ⟨"bell", none, some 7, .json, none, none⟩ 2 =
        ["DEBUG generating circuit algorithm=Bell num_qubits=2",
          " INFO generated circuit algorithm=\"Bell\" num_qubits=2 num_gates=3"] := by decide +kernel
  obtain ⟨-, hdelivers, -⟩ := runs_agree ⟨fun _ => .missing, fun _ => true, true⟩ none h h' rfl rfl rfl 1 2
  rw [hquiet, hloud] at hdelivers
  obtain ⟨c, hc⟩ : ∃ c, answer 1 ⟨"bell", none, some 7, .json, none, none⟩ .unknown .usual = .ok c := ⟨_, rfl⟩
  have hgenerates : Generates ⟨fun _ => .missing, fun _ => true, true⟩ 1
      ⟨"bell", none, some 7, .json, none, none⟩ c := ⟨.none, .usual, hc⟩
  obtain ⟨c, text, -, -, hprinted, hwritten⟩ :=
    hdelivers (by rw [h]; exact code_of_generates hgenerates rfl 0)
  exact ⟨h, h', c, text, hprinted, hwritten⟩

end QCircuit.CommandLine
