import QCircuit.CommandLine.Run
import QCircuit.Proofs.Generate.Measured

/-!
# The stages of a command

A command goes through its stages in a fixed order, and each stage is described by what it asks for: the
problem data (`GivesProblem`), the settings (`GivesSettings`), the circuit or the width, and a place for the
document. What can be wrong at a stage is described beside it (`DataFault`, `ConfigFault`). No stage is
between the circuit and its place: a circuit that was generated has a document in every format
(`exists_document`).

So a command succeeds exactly when all of its stages do (`Succeeds`), and any other one fails for the first
stage that does (`FailsFirst`), or cannot print what it comes to. Up to its delivery a run does nothing but
say notes, so a command that fails has printed nothing and written nothing (`run_cases`).
-/

set_option autoImplicit false

namespace QCircuit.CommandLine

variable {files : Files}

/-! ## Parts of a run -/

namespace Run

variable {α β : Type}

theorem stage_ok_bind (a : α) (next : α → Run β) : stage (.ok a) >>= next = next a := rfl

theorem stage_error_bind (failure : Failure) (next : α → Run β) :
    stage (.error failure) >>= next = ⟨[], .error (.failure failure)⟩ := rfl

/-- An answer that is found in steps is a stage for each of them. -/
theorem stage_bind_bind (answer : Except Failure α) (step : α → Except Failure β) {γ : Type}
    (next : β → Run γ) :
    stage (answer >>= step) >>= next = stage answer >>= fun a => stage (step a) >>= next := by
  cases answer <;> rfl

/-- Lines that are said come before everything that is done after them. -/
theorem say_bind (lines : List String) (next : Unit → Run β) :
    say lines >>= next = ⟨lines.map .note ++ (next ()).effects, (next ()).result⟩ := rfl

theorem print_of_canPrint (h : files.canPrint = true) (text : String) :
    print files text = ⟨[.print text], .ok ()⟩ := if_pos h

/-- Nothing is printed where standard output takes nothing. -/
theorem print_of_not_canPrint (h : files.canPrint = false) (text : String) :
    print files text = ⟨[], .error .brokenOutput⟩ := by
  simp [print, h]

theorem write_of_canWrite {path : String} (h : files.canWrite path = true) (content : String) :
    write files path content = ⟨[.write path content], .ok ()⟩ := if_pos h

/-- Nothing is written where a file cannot be. -/
theorem write_of_not_canWrite {path : String} (h : files.canWrite path = false) (content : String) :
    write files path content = ⟨[], .error (.failure (.outputUnwritable path))⟩ := by
  simp [write, h]

end Run

namespace Outcome

variable (lines : List String) (effects : List Effect) (code : Nat)

theorem stdout_notes : stdout ⟨lines.map .note ++ effects, code⟩ = stdout ⟨effects, code⟩ := by
  simp [stdout, List.filterMap_map]

theorem stderr_notes : stderr ⟨lines.map .note ++ effects, code⟩ = lines ++ stderr ⟨effects, code⟩ := by
  simp [stderr, List.filterMap_map]

theorem written_notes : written ⟨lines.map .note ++ effects, code⟩ = written ⟨effects, code⟩ := by
  simp [written, List.filterMap_map]

end Outcome

/-! ## Problem data -/

/-- The text of problem data that are given in place or, after an at sign, in a file. -/
inductive DataText (files : Files) : String → String → Prop
  | inline {given : String} : (∀ path, given.toList ≠ '@' :: path) → DataText files given given
  | file {given text : String} {path : List Char} : given.toList = '@' :: path →
      files.find (String.ofList path) = .holds text → DataText files given text

/-- The problem data that a command is given: none, or what a text says. -/
inductive GivesProblem (files : Files) : Option String → Problem → Prop
  | none : GivesProblem files none .unknown
  | some {given text : String} {problem : Problem} : DataText files given text →
      Problem.parse text = .ok problem → GivesProblem files (some given) problem

/-- What is wrong with the problem data of a command. -/
inductive DataFault (files : Files) : Option String → Failure → Prop
  | unreadable {given : String} {path : List Char} : given.toList = '@' :: path →
      (∀ text, files.find (String.ofList path) ≠ .holds text) →
      DataFault files (some given) (.dataUnreadable (String.ofList path))
  | malformed {given text : String} {fault : InputFault} : DataText files given text →
      Problem.parse text = .error fault →
      DataFault files (some given) (.generation (.invalidInput fault))

theorem dataText_of_dataText {given text : String} (h : DataText files given text) :
    dataText files given = .ok text := by
  cases h with
  | inline hplace =>
      unfold dataText
      -- an at sign in front is what a text in place does not have
      split
      · next path hpath => exact absurd hpath (hplace path)
      · rfl
  | file hpath hfile => simp only [dataText, hpath, hfile]

theorem problemOf_of_gives {data : Option String} {problem : Problem}
    (h : GivesProblem files data problem) : problemOf files data = .ok problem := by
  cases h with
  | none => rfl
  | some htext hparse =>
      simp [problemOf, dataText_of_dataText htext, hparse, bind, Except.bind, Except.mapError]

theorem problemOf_of_fault {data : Option String} {failure : Failure}
    (h : DataFault files data failure) : problemOf files data = .error failure := by
  cases h with
  | @unreadable given path hpath hfile =>
      have hnone : dataText files given = .error (.dataUnreadable (String.ofList path)) := by
        simp only [dataText, hpath]
      simp [problemOf, hnone, bind, Except.bind]
  | malformed htext hparse =>
      simp [problemOf, dataText_of_dataText htext, hparse, bind, Except.bind, Except.mapError]

/-- What is given is a text in place or the path of a file. -/
theorem dataText_cases (files : Files) (given : String) :
    (∃ text, DataText files given text) ∨
      ∃ path, given.toList = '@' :: path ∧ ∀ text, files.find (String.ofList path) ≠ .holds text := by
  by_cases hat : ∃ path, given.toList = '@' :: path
  · obtain ⟨path, hpath⟩ := hat
    by_cases hfile : ∃ text, files.find (String.ofList path) = .holds text
    · obtain ⟨text, htext⟩ := hfile
      exact Or.inl ⟨text, .file hpath htext⟩
    · exact Or.inr ⟨path, hpath, not_exists.mp hfile⟩
  · exact Or.inl ⟨given, .inline (not_exists.mp hat)⟩

/-- The problem data are given, or something is wrong with them. -/
theorem problem_cases (files : Files) (data : Option String) :
    (∃ problem, GivesProblem files data problem) ∨ ∃ failure, DataFault files data failure := by
  cases data with
  | none => exact Or.inl ⟨_, .none⟩
  | some given =>
      rcases dataText_cases files given with ⟨text, htext⟩ | ⟨path, hpath, hfile⟩
      · cases hparse : Problem.parse text with
        | ok problem => exact Or.inl ⟨problem, .some htext hparse⟩
        | error fault => exact Or.inr ⟨_, .malformed htext hparse⟩
      · exact Or.inr ⟨_, .unreadable hpath hfile⟩

/-! ## Settings -/

/-- The settings that a command is given: the usual ones, or those in a file, within their bounds. -/
inductive GivesSettings (files : Files) : Option String → Settings → Prop
  | usual : GivesSettings files none .usual
  | file {path text : String} {settings : Settings} : files.find path = .holds text →
      Settings.read? text = some settings → settings.Bounded →
      GivesSettings files (some path) settings

/-- What is wrong with the settings of a command. -/
inductive ConfigFault (files : Files) : Option String → Failure → Prop
  | missing {path : String} : files.find path = .missing →
      ConfigFault files (some path) (.configMissing path)
  | unreadable {path : String} : files.find path = .unreadable →
      ConfigFault files (some path) (.configUnreadable path)
  | invalid {path text : String} : files.find path = .holds text → Settings.read? text = none →
      ConfigFault files (some path) (.configInvalid path)
  | unbounded {path text : String} {settings : Settings} {excess : Settings.Excess} :
      files.find path = .holds text → Settings.read? text = some settings →
      settings.excess? = some excess →
      ConfigFault files (some path) (.generation (.invalidInput (.settingTooLarge excess)))

theorem settingsOf_of_gives {config : Option String} {settings : Settings}
    (h : GivesSettings files config settings) : settingsOf files config = .ok settings := by
  cases h with
  | usual => rfl
  | file hfile hread hbounded =>
      simp only [settingsOf, settingsIn, hfile, hread, settings.excess?_eq_none_iff.mpr hbounded]

theorem settingsOf_of_fault {config : Option String} {failure : Failure}
    (h : ConfigFault files config failure) : settingsOf files config = .error failure := by
  cases h with
  | missing hfile => simp only [settingsOf, settingsIn, hfile]
  | unreadable hfile => simp only [settingsOf, settingsIn, hfile]
  | invalid hfile hread => simp only [settingsOf, settingsIn, hfile, hread]
  | unbounded hfile hread hexcess => simp only [settingsOf, settingsIn, hfile, hread, hexcess]

/-- The settings are given, or something is wrong with them. -/
theorem settings_cases (files : Files) (config : Option String) :
    (∃ settings, GivesSettings files config settings) ∨
      ∃ failure, ConfigFault files config failure := by
  cases config with
  | none => exact Or.inl ⟨_, .usual⟩
  | some path =>
      cases hfile : files.find path with
      | missing => exact Or.inr ⟨_, .missing hfile⟩
      | unreadable => exact Or.inr ⟨_, .unreadable hfile⟩
      | holds text =>
          cases hread : Settings.read? text with
          | none => exact Or.inr ⟨_, .invalid hfile hread⟩
          | some settings =>
              -- the last that can be wrong with settings is a bound
              cases hexcess : settings.excess? with
              | some excess => exact Or.inr ⟨_, .unbounded hfile hread hexcess⟩
              | none =>
                  have hbounded := settings.excess?_eq_none_iff.mp hexcess
                  exact Or.inl ⟨settings, .file hfile hread hbounded⟩

theorem settingsOf_eq_ok_iff {config : Option String} {settings : Settings} :
    settingsOf files config = .ok settings ↔ GivesSettings files config settings := by
  refine ⟨fun h => ?_, settingsOf_of_gives⟩
  rcases settings_cases files config with ⟨settings', hgives⟩ | ⟨failure, hfault⟩
  · rw [settingsOf_of_gives hgives] at h
    exact Except.ok.inj h ▸ hgives
  · rw [settingsOf_of_fault hfault] at h
    cases h

/-! ## The circuit and its document -/

variable {freshSeed : UInt64} {g : Generation} {c : Circuit}

/-- A generation with everything that it asks for, and the circuit that it is answered with. -/
inductive Generates (files : Files) (freshSeed : UInt64) (g : Generation) (c : Circuit) : Prop
  | mk {problem : Problem} {settings : Settings} : GivesProblem files g.data problem →
      GivesSettings files g.config settings → answer freshSeed g problem settings = .ok c →
      Generates files freshSeed g c

/-- What a generation comes to before it is delivered: the circuit and its document. -/
def documentOf (files : Files) (freshSeed : UInt64) (g : Generation) :
    Except Failure (Circuit × String) := do
  let problem ← problemOf files g.data
  let settings ← settingsOf files g.config
  let c ← (answer freshSeed g problem settings).mapError .generation
  let text ← (document g.format c).mapError .unsupported
  .ok (c, text)

/-- The events of a generation, up to the stage that fails. -/
def eventsOf (files : Files) (freshSeed : UInt64) (g : Generation) : List Event :=
  match problemOf files g.data, settingsOf files g.config with
  | .ok problem, .ok settings =>
      Journal.ofRequest g.id problem settings ++
        match answer freshSeed g problem settings with
        | .ok c => [.ofCircuit c]
        | .error _ => []
  | _, _ => []

/-- The notes that are shown of a generation at a verbosity. -/
def notesOf (files : Files) (freshSeed : UInt64) (g : Generation) (verbosity : Nat) : List String :=
  Journal.shown verbosity (eventsOf files freshSeed g)

/-- The circuit of a generation consists of gates of known kinds. -/
theorem Generates.kind?_ne_none (h : Generates files freshSeed g c) :
    ∀ gate ∈ c.gates, gate.kind? ≠ none := by
  obtain ⟨-, -, hanswer⟩ := h
  obtain ⟨family, width, -, -, -, -, -, hmakes, -⟩ := Generate.makes_of_named_ok hanswer
  obtain ⟨body, hunitary, hgates⟩ := hmakes.gates_eq
  rw [hgates]
  intro gate hgate
  rcases List.mem_append.mp hgate with hbody | hlast
  · exact (hunitary gate hbody).1
  · rw [List.mem_singleton.mp hlast]
    exact Option.some_ne_none _

/-- A circuit of known gates has a document in every format. -/
theorem exists_document (h : ∀ gate ∈ c.gates, gate.kind? ≠ none) (format : Format) :
    ∃ text, document format c = .ok text := by
  have hprogram : Qasm.program c = .ok (Qasm.document c) := Qasm.program_eq_ok_iff.mpr ⟨h, rfl⟩
  cases format with
  | qasm => exact ⟨_, hprogram⟩
  | json => exact ⟨_, by rw [document, hprogram]; rfl⟩
  | ir => exact ⟨_, rfl⟩

theorem documentOf_of_generates (h : Generates files freshSeed g c) :
    ∃ text, document g.format c = .ok text ∧ documentOf files freshSeed g = .ok (c, text) := by
  obtain ⟨text, htext⟩ := exists_document h.kind?_ne_none g.format
  obtain ⟨hproblem, hsettings, hanswer⟩ := h
  refine ⟨text, htext, ?_⟩
  simp [documentOf, problemOf_of_gives hproblem, settingsOf_of_gives hsettings, hanswer, htext, bind,
    Except.bind, Except.mapError]

theorem shown_append (verbosity : Nat) (before after : List Event) :
    Journal.shown verbosity (before ++ after) =
      Journal.shown verbosity before ++ Journal.shown verbosity after := by
  simp [Journal.shown]

/-- A generation says its notes and delivers the document that it comes to, if it comes to one. -/
theorem runGeneration_eq (files : Files) (freshSeed : UInt64) (verbosity : Nat) (g : Generation) :
    runGeneration files freshSeed verbosity g = (do
      Run.say (notesOf files freshSeed g verbosity)
      let (c, text) ← Run.stage (documentOf files freshSeed g)
      deliver files g.output c text) := by
  -- the stages one after another; the notes that are said between them all come before the delivery
  simp only [runGeneration, documentOf, Run.stage_bind_bind]
  cases hproblem : problemOf files g.data with
  | error failure =>
      simp only [notesOf, eventsOf, hproblem, Run.stage_error_bind]
      rfl
  | ok problem =>
      cases hsettings : settingsOf files g.config with
      | error failure =>
          simp only [notesOf, eventsOf, hproblem, hsettings, Run.stage_ok_bind, Run.stage_error_bind]
          rfl
      | ok settings =>
          cases hanswer : answer freshSeed g problem settings with
          | error error =>
              simp only [notesOf, eventsOf, hproblem, hsettings, hanswer, Except.mapError,
                Run.stage_ok_bind, Run.stage_error_bind, List.append_nil]
          | ok c =>
              simp only [notesOf, eventsOf, hproblem, hsettings, hanswer, Except.mapError,
                Run.stage_ok_bind, Run.say_bind, shown_append, List.map_append, List.append_assoc]

theorem runGeneration_of_document {text : String} (h : documentOf files freshSeed g = .ok (c, text))
    (verbosity : Nat) :
    runGeneration files freshSeed verbosity g =
      ⟨(notesOf files freshSeed g verbosity).map .note ++ (deliver files g.output c text).effects,
        (deliver files g.output c text).result⟩ := by
  rw [runGeneration_eq, h]
  rfl

theorem runGeneration_of_failure {failure : Failure} (h : documentOf files freshSeed g = .error failure)
    (verbosity : Nat) :
    runGeneration files freshSeed verbosity g =
      ⟨(notesOf files freshSeed g verbosity).map .note, .error (.failure failure)⟩ := by
  rw [runGeneration_eq, h, Run.stage_error_bind, Run.say_bind, List.append_nil]

/-! ## Commands -/

/-- Every stage of the command does what it has to. -/
inductive Succeeds (files : Files) (freshSeed : UInt64) : Command → Prop
  | generate {g : Generation} {c : Circuit} : Generates files freshSeed g c →
      files.takes g.output → Succeeds files freshSeed (.generate g)
  | sizing {id : String} {data : Option String} {problem : Problem} {width : Nat} :
      GivesProblem files data problem → Sizing.forId id problem = .ok width → files.canPrint →
      Succeeds files freshSeed (.sizing id data)
  | algorithms : files.canPrint → Succeeds files freshSeed .algorithms
  | version : files.canPrint → Succeeds files freshSeed .version

/-- The first stage of the command that fails, with what is reported of it: the stages before it did what
they had to. -/
inductive FailsFirst (files : Files) (freshSeed : UInt64) : Command → Failure → Prop
  | data {g : Generation} {failure : Failure} : DataFault files g.data failure →
      FailsFirst files freshSeed (.generate g) failure
  | config {g : Generation} {problem : Problem} {failure : Failure} :
      GivesProblem files g.data problem → ConfigFault files g.config failure →
      FailsFirst files freshSeed (.generate g) failure
  | generation {g : Generation} {problem : Problem} {settings : Settings} {error : GenerationError} :
      GivesProblem files g.data problem → GivesSettings files g.config settings →
      answer freshSeed g problem settings = .error error →
      FailsFirst files freshSeed (.generate g) (.generation error)
  | output {g : Generation} {c : Circuit} {path : String} : Generates files freshSeed g c →
      g.output = some path → files.canWrite path = false →
      FailsFirst files freshSeed (.generate g) (.outputUnwritable path)
  | sizingData {id : String} {data : Option String} {failure : Failure} :
      DataFault files data failure → FailsFirst files freshSeed (.sizing id data) failure
  | sizing {id : String} {data : Option String} {problem : Problem} {fault : InputFault} :
      GivesProblem files data problem → Sizing.forId id problem = .error fault →
      FailsFirst files freshSeed (.sizing id data) (.generation (.invalidInput fault))

theorem GivesProblem.unique {data : Option String} {problem other : Problem}
    (h : GivesProblem files data problem) (h' : GivesProblem files data other) : problem = other := by
  have heq := problemOf_of_gives h
  rw [problemOf_of_gives h'] at heq
  exact (Except.ok.inj heq).symm

theorem GivesSettings.unique {config : Option String} {settings other : Settings}
    (h : GivesSettings files config settings) (h' : GivesSettings files config other) :
    settings = other := by
  have heq := settingsOf_of_gives h
  rw [settingsOf_of_gives h'] at heq
  exact (Except.ok.inj heq).symm

theorem DataFault.not_gives {data : Option String} {failure : Failure}
    (h : DataFault files data failure) (problem : Problem) : ¬ GivesProblem files data problem := by
  intro hgives
  have heq := problemOf_of_fault h
  rw [problemOf_of_gives hgives] at heq
  cases heq

theorem ConfigFault.not_gives {config : Option String} {failure : Failure}
    (h : ConfigFault files config failure) (settings : Settings) :
    ¬ GivesSettings files config settings := by
  intro hgives
  have heq := settingsOf_of_fault h
  rw [settingsOf_of_gives hgives] at heq
  cases heq

/-- A command of which a stage fails does not succeed. -/
theorem FailsFirst.not_succeeds {command : Command} {failure : Failure}
    (h : FailsFirst files freshSeed command failure) : ¬ Succeeds files freshSeed command := by
  intro hsucceeds
  cases hsucceeds with
  | generate hgenerates hplace =>
      obtain ⟨hproblem, hsettings, hanswer⟩ := hgenerates
      -- what is given is unique, so a stage that goes through is not one that fails
      cases h with
      | data hfault => exact hfault.not_gives _ hproblem
      | config _ hfault => exact hfault.not_gives _ hsettings
      | generation hproblem' hsettings' herror =>
          rw [hproblem'.unique hproblem, hsettings'.unique hsettings, hanswer] at herror
          cases herror
      | output _ hpath hnot =>
          rw [hpath, Files.takes, hnot] at hplace
          cases hplace
  | sizing hproblem hwidth _ =>
      cases h with
      | sizingData hfault => exact hfault.not_gives _ hproblem
      | sizing hproblem' hfault =>
          rw [hproblem'.unique hproblem, hwidth] at hfault
          cases hfault
  | algorithms _ => cases h
  | version _ => cases h

/-! ## Runs -/

/-- A generation has what it asks for and comes to the document of its circuit, or fails at its first stage
that does. -/
theorem documentOf_cases (files : Files) (freshSeed : UInt64) (g : Generation) :
    (∃ c text, Generates files freshSeed g c ∧ document g.format c = .ok text ∧
        documentOf files freshSeed g = .ok (c, text)) ∨
      ∃ failure, FailsFirst files freshSeed (.generate g) failure ∧
        documentOf files freshSeed g = .error failure := by
  -- the stages one after another, each with those before it behind it
  rcases problem_cases files g.data with ⟨problem, hproblem⟩ | ⟨failure, hfault⟩
  · have hgiven := problemOf_of_gives hproblem
    rcases settings_cases files g.config with ⟨settings, hsettings⟩ | ⟨failure, hfault⟩
    · cases hanswer : answer freshSeed g problem settings with
      | ok c =>
          have hgenerates : Generates files freshSeed g c := ⟨hproblem, hsettings, hanswer⟩
          obtain ⟨text, htext, hdocument⟩ := documentOf_of_generates hgenerates
          exact Or.inl ⟨c, text, hgenerates, htext, hdocument⟩
      | error error =>
          refine Or.inr ⟨_, .generation hproblem hsettings hanswer, ?_⟩
          simp [documentOf, hgiven, settingsOf_of_gives hsettings, hanswer, bind, Except.bind,
            Except.mapError]
    · refine Or.inr ⟨failure, .config hproblem hfault, ?_⟩
      simp [documentOf, hgiven, settingsOf_of_fault hfault, bind, Except.bind]
  · refine Or.inr ⟨failure, .data hfault, ?_⟩
    simp [documentOf, problemOf_of_fault hfault, bind, Except.bind]

/-! ## Deliveries -/

/-- What is done to deliver the document of a circuit. -/
def delivery (c : Circuit) (text : String) : Option String → List Effect
  | none => if text.toList.getLast? = some '\n' then [.print text] else [.print text, .print "\n"]
  | some path => [.write path text, .note (confirmation c path)]

/-- A document whose place takes it is delivered. -/
theorem deliver_of_takes {output : Option String} (h : files.takes output) (c : Circuit) (text : String) :
    deliver files output c text = ⟨delivery c text output, .ok ()⟩ := by
  cases output with
  | none =>
      rw [deliver, Run.print_of_canPrint h, Run.print_of_canPrint h, delivery]
      split <;> rfl
  | some path =>
      rw [deliver, Run.write_of_canWrite h]
      rfl

theorem deliver_of_not_canPrint (h : files.canPrint = false) (c : Circuit) (text : String) :
    deliver files none c text = ⟨[], .error .brokenOutput⟩ := by
  rw [deliver, Run.print_of_not_canPrint h]
  rfl

theorem deliver_of_not_canWrite {path : String} (h : files.canWrite path = false) (c : Circuit)
    (text : String) :
    deliver files (some path) c text = ⟨[], .error (.failure (.outputUnwritable path))⟩ := by
  rw [deliver, Run.write_of_not_canWrite h]
  rfl

/-- A generation that has what it asks for, and a place for its document, goes through. -/
theorem code_of_generates (h : Generates files freshSeed g c) (hplace : files.takes g.output)
    (verbosity : Nat) : (Invocation.run files freshSeed ⟨verbosity, .generate g⟩).code = 0 := by
  obtain ⟨text, -, hdocument⟩ := documentOf_of_generates h
  rw [Invocation.run, Command.run, runGeneration_of_document hdocument, deliver_of_takes hplace]
  rfl

/-! ## Ends -/

/-- What comes of a command: it succeeds with code zero, or it has said some lines when its first stage that
fails does, or when it cannot print what it has come to. -/
inductive Ends (files : Files) (freshSeed : UInt64) (command : Command) (run : Run Unit) : Prop
  | succeeded : Succeeds files freshSeed command → run.outcome.code = 0 → Ends files freshSeed command run
  | failed {failure : Failure} (lines : List String) : FailsFirst files freshSeed command failure →
      run = ⟨lines.map .note, .error (.failure failure)⟩ → Ends files freshSeed command run
  | broken (lines : List String) : files.canPrint = false → ¬ Succeeds files freshSeed command →
      run = ⟨lines.map .note, .error .brokenOutput⟩ → Ends files freshSeed command run

/-- A generation goes through, or fails at its first stage that does, or cannot print its document. -/
theorem runGeneration_ends (files : Files) (freshSeed : UInt64) (verbosity : Nat) (g : Generation) :
    Ends files freshSeed (.generate g) (runGeneration files freshSeed verbosity g) := by
  rcases documentOf_cases files freshSeed g with
    ⟨c, text, hgenerates, -, hdocument⟩ | ⟨failure, hfails, hdocument⟩
  · have hrun := runGeneration_of_document hdocument verbosity
    cases hplace : files.takes g.output with
    | true =>
        exact .succeeded (.generate hgenerates hplace) (code_of_generates hgenerates hplace verbosity)
    | false =>
        -- the circuit is there, but a file fails the last stage and a broken output stops the run
        cases houtput : g.output with
        | some path =>
            rw [houtput] at hplace
            rw [houtput, deliver_of_not_canWrite hplace, List.append_nil] at hrun
            exact .failed _ (.output hgenerates houtput hplace) hrun
        | none =>
            have hnot : ¬ Succeeds files freshSeed (.generate g) := by
              rintro ⟨-, htakes⟩
              rw [hplace] at htakes
              cases htakes
            rw [houtput] at hplace
            rw [houtput, deliver_of_not_canPrint hplace, List.append_nil] at hrun
            exact .broken _ hplace hnot hrun
  · exact .failed _ hfails (runGeneration_of_failure hdocument verbosity)

/-- A command that comes to a text prints it, or breaks off. -/
theorem print_ends {command : Command} (h : Succeeds files freshSeed command ↔ files.canPrint = true)
    (text : String) : Ends files freshSeed command (Run.print files text) := by
  cases hprint : files.canPrint with
  | true => exact .succeeded (h.mpr hprint) (by rw [Run.print_of_canPrint hprint]; rfl)
  | false =>
      refine .broken [] hprint (fun hsucceeds => ?_) (Run.print_of_not_canPrint hprint text)
      rw [h.mp hsucceeds] at hprint
      cases hprint

/-- A sizing command goes through, or fails at its first stage that does, or cannot print its width. -/
theorem runSizing_ends (files : Files) (freshSeed : UInt64) (id : String) (data : Option String) :
    Ends files freshSeed (.sizing id data) (runSizing files id data) := by
  rcases problem_cases files data with ⟨problem, hproblem⟩ | ⟨failure, hfault⟩
  · have hgiven := problemOf_of_gives hproblem
    cases hwidth : Sizing.forId id problem with
    | ok width =>
        rw [runSizing, hgiven, Run.stage_ok_bind, hwidth, Except.mapError, Run.stage_ok_bind]
        apply print_ends
        refine ⟨fun hsucceeds => ?_, .sizing hproblem hwidth⟩
        cases hsucceeds with
        | sizing _ _ hprint => exact hprint
    | error fault =>
        refine .failed [] (.sizing hproblem hwidth) ?_
        rw [runSizing, hgiven, Run.stage_ok_bind, hwidth, Except.mapError, Run.stage_error_bind]
        rfl
  · refine .failed [] (.sizingData hfault) ?_
    rw [runSizing, problemOf_of_fault hfault, Run.stage_error_bind]
    rfl

/-- There is no other end for a command. -/
theorem run_cases (files : Files) (freshSeed : UInt64) (verbosity : Nat) (command : Command) :
    Ends files freshSeed command (command.run files freshSeed verbosity) := by
  cases command with
  | generate g => exact runGeneration_ends files freshSeed verbosity g
  | sizing id data => exact runSizing_ends files freshSeed id data
  | algorithms =>
      refine print_ends ⟨fun hsucceeds => ?_, .algorithms⟩ _
      cases hsucceeds with
      | algorithms hprint => exact hprint
  | version =>
      refine print_ends ⟨fun hsucceeds => ?_, .version⟩ _
      cases hsucceeds with
      | version hprint => exact hprint

/-- The outcome of a failure: code one, nothing on standard output, no file, and the failure in the last
line on standard error. Whatever else was done before was saying lines. -/
structure Outcome.Reports (outcome : Outcome) (failure : Failure) : Prop where
  code : outcome.code = 1
  stdout : outcome.stdout = ""
  written : outcome.written = []
  stderr : outcome.stderr.getLast? = some ("Error: " ++ failure.message)
  effects : ∀ effect ∈ outcome.effects, ∃ line, effect = .note line

/-- A run that has said some lines when it fails reports the failure. -/
theorem Outcome.reports_of_notes (lines : List String) (failure : Failure) :
    (Run.outcome ⟨lines.map .note, .error (.failure failure)⟩).Reports failure where
  code := rfl
  stdout := stdout_notes lines _ 1
  written := written_notes lines _ 1
  stderr := by
    rw [Run.outcome, stderr_notes]
    exact List.getLast?_concat
  effects := by
    intro effect heffect
    rcases List.mem_append.mp heffect with hsaid | hlast
    · obtain ⟨line, -, rfl⟩ := List.mem_map.mp hsaid
      exact ⟨line, rfl⟩
    · exact ⟨_, List.mem_singleton.mp hlast⟩

/-- Whatever stops a command, nothing has been printed or written by then. -/
theorem Ends.nothing_delivered {command : Command} {run : Run Unit}
    (h : Ends files freshSeed command run) (hcode : run.outcome.code ≠ 0) :
    run.outcome.stdout = "" ∧ run.outcome.written = [] := by
  cases h with
  | succeeded _ hzero => exact absurd hzero hcode
  | failed lines _ hrun =>
      rw [hrun]
      exact ⟨Outcome.stdout_notes lines _ 1, Outcome.written_notes lines _ 1⟩
  | broken lines _ _ hrun =>
      have hstdout := Outcome.stdout_notes lines [] 101
      have hwritten := Outcome.written_notes lines [] 101
      rw [List.append_nil] at hstdout hwritten
      rw [hrun]
      exact ⟨hstdout, hwritten⟩

/-- Whatever arguments make a command, and whatever files it finds: the run ends with code zero exactly
when every stage of the command does what it has to. If it does not, nothing is printed on standard output
and no file is written; and then, as long as standard output takes what is printed, the code is one and the
last line on standard error reports the first stage that fails. -/
theorem run_ends (seedVariable : Option String) (arguments : List String) {invocation : Invocation}
    (h : demandOf seedVariable arguments = .command invocation) (files : Files) (freshSeed : UInt64) :
    (((demandOf seedVariable arguments).run files freshSeed).code = 0 ↔
        Succeeds files freshSeed invocation.command) ∧
      (((demandOf seedVariable arguments).run files freshSeed).code ≠ 0 →
        ((demandOf seedVariable arguments).run files freshSeed).stdout = "" ∧
        ((demandOf seedVariable arguments).run files freshSeed).written = [] ∧
        (files.canPrint →
          ∃ failure, FailsFirst files freshSeed invocation.command failure ∧
            ((demandOf seedVariable arguments).run files freshSeed).Reports failure)) := by
  rw [h, Demand.run, Invocation.run]
  have hends := run_cases files freshSeed invocation.verbosity invocation.command
  refine ⟨?_, fun hcode => ?_⟩
  · cases hends with
    | succeeded hsucceeds hzero => exact ⟨fun _ => hsucceeds, fun _ => hzero⟩
    | failed lines hfails hrun =>
        rw [hrun]
        -- a stage that fails rules success out, and the code of its report is one
        refine ⟨fun hzero => ?_, fun hsucceeds => absurd hsucceeds hfails.not_succeeds⟩
        cases hzero
    | broken lines _ hnot hrun =>
        rw [hrun]
        refine ⟨fun hzero => ?_, fun hsucceeds => absurd hsucceeds hnot⟩
        cases hzero
  · obtain ⟨hstdout, hwritten⟩ := hends.nothing_delivered hcode
    refine ⟨hstdout, hwritten, fun hprint => ?_⟩
    cases hends with
    | succeeded _ hzero => exact absurd hzero hcode
    | failed lines hfails hrun =>
        rw [hrun]
        exact ⟨_, hfails, Outcome.reports_of_notes lines _⟩
    | broken lines hbroken _ _ =>
        rw [hbroken] at hprint
        cases hprint

/-- Control: with a brace for problem data, and no file where the settings should be, the data are
reported. -/
theorem run_ends_both_wrong :
    demandOf none ["generate", "vqe", "--data", "\x7b", "--config", "gone"] =
        .command ⟨0, .generate ⟨"vqe", some "\x7b", none, .qasm, none, some "gone"⟩⟩ ∧
      ∃ failure, FailsFirst ⟨fun _ => .missing, fun _ => true, true⟩ 7
          (.generate ⟨"vqe", some "\x7b", none, .qasm, none, some "gone"⟩) failure ∧
        ((demandOf none ["generate", "vqe", "--data", "\x7b", "--config", "gone"]).run
          ⟨fun _ => .missing, fun _ => true, true⟩ 7).Reports failure ∧
        failure = .generation (.invalidInput .malformed) := by
  have h : demandOf none ["generate", "vqe", "--data", "\x7b", "--config", "gone"] =
      .command ⟨0, .generate ⟨"vqe", some "\x7b", none, .qasm, none, some "gone"⟩⟩ := by decide +kernel
  have hfault : DataFault ⟨fun _ => .missing, fun _ => true, true⟩ (some "\x7b")
      (.generation (.invalidInput .malformed)) :=
    .malformed (.inline fun path hpath => by cases hpath) (by decide +kernel)
  obtain ⟨-, hfails⟩ := run_ends none _ h ⟨fun _ => .missing, fun _ => true, true⟩ 7
  obtain ⟨-, -, hreported⟩ := hfails (by rw [h]; decide +kernel)
  obtain ⟨failure, hfirst, hreports⟩ := hreported rfl
  refine ⟨h, failure, hfirst, hreports, ?_⟩
  cases hfirst with
  | data hdata =>
      have heq := problemOf_of_fault hdata
      rw [problemOf_of_fault hfault] at heq
      exact (Except.error.inj heq).symm
  | config hproblem _ => exact absurd hproblem (hfault.not_gives _)
  | generation hproblem _ _ => exact absurd hproblem (hfault.not_gives _)
  | output hgenerates _ _ =>
      obtain ⟨hproblem, -, -⟩ := hgenerates
      exact absurd hproblem (hfault.not_gives _)

end QCircuit.CommandLine
