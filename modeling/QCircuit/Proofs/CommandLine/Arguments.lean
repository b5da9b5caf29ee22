import QCircuit.CommandLine.Arguments

/-!
# What one argument does

What the machine that reads the arguments of a command does at one of them is settled by where it stands,
whatever it has collected before (`CommandLine.Collected.exists_action`). Before any argument it takes a flag
for more verbosity and an output for what they are (`CommandLine.Collected.step?_flag`,
`CommandLine.Collected.give?_of_output`), where the value of an option is due it takes neither, and behind
the end of the options it takes them for words.
-/

set_option autoImplicit false

namespace QCircuit.CommandLine

/-! ## Flags and outputs -/

/-- An argument that is a flag for more verbosity, or several in one. -/
inductive IsFlag : String → Prop
  | long : IsFlag "--verbose"
  | letters (more : Nat) : IsFlag (String.ofList ('-' :: 'v' :: List.replicate more 'v'))

/-- Arguments that name an output. -/
inductive NamesOutput : List String → String → Prop
  | long (path : String) : NamesOutput ["--output", path] path
  | longAttached (path : List Char) :
      NamesOutput [String.ofList ("--output=".toList ++ path)] (String.ofList path)
  | letter (path : String) : NamesOutput ["-o", path] path
  | letterAttached (path : List Char) :
      NamesOutput [String.ofList ('-' :: 'o' :: '=' :: path)] (String.ofList path)

theorem shapeOf_flag {argument : String} (h : IsFlag argument) :
    shapeOf argument = .long verboseName none ∨
      ∃ count, shapeOf argument = .cluster (List.replicate count verboseLetter) := by
  cases h with
  | long => exact Or.inl (by decide)
  | letters more => exact Or.inr ⟨more + 1, by rw [shapeOf, String.toList_ofList]; rfl⟩

theorem shapeOf_flag_ne_word {argument : String} (h : IsFlag argument) : shapeOf argument ≠ .word := by
  rcases shapeOf_flag h with hshape | ⟨count, hshape⟩ <;> simp [hshape]

theorem shapeOf_longAttached (path : List Char) :
    shapeOf (String.ofList ("--output=".toList ++ path)) =
      .long "output" (some (String.ofList path)) := by
  rw [shapeOf, String.toList_ofList]
  rfl

theorem shapeOf_letterAttached (path : List Char) :
    shapeOf (String.ofList ('-' :: 'o' :: '=' :: path)) = .cluster ('o' :: '=' :: path) := by
  rw [shapeOf, String.toList_ofList]
  rfl

/-- An output begins with its name, which is no word. -/
theorem exists_cons_of_output {arguments : List String} {path : String}
    (h : NamesOutput arguments path) :
    ∃ first rest, arguments = first :: rest ∧ shapeOf first ≠ .word := by
  cases h with
  | long => exact ⟨_, _, rfl, by decide⟩
  | letter => exact ⟨_, _, rfl, by decide⟩
  | longAttached path => exact ⟨_, _, rfl, by rw [shapeOf_longAttached]; simp⟩
  | letterAttached path => exact ⟨_, _, rfl, by rw [shapeOf_letterAttached]; simp⟩

/-! ## What one argument does -/

/-- What is done to what was collected. -/
inductive Action where
  | refuse
  | stay
  | await (parameter : Parameter)
  | give (parameter : Parameter) (value : String)
  | word (argument : String)
  | finish

/-- What is collected after an action. -/
def Action.on (c : Collected) : Action → Option Collected
  | .refuse => none
  | .stay => some c
  | .await parameter => some { c with mode := .awaiting parameter }
  | .give parameter value => c.give? parameter value
  | .word argument => some (c.addWord argument)
  | .finish => some { c with mode := .ended }

namespace Collected

variable {verb : Verb} {c d : Collected}

/-- So many flags for more verbosity. -/
def raised (c : Collected) (count : Nat) : Collected := { c with verbosity := c.verbosity + count }

theorem raised_louder (c : Collected) (count : Nat) : c.louder.raised count = c.raised (count + 1) := by
  rw [raised, raised, louder, Nat.add_right_comm, Nat.add_assoc]

/-- A long option does one thing, whatever was collected before. -/
theorem exists_action_long (verb : Verb) (name : String) (value : Option String) :
    ∃ (count : Nat) (action : Action), ∀ c : Collected,
      c.long? verb name value = action.on (c.raised count) := by
  by_cases hname : name = verboseName
  · cases value with
    | none =>
        refine ⟨1, .stay, ?_⟩
        intro c
        exact if_pos hname
    | some value =>
        refine ⟨0, .refuse, ?_⟩
        intro c
        exact if_pos hname
  · cases hfind : verb.parameters.find? fun parameter => parameter.name = name with
    | none =>
        refine ⟨0, .refuse, ?_⟩
        intro c
        simp [long?, hname, hfind, Action.on]
    | some parameter =>
        cases value with
        | none =>
            refine ⟨0, .await parameter, ?_⟩
            intro c
            simp [long?, hname, hfind, Action.on, raised]
        | some value =>
            refine ⟨0, .give parameter value, ?_⟩
            intro c
            simp [long?, hname, hfind, Action.on, raised]

theorem cluster?_verbose (letters : List Char) :
    c.cluster? verb (verboseLetter :: letters) = c.louder.cluster? verb letters := by
  simp [cluster?]

/-- So does a cluster of letters: behind its flags there is one option at most. -/
theorem exists_action_cluster (verb : Verb) (letters : List Char) :
    ∃ (count : Nat) (action : Action), ∀ c : Collected,
      c.cluster? verb letters = action.on (c.raised count) := by
  induction letters with
  | nil =>
      refine ⟨0, .stay, ?_⟩
      intro c
      rfl
  | cons letter rest ih =>
      by_cases hletter : letter = verboseLetter
      · obtain ⟨count, action, haction⟩ := ih
        refine ⟨count + 1, action, ?_⟩
        intro c
        rw [hletter, cluster?_verbose, haction, raised_louder]
      · cases hfind : verb.parameters.find? fun parameter => parameter.letter = letter with
        | none =>
            refine ⟨0, .refuse, ?_⟩
            intro c
            simp [cluster?, hletter, hfind, Action.on]
        | some parameter =>
            cases rest with
            | nil =>
                refine ⟨0, .await parameter, ?_⟩
                intro c
                simp [cluster?, hletter, hfind, Action.on, raised]
            | cons first more =>
                -- an equals sign between the letter and the value is no part of the value
                by_cases hfirst : first = '='
                · refine ⟨0, .give parameter (String.ofList more), ?_⟩
                  intro c
                  simp [cluster?, hletter, hfind, hfirst, Action.on, raised]
                · refine ⟨0, .give parameter (String.ofList (first :: more)), ?_⟩
                  intro c
                  simp [cluster?, hletter, hfind, hfirst, Action.on, raised]

/-- What is done at an argument is settled by where the machine stands. -/
theorem exists_action (verb : Verb) (mode : Mode) (argument : String) :
    ∃ (count : Nat) (action : Action), ∀ c : Collected, c.mode = mode →
      c.step? verb argument = action.on (c.raised count) := by
  cases mode with
  | ended =>
      -- past the separator every argument is a word
      refine ⟨0, .word argument, ?_⟩
      intro c hc
      rw [step?, hc]
      rfl
  | awaiting parameter =>
      cases hshape : shapeOf argument with
      | word =>
          refine ⟨0, .give parameter argument, ?_⟩
          intro c hc
          rw [step?, hc, hshape]
          rfl
      | _ =>
          -- an option where a value is awaited
          refine ⟨0, .refuse, ?_⟩
          intro c hc
          rw [step?, hc, hshape]
          rfl
  | ready =>
      cases hshape : shapeOf argument with
      | word =>
          refine ⟨0, .word argument, ?_⟩
          intro c hc
          rw [step?, hc, hshape]
          rfl
      | separator =>
          refine ⟨0, .finish, ?_⟩
          intro c hc
          rw [step?, hc, hshape]
          rfl
      | long name value =>
          obtain ⟨count, action, haction⟩ := exists_action_long verb name value
          refine ⟨count, action, ?_⟩
          intro c hc
          rw [step?, hc, hshape, ← haction]
      | cluster letters =>
          obtain ⟨count, action, haction⟩ := exists_action_cluster verb letters
          refine ⟨count, action, ?_⟩
          intro c hc
          rw [step?, hc, hshape, ← haction]

/-! ## Where the machine stands -/

/-- Behind the end of the options every argument is a word. -/
theorem step?_ended (h : c.mode = .ended) (argument : String) :
    c.step? verb argument = some (c.addWord argument) := by
  rw [step?, h]

theorem foldlM_ended (h : c.mode = .ended) (row : List String) :
    row.foldlM (step? verb) c = some { c with words := c.words ++ row } := by
  induction row generalizing c with
  | nil => simp
  | cons argument row ih =>
      rw [List.foldlM_cons, step?_ended h, Option.bind_eq_bind, Option.bind_some, ih (by exact h)]
      simp [addWord]

/-- An option without its value does not take one that is no word. -/
theorem step?_awaiting {parameter : Parameter} (h : c.mode = .awaiting parameter) {argument : String}
    (hshape : shapeOf argument ≠ .word) : c.step? verb argument = none := by
  rw [step?, h]
  split <;> simp_all

theorem cluster?_flags (count : Nat) :
    c.cluster? verb (List.replicate count verboseLetter) = some (c.raised count) := by
  induction count generalizing c with
  | zero => rfl
  | succ count ih => rw [List.replicate_succ, cluster?_verbose, ih, raised_louder]

/-- Before any argument a flag does no more than it says. -/
theorem step?_flag {argument : String} (h : IsFlag argument) (hmode : c.mode = .ready) :
    ∃ count, c.step? verb argument = some (c.raised count) := by
  rcases shapeOf_flag h with hshape | ⟨count, hshape⟩
  · refine ⟨1, ?_⟩
    rw [step?, hmode, hshape]
    rfl
  · refine ⟨count, ?_⟩
    rw [step?, hmode, hshape]
    exact cluster?_flags count

theorem give?_eq_some_iff {parameter : Parameter} {value : String} :
    c.give? parameter value = some d ↔ c.value? parameter = none ∧
      { c with mode := .ready, options := c.options ++ [(parameter, value)] } = d := by
  rw [give?]
  cases c.value? parameter <;> simp

theorem value?_concat (parameter other : Parameter) (value : String) (mode : Mode) :
    { c with mode := mode, options := c.options ++ [(parameter, value)] }.value? other =
      (c.value? other).or (if other = parameter then some value else none) := by
  rw [Collected.value?, Collected.value?, List.lookup_append]
  by_cases h : other = parameter
  · simp [h]
  · rw [if_neg h, List.lookup_cons, beq_false_of_ne h]
    rfl

/-- An option that waits for its value takes a word and nothing else. -/
theorem step?_await_eq_some {parameter : Parameter} {argument : String}
    (h : step? verb { c with mode := .awaiting parameter } argument = some d) :
    c.give? parameter argument = some d := by
  by_cases hshape : shapeOf argument = .word
  · rw [step?, hshape] at h
    exact h
  · rw [step?_awaiting rfl hshape] at h
    cases h

/-- Before any argument an output is taken for what it is. -/
theorem give?_of_output {arguments : List String} {path : String} (h : NamesOutput arguments path)
    (hmode : c.mode = .ready) (hd : arguments.foldlM (step? .generate) c = some d) :
    c.give? .output path = some d := by
  -- apart from its name, the value is awaited and given by the next argument
  have hnext : ∀ name path : String, shapeOf name = .long "output" none ∨ shapeOf name = .cluster ['o'] →
      [name, path].foldlM (step? .generate) c = some d → c.give? .output path = some d := by
    intro name path hshape hd
    have hname : c.step? .generate name = some { c with mode := .awaiting .output } := by
      rcases hshape with hshape | hshape <;>
        · rw [step?, hmode, hshape]
          rfl
    simp only [List.foldlM_cons, List.foldlM_nil, bind_pure] at hd
    rw [hname] at hd
    exact step?_await_eq_some hd
  cases h with
  | long path => exact hnext _ path (Or.inl (by decide)) hd
  | letter path => exact hnext _ path (Or.inr (by decide)) hd
  | longAttached path =>
      simp only [List.foldlM_cons, List.foldlM_nil, bind_pure] at hd
      rw [step?, hmode, shapeOf_longAttached] at hd
      exact hd
  | letterAttached path =>
      simp only [List.foldlM_cons, List.foldlM_nil, bind_pure] at hd
      rw [step?, hmode, shapeOf_letterAttached] at hd
      exact hd

end Collected

end QCircuit.CommandLine
