import QCircuit.Proofs.CommandLine.Arguments

/-!
# Flags and outputs in a row of arguments

A flag for more verbosity may be put in anywhere, and so may an output (`CommandLine.Extends`). A row of
arguments for a generation that is still in order then asks for the same generation, with the output that
was put in (`CommandLine.demandOf_extends`).

The machine that reads the arguments goes through both rows side by side. It does the same at the arguments
of both rows and collects the same from them (`CommandLine.Alike`). Only behind the end of the options the
second row has words more, and then it has too many.
-/

set_option autoImplicit false

namespace QCircuit.CommandLine

/-- The second row is the first one with flags put in, and perhaps an output. -/
inductive Extends : List String → List String → Option String → Prop
  | nil : Extends [] [] none
  | keep (argument : String) {row row' : List String} {added : Option String} :
      Extends row row' added → Extends (argument :: row) (argument :: row') added
  | flag {argument : String} {row row' : List String} {added : Option String} : IsFlag argument →
      Extends row row' added → Extends row (argument :: row') added
  | output {arguments row row' : List String} {path : String} : NamesOutput arguments path →
      Extends row row' none → Extends row (arguments ++ row') (some path)

/-! ## Two runs side by side -/

/-- The same is collected, verbosity aside, but for an output that one of the two has more. -/
structure Alike (added : Option String) (c c' : Collected) : Prop where
  mode : c'.mode = c.mode
  words : c'.words = c.words
  value? : ∀ parameter, c'.value? parameter =
    (c.value? parameter).or (if parameter = .output then added else none)

/-- The same is collected, or behind the end of the options the second has words more. -/
inductive Follows (added : Option String) (c c' : Collected) : Prop
  | alike : Alike added c c' → Follows added c c'
  | longer : c.mode = .ended → c'.mode = .ended → c.words.length < c'.words.length →
      Follows added c c'

namespace Alike

open Collected

variable {verb : Verb} {added : Option String} {c c' d d' : Collected}

theorem raised (h : Alike added c c') (count count' : Nat) :
    Alike added (c.raised count) (c'.raised count') := ⟨h.mode, h.words, h.value?⟩

theorem give {parameter : Parameter} {value : String} (h : Alike added c c')
    (hc : c.give? parameter value = some d) (hc' : c'.give? parameter value = some d') :
    Alike added d d' := by
  obtain ⟨hnone, rfl⟩ := give?_eq_some_iff.mp hc
  obtain ⟨hnone', rfl⟩ := give?_eq_some_iff.mp hc'
  refine ⟨rfl, h.words, fun other => ?_⟩
  rw [value?_concat, value?_concat, h.value?]
  by_cases hother : other = parameter
  · -- the option is new in both rows, so it is not an output that was put in
    subst hother
    rw [h.value?, hnone, Option.none_or] at hnone'
    simp [hnone, hnone']
  · simp [hother]

/-- An action keeps two runs alike, if neither refuses. -/
theorem on {action : Action} (h : Alike added c c') (hc : action.on c = some d)
    (hc' : action.on c' = some d') : Alike added d d' := by
  cases action with
  | refuse => cases hc
  | give parameter value => exact h.give hc hc'
  | stay =>
      cases hc
      cases hc'
      exact h
  | await parameter =>
      cases hc
      cases hc'
      exact ⟨rfl, h.words, h.value?⟩
  | word argument =>
      cases hc
      cases hc'
      exact ⟨h.mode, by rw [addWord, addWord, h.words], h.value?⟩
  | finish =>
      cases hc
      cases hc'
      exact ⟨rfl, h.words, h.value?⟩

/-- So does an argument of both rows. -/
theorem step {argument : String} (h : Alike added c c') (hc : c.step? verb argument = some d)
    (hc' : c'.step? verb argument = some d') : Alike added d d' := by
  obtain ⟨count, action, haction⟩ := exists_action verb c.mode argument
  rw [haction c rfl] at hc
  rw [haction c' h.mode] at hc'
  exact (h.raised count count).on hc hc'

end Alike

namespace Follows

open Collected

variable {verb : Verb} {added : Option String} {c c' d d' : Collected}

/-- An argument of both rows keeps the second run behind the first. -/
theorem step {argument : String} (h : Follows added c c') (hc : c.step? verb argument = some d)
    (hc' : c'.step? verb argument = some d') : Follows added d d' := by
  cases h with
  | alike h => exact .alike (h.step hc hc')
  | longer hmode hmode' hlt =>
      rw [step?_ended hmode] at hc
      rw [step?_ended hmode'] at hc'
      cases hc
      cases hc'
      refine .longer hmode hmode' ?_
      simpa [addWord] using hlt

/-- Arguments of the second row alone are words too many behind the end of the options. -/
theorem ended {arguments : List String} (h : Follows added c c') (hmode : c'.mode = .ended)
    (hne : arguments ≠ []) (hd' : arguments.foldlM (step? verb) c' = some d') (added' : Option String) :
    Follows added' c d' := by
  have hpos := List.length_pos_iff.mpr hne
  rw [foldlM_ended hmode] at hd'
  cases hd'
  cases h with
  | alike h =>
      refine .longer (h.mode ▸ hmode) hmode ?_
      rw [h.words, List.length_append]
      omega
  | longer hended hended' hlt =>
      refine .longer hended hended' ?_
      rw [List.length_append]
      omega

theorem flag {argument : String} (hflag : IsFlag argument) (h : Follows added c c')
    (hc' : c'.step? verb argument = some d') : Follows added c d' := by
  cases hmode : c'.mode with
  | ready =>
      obtain ⟨count, hcount⟩ : ∃ count, c'.step? verb argument = some (c'.raised count) :=
        step?_flag hflag hmode
      rw [hcount] at hc'
      cases hc'
      cases h with
      | alike h => exact .alike ⟨h.mode, h.words, h.value?⟩
      | longer hended hended' hlt => exact .longer hended hended' hlt
  | awaiting parameter =>
      rw [step?_awaiting hmode (shapeOf_flag_ne_word hflag)] at hc'
      cases hc'
  | ended =>
      have hfold : [argument].foldlM (step? verb) c' = some d' := by simpa using hc'
      exact h.ended hmode (List.cons_ne_nil _ _) hfold added

theorem output {arguments : List String} {path : String} (houtput : NamesOutput arguments path)
    (h : Follows none c c') (hd' : arguments.foldlM (step? .generate) c' = some d') :
    Follows (some path) c d' := by
  obtain ⟨first, rest, hfirst, hshape⟩ := exists_cons_of_output houtput
  cases hmode : c'.mode with
  | ready =>
      -- no output was given before, so the new one is the only one
      obtain ⟨hnone, rfl⟩ := give?_eq_some_iff.mp (give?_of_output houtput hmode hd')
      cases h with
      | alike h =>
          refine .alike ⟨hmode ▸ h.mode, h.words, fun parameter => ?_⟩
          rw [value?_concat, h.value?]
          simp
      | longer hended hended' hlt =>
          rw [hmode] at hended'
          cases hended'
  | awaiting parameter =>
      -- an option cannot stand where a value is awaited
      rw [hfirst, List.foldlM_cons, step?_awaiting hmode hshape] at hd'
      cases hd'
  | ended => exact h.ended hmode (by simp [hfirst]) hd' (some path)

/-- The second run stays behind the first over all arguments. -/
theorem run {row row' : List String} {added' : Option String} (hrow : Extends row row' added')
    (h : Follows added c c') (hone : added = none ∨ added' = none)
    (hd : row.foldlM (step? .generate) c = some d) (hd' : row'.foldlM (step? .generate) c' = some d') :
    Follows (added.or added') d d' := by
  -- on how the second row comes of the first; what was put in so far goes along
  induction hrow generalizing c c' added with
  | nil =>
      cases hd
      cases hd'
      rwa [Option.or_none]
  | keep argument _ ih =>
      rw [List.foldlM_cons, Option.bind_eq_bind, Option.bind_eq_some_iff] at hd hd'
      obtain ⟨e, he, hd⟩ := hd
      obtain ⟨e', he', hd'⟩ := hd'
      exact ih (h.step he he') hone hd hd'
  | flag hflag _ ih =>
      rw [List.foldlM_cons, Option.bind_eq_bind, Option.bind_eq_some_iff] at hd'
      obtain ⟨e', he', hd'⟩ := hd'
      exact ih (h.flag hflag he') hone hd hd'
  | output houtput _ ih =>
      rw [List.foldlM_append, Option.bind_eq_bind, Option.bind_eq_some_iff] at hd'
      obtain ⟨e', he', hd'⟩ := hd'
      -- an output is put in once at most
      obtain rfl : added = none := hone.resolve_right (by simp)
      exact ih (h.output houtput he') (Or.inr rfl) hd hd'

end Follows

/-! ## The demands -/

variable {seedVariable : Option String} {g g' : Generation}

theorem generation?_eq_some_iff {c : Collected} :
    generation? seedVariable c = some g ↔ ∃ id seed format, c.words = [id] ∧
      optional? seed? ((c.value? .seed).or seedVariable) = some seed ∧
      optional? Format.ofName? (c.value? .format) = some format ∧
      ⟨id, c.value? .data, seed, format.getD .qasm, c.value? .output, c.value? .config⟩ = g := by
  unfold generation?
  split
  · next id hwords => simp [hwords, Option.bind_eq_some_iff]
  · next hwords =>
      refine iff_of_false (by simp) ?_
      rintro ⟨id, _, _, hid, -⟩
      exact hwords id hid

theorem Alike.generation_eq {added : Option String} {c c' : Collected} (h : Alike added c c')
    (hg : generation? seedVariable c = some g) (hg' : generation? seedVariable c' = some g') :
    g' = { g with output := g.output.or added } := by
  obtain ⟨id, seed, format, hid, hseed, hformat, rfl⟩ := generation?_eq_some_iff.mp hg
  obtain ⟨id', seed', format', hid', hseed', hformat', rfl⟩ := generation?_eq_some_iff.mp hg'
  rw [h.words, hid] at hid'
  simp only [h.value?, reduceCtorEq, if_false, if_true, Option.or_none] at hseed' hformat' ⊢
  rw [hseed] at hseed'
  rw [hformat] at hformat'
  cases hid'
  cases hseed'
  cases hformat'
  rfl

theorem foldlM_of_ofArguments? {verb : Verb} {row : List String} {c : Collected}
    (h : Collected.ofArguments? verb row = some c) :
    row.foldlM (Collected.step? verb) .start = some c := by
  obtain ⟨c', hc', hmode⟩ := Option.bind_eq_some_iff.mp h
  cases hm : c'.mode <;> simp_all

theorem generation?_of_command? {verb : Verb} {c : Collected}
    (h : command? seedVariable verb c = some (.generate g)) :
    verb = .generate ∧ generation? seedVariable c = some g := by
  unfold command? at h
  split at h <;> simp_all

theorem exists_of_commandDemand {verbosity : Nat} {name : String} {row : List String}
    {invocation : Invocation}
    (h : commandDemand seedVariable verbosity name row = .command invocation) :
    ∃ verb c, Verb.ofName? name = some verb ∧ Collected.ofArguments? verb row = some c ∧
      command? seedVariable verb c = some invocation.command := by
  simp only [commandDemand, Option.bind_eq_bind] at h
  split at h
  · next hinvocation =>
      cases h
      simp only [Option.bind_eq_some_iff, Option.some.injEq] at hinvocation
      obtain ⟨verb, hverb, c, hc, command, hcommand, rfl⟩ := hinvocation
      exact ⟨verb, c, hverb, hc, hcommand⟩
  · cases h

theorem commandDemand_extends {row row' : List String} {added : Option String}
    (hrow : Extends row row' added) {verbosity verbosity' shown shown' : Nat} {name : String}
    {command : Command}
    (h : commandDemand seedVariable verbosity name row = .command ⟨shown, .generate g⟩)
    (h' : commandDemand seedVariable verbosity' name row' = .command ⟨shown', command⟩) :
    command = .generate { g with output := g.output.or added } := by
  obtain ⟨verb, c, hverb, hc, hcommand⟩ := exists_of_commandDemand h
  obtain ⟨verb', c', hverb', hc', hcommand'⟩ := exists_of_commandDemand h'
  obtain ⟨rfl, hg⟩ := generation?_of_command? hcommand
  rw [hverb] at hverb'
  cases hverb'
  obtain ⟨g', hg', rfl⟩ := Option.map_eq_some_iff.mp hcommand'
  have hfollows := Follows.run hrow (.alike ⟨rfl, rfl, by simp⟩) (Or.inl rfl)
    (foldlM_of_ofArguments? hc) (foldlM_of_ofArguments? hc')
  cases hfollows with
  | alike h => rw [h.generation_eq hg hg', Option.none_or]
  | longer _ _ hlt =>
      -- either row has one word, the identifier
      obtain ⟨_, _, _, hwords, -⟩ := generation?_eq_some_iff.mp hg
      obtain ⟨_, _, _, hwords', -⟩ := generation?_eq_some_iff.mp hg'
      rw [hwords, hwords'] at hlt
      exact absurd hlt (Nat.lt_irrefl _)

theorem leadingCluster_flags (verbosity count : Nat) :
    leadingCluster verbosity (List.replicate count verboseLetter) = .ok (verbosity + count) := by
  induction count generalizing verbosity with
  | zero => rfl
  | succ count ih =>
      rw [List.replicate_succ, leadingCluster, if_pos rfl, ih, Nat.add_right_comm, Nat.add_assoc]

/-- A cluster before the command is flags alone, or it asks for something else, whatever came before. -/
theorem leadingCluster_cases (letters : List Char) :
    (∀ verbosity, ∃ more, leadingCluster verbosity letters = .ok more) ∨
      ∃ demand, (∀ verbosity, leadingCluster verbosity letters = .error demand) ∧
        ∀ invocation, demand ≠ .command invocation := by
  induction letters with
  | nil => exact Or.inl fun verbosity => ⟨verbosity, rfl⟩
  | cons letter rest ih =>
      by_cases hletter : letter = verboseLetter
      · simp only [leadingCluster, if_pos hletter]
        rcases ih with hok | ⟨demand, herror, hne⟩
        · exact Or.inl fun verbosity => hok (verbosity + 1)
        · exact Or.inr ⟨demand, fun verbosity => herror (verbosity + 1), hne⟩
      · simp only [leadingCluster, if_neg hletter]
        split
        · exact Or.inr ⟨_, fun _ => rfl, by simp⟩
        · exact Or.inr ⟨_, fun _ => rfl, by simp⟩

/-- An argument before the command is its name, or flags, or it asks for something else. -/
theorem demandFrom_cases (seedVariable : Option String) (argument : String) :
    (∀ verbosity rest, demandFrom seedVariable verbosity (argument :: rest) =
        commandDemand seedVariable verbosity argument rest) ∨
      (∀ verbosity, ∃ more, ∀ rest, demandFrom seedVariable verbosity (argument :: rest) =
        demandFrom seedVariable more rest) ∨
      ∀ verbosity rest invocation,
        demandFrom seedVariable verbosity (argument :: rest) ≠ .command invocation := by
  cases hshape : shapeOf argument with
  | word =>
      -- the name of the command
      left
      intro verbosity rest
      rw [demandFrom, hshape]
  | separator =>
      right; right
      intro verbosity rest invocation
      simp [demandFrom, hshape]
  | long name value =>
      cases value with
      | some value =>
          right; right
          intro verbosity rest invocation
          simp [demandFrom, hshape]
      | none =>
          by_cases hname : name = verboseName
          · right; left
            intro verbosity
            refine ⟨verbosity + 1, ?_⟩
            intro rest
            simp only [demandFrom, hshape, if_pos hname]
          · right; right
            intro verbosity rest invocation
            simp only [demandFrom, hshape, if_neg hname]
            split <;> simp
  | cluster letters =>
      rcases leadingCluster_cases letters with hok | ⟨demand, herror, hne⟩
      · right; left
        intro verbosity
        obtain ⟨more, hmore⟩ := hok verbosity
        refine ⟨more, ?_⟩
        intro rest
        simp only [demandFrom, hshape, hmore]
      · right; right
        intro verbosity rest invocation
        simpa only [demandFrom, hshape, herror] using hne invocation

/-- A flag before the command is passed over. -/
theorem exists_demandFrom_flag {argument : String} (h : IsFlag argument) (verbosity : Nat)
    (rest : List String) : ∃ more, demandFrom seedVariable verbosity (argument :: rest) =
      demandFrom seedVariable more rest := by
  rcases shapeOf_flag h with hshape | ⟨count, hshape⟩
  · exact ⟨verbosity + 1, by simp only [demandFrom, hshape, if_true]⟩
  · refine ⟨verbosity + count, ?_⟩
    simp only [demandFrom, hshape, leadingCluster_flags]

/-- Before the command there may be no output. -/
theorem demandFrom_output {arguments : List String} {path : String} (h : NamesOutput arguments path)
    (verbosity : Nat) (rest : List String) :
    demandFrom seedVariable verbosity (arguments ++ rest) = .unusable := by
  cases h with
  | long path => rfl
  | letter path => rfl
  | longAttached path =>
      rw [List.cons_append, demandFrom, shapeOf_longAttached]
  | letterAttached path =>
      rw [List.cons_append, demandFrom, shapeOf_letterAttached]
      rfl

theorem demandFrom_extends {row row' : List String} {added : Option String}
    (hrow : Extends row row' added) {verbosity verbosity' shown shown' : Nat} {command : Command}
    (h : demandFrom seedVariable verbosity row = .command ⟨shown, .generate g⟩)
    (h' : demandFrom seedVariable verbosity' row' = .command ⟨shown', command⟩) :
    command = .generate { g with output := g.output.or added } := by
  induction hrow generalizing verbosity verbosity' with
  | nil => cases h
  | keep argument hrest ih =>
      -- both rows begin with this argument, which does the same for both
      rcases demandFrom_cases seedVariable argument with hname | hflags | hother
      · rw [hname] at h h'
        exact commandDemand_extends hrest h h'
      · obtain ⟨more, hmore⟩ := hflags verbosity
        obtain ⟨more', hmore'⟩ := hflags verbosity'
        rw [hmore] at h
        rw [hmore'] at h'
        exact ih h h'
      · exact absurd h (hother _ _ _)
  | flag hflag _ ih =>
      obtain ⟨more, hmore⟩ := exists_demandFrom_flag hflag verbosity' _
      rw [hmore] at h'
      exact ih h h'
  | output houtput _ _ =>
      -- before the command is named there is no place to name
      rw [demandFrom_output houtput] at h'
      cases h'

/-- **A flag or an output more changes nothing else.** Where a row of arguments asks for a generation, and
so does the row with flags and perhaps an output put in, it asks for the same one, with the output that was
put in. -/
theorem demandOf_extends {row row' : List String} {added : Option String}
    (hrow : Extends row row' added) {verbosity verbosity' : Nat} {command : Command}
    (h : demandOf seedVariable row = .command ⟨verbosity, .generate g⟩)
    (h' : demandOf seedVariable row' = .command ⟨verbosity', command⟩) :
    command = .generate { g with output := g.output.or added } :=
  demandFrom_extends hrow h h'

example : demandOf none ["-vv", "generate", "bell", "--output=bell.json", "--seed", "7", "--verbose"] =
    .command ⟨1, .generate ⟨"bell", none, some 7, .qasm, some "bell.json", none⟩⟩ := by decide +kernel

end QCircuit.CommandLine
