import QCircuit.Circuit.Builder
import QCircuit.Proofs.Gate.Acceptable

/-!
# What a run of edits builds

Every edit that appends anything appends one gate, and what that gate is depends on the edit and the
width alone (`Edit.attempt?`). One edit has three outcomes (`Builder.apply_cases`): a metadata key is
set, an acceptable gate is appended, or a gate that breaks a rule is refused. A whole run keeps the
name and the width, and its gates are the acceptable attempts in their order (`Builder.gates_run`).

A circuit that some run finishes (`Circuit.Finished`) therefore has a qubit and holds acceptable gates
only. A row of acceptable gates is built without a refusal (`Circuit.build_of_acceptable`), no other row
is (`Circuit.eq_of_build`), and what is built is finished (`Circuit.finished_of_build`).
-/

set_option autoImplicit false

namespace QCircuit

/-- The gate that an edit tries to append. -/
def Edit.attempt? (width : Nat) : Edit → Option Gate
  | .push gate => some gate
  | .h q => some (.fixed .h [q])
  | .x q => some (.fixed .x [q])
  | .y q => some (.fixed .y [q])
  | .z q => some (.fixed .z [q])
  | .rx angle q => some (.rotation .x angle [q])
  | .ry angle q => some (.rotation .y angle [q])
  | .rz angle q => some (.rotation .z angle [q])
  | .cx control target => some (.cx control target)
  | .cp theta control target => some (.cp theta control target)
  | .swap p q => some (.swap p q)
  | .custom name qubits params => some (.custom name qubits params)
  | .measure targets => some (.measure targets)
  | .measureAll => some (.measure (List.range width))
  | .describe _ _ => none

/-- The metadata key that an edit sets, and its value. -/
def Edit.entry? : Edit → Option (String × Json String)
  | .describe key value => some (key, value)
  | _ => none

namespace Builder

/-! ## One edit -/

theorem push_of_acceptable {b : Builder} {g : Gate} (h : g.Acceptable b.width) :
    b.push g = (.ok (), { b with gates := b.gates.push g }) := by
  rw [push, Gate.faultIn?_eq_none_iff.mpr h]

/-- A refused gate breaks the rule that is reported, and the builder is as it was. -/
theorem push_of_not_acceptable {b : Builder} {g : Gate} (h : ¬ g.Acceptable b.width) :
    ∃ fault, Gate.Breaks b.width g fault ∧ b.push g = (.error (.invalidGate g.name fault), b) := by
  cases hf : g.faultIn? b.width with
  | none => exact absurd (Gate.faultIn?_eq_none_iff.mp hf) h
  | some fault => exact ⟨fault, Gate.breaks_of_faultIn? hf, by rw [push, hf]⟩

/-- Every edit that attempts a gate pushes that gate. -/
theorem apply_of_attempt? {b : Builder} {edit : Edit} {g : Gate}
    (h : edit.attempt? b.width = some g) : b.apply edit = b.push g := by
  cases edit <;> cases h <;> rfl

theorem eq_describe_of_attempt? {width : Nat} {edit : Edit} (h : edit.attempt? width = none) :
    ∃ key value, edit = .describe key value := by
  cases edit with
  | describe key value => exact ⟨key, value, rfl⟩
  | _ => cases h

/-- The outcomes of one edit. -/
theorem apply_cases (b : Builder) (edit : Edit) :
    (∃ key value, edit = .describe key value ∧ b.apply edit = (.ok (), b.describe key value)) ∨
      (∃ g, edit.attempt? b.width = some g ∧ g.Acceptable b.width ∧
        b.apply edit = (.ok (), { b with gates := b.gates.push g })) ∨
      ∃ g fault, edit.attempt? b.width = some g ∧ Gate.Breaks b.width g fault ∧
        b.apply edit = (.error (.invalidGate g.name fault), b) := by
  cases hg : edit.attempt? b.width with
  | none =>
      obtain ⟨key, value, rfl⟩ := eq_describe_of_attempt? hg
      exact Or.inl ⟨key, value, rfl, rfl⟩
  | some g =>
      rw [apply_of_attempt? hg]
      by_cases ha : g.Acceptable b.width
      · exact Or.inr (Or.inl ⟨g, rfl, ha, push_of_acceptable ha⟩)
      · obtain ⟨fault, hb, hp⟩ := push_of_not_acceptable ha
        exact Or.inr (Or.inr ⟨g, fault, rfl, hb, hp⟩)

/-! ## Runs -/

theorem run_append (b : Builder) (before after : List Edit) :
    b.run (before ++ after) = (b.run before).run after := List.foldl_append

/-- Whatever the answer to an edit is, the run goes on with the builder beside it. -/
theorem run_singleton_of_apply {b next : Builder} {edit : Edit} {answer : Except CircuitError Unit}
    (h : b.apply edit = (answer, next)) : b.run [edit] = next := congrArg Prod.snd h

/-- The acceptable ones among the gates that a row of edits attempts, in order. -/
def appended (width : Nat) (edits : List Edit) : List Gate :=
  (edits.filterMap (Edit.attempt? width)).filter fun g => g.Acceptable width

theorem appended_append (width : Nat) (before after : List Edit) :
    appended width (before ++ after) = appended width before ++ appended width after := by
  simp [appended]

/-- What one edit does to each part of a builder that a run keeps an eye on. -/
theorem run_singleton_parts (b : Builder) (edit : Edit) :
    (b.run [edit]).algorithm = b.algorithm ∧ (b.run [edit]).width = b.width ∧
      (b.run [edit]).gates.toList = b.gates.toList ++ appended b.width [edit] := by
  rcases apply_cases b edit with ⟨key, value, rfl, hok⟩ | ⟨g, hg, ha, hok⟩ | ⟨g, fault, hg, hb, he⟩
  · rw [run_singleton_of_apply hok]
    exact ⟨rfl, rfl, (List.append_nil _).symm⟩
  · rw [run_singleton_of_apply hok]
    exact ⟨rfl, rfl, by simp [appended, hg, ha]⟩
  · rw [run_singleton_of_apply he]
    have hna := Gate.not_acceptable_of_breaks hb
    exact ⟨rfl, rfl, by simp [appended, hg, hna]⟩

theorem run_parts (b : Builder) (edits : List Edit) :
    (b.run edits).algorithm = b.algorithm ∧ (b.run edits).width = b.width ∧
      (b.run edits).gates.toList = b.gates.toList ++ appended b.width edits := by
  induction edits generalizing b with
  | nil => exact ⟨rfl, rfl, (List.append_nil _).symm⟩
  | cons edit rest ih =>
      -- the first edit gives a builder of the same width, on which the rest of the run is known
      have hrun : b.run (edit :: rest) = (b.run [edit]).run rest := run_append b [edit] rest
      have happ : appended b.width (edit :: rest) =
          appended b.width [edit] ++ appended b.width rest := appended_append b.width [edit] rest
      obtain ⟨hn, hw, hg⟩ := run_singleton_parts b edit
      obtain ⟨ihn, ihw, ihg⟩ := ih (b.run [edit])
      rw [hrun, happ, ihn, ihw, ihg, hn, hw, hg, List.append_assoc]
      exact ⟨rfl, rfl, rfl⟩

@[simp] theorem algorithm_run (b : Builder) (edits : List Edit) :
    (b.run edits).algorithm = b.algorithm := (run_parts b edits).1

@[simp] theorem width_run (b : Builder) (edits : List Edit) : (b.run edits).width = b.width :=
  (run_parts b edits).2.1

/-- The gates of a run are the acceptable attempts in their order. -/
theorem gates_run (b : Builder) (edits : List Edit) :
    (b.run edits).gates.toList = b.gates.toList ++ appended b.width edits :=
  (run_parts b edits).2.2

theorem entry?_of_attempt? {width : Nat} {edit : Edit} {g : Gate} (h : edit.attempt? width = some g) :
    edit.entry? = none := by
  cases edit with
  | describe key value => cases h
  | _ => rfl

/-- The metadata of a run are the keys that its edits set, one after another; gates do not touch them. -/
theorem metadata_run (b : Builder) (edits : List Edit) :
    (b.run edits).metadata =
      (edits.filterMap Edit.entry?).foldl (fun members e => members.put e.1 e.2) b.metadata := by
  induction edits generalizing b with
  | nil => rfl
  | cons edit rest ih =>
      have hrun : b.run (edit :: rest) = (b.run [edit]).run rest := run_append b [edit] rest
      rw [hrun, ih]
      rcases apply_cases b edit with ⟨key, value, rfl, hok⟩ | ⟨g, hg, -, hok⟩ | ⟨g, fault, hg, -, he⟩
      · rw [run_singleton_of_apply hok]
        rfl
      · rw [run_singleton_of_apply hok, List.filterMap_cons_none (entry?_of_attempt? hg)]
      · rw [run_singleton_of_apply he, List.filterMap_cons_none (entry?_of_attempt? hg)]

theorem start_of_pos (algorithm : String) {width : Nat} (h : 0 < width) :
    start algorithm width = .ok ⟨algorithm, width, #[], []⟩ := if_neg (Nat.ne_of_gt h)

theorem eq_of_start {algorithm : String} {width : Nat} {b : Builder}
    (h : start algorithm width = .ok b) : 0 < width ∧ b = ⟨algorithm, width, #[], []⟩ := by
  rcases Nat.eq_zero_or_pos width with rfl | hw
  · simp [start] at h
  · rw [start_of_pos algorithm hw] at h
    exact ⟨hw, (Except.ok.inj h).symm⟩

/-- A run of edits on a fresh builder finishes a circuit of the given name and width whose gates are
exactly the acceptable attempts, in order. After any earlier edits, an edit either goes through, and
then what it attempts is acceptable, or it is refused for a rule that its gate breaks, and then the
builder that comes back is the one from before, which the edits after it go on from. -/
theorem finish_run_of_start (algorithm : String) (width : Nat) (edits : List Edit)
    (hw : 0 < width) :
    ∃ b, start algorithm width = .ok b ∧
      (b.run edits).finish.algorithm = algorithm ∧
      (b.run edits).finish.width = width ∧
      (b.run edits).finish.gates =
        (edits.filterMap (Edit.attempt? width)).filter (fun g => g.Acceptable width) ∧
      ∀ before edit,
        ((b.run before).apply edit = (.ok (), b.run (before ++ [edit])) ∧
          ∀ g, edit.attempt? width = some g → g.Acceptable width) ∨
        ∃ g fault, edit.attempt? width = some g ∧ ¬ g.Acceptable width ∧
          Gate.Breaks width g fault ∧
          (b.run before).apply edit = (.error (.invalidGate g.name fault), b.run before) ∧
          b.run (before ++ [edit]) = b.run before := by
  refine ⟨_, start_of_pos algorithm hw, algorithm_run _ edits, width_run _ edits,
    gates_run _ edits, ?_⟩
  intro before edit
  -- a run keeps the width, so what is acceptable does not depend on the edits before
  have hwidth := width_run ⟨algorithm, width, #[], []⟩ before
  generalize hb : Builder.run ⟨algorithm, width, #[], []⟩ before = b at hwidth ⊢
  rw [run_append, hb]
  rcases apply_cases b edit with ⟨key, value, rfl, hok⟩ | ⟨g, hg, ha, hok⟩ | ⟨g, fault, hg, hf, he⟩
  · refine Or.inl ⟨by rw [run_singleton_of_apply hok, hok], fun g hg => ?_⟩
    cases hg
  · rw [hwidth] at hg ha
    refine Or.inl ⟨by rw [run_singleton_of_apply hok, hok], fun g' hg' => ?_⟩
    rw [hg] at hg'
    cases hg'
    exact ha
  · rw [hwidth] at hg hf
    exact Or.inr ⟨g, fault, hg, Gate.not_acceptable_of_breaks hf, hf, he, run_singleton_of_apply he⟩

/-- Control: of seven edits on two qubits, a gate off the register, one with its control as target, one
with an infinite angle and one without targets are refused. -/
theorem finish_run_of_start_refusals :
    0 < 2 ∧ ∃ b, start "demo" 2 = .ok b ∧
      (b.run [.h 0, .cx 0 2, .cx 1 1, .describe "k" .null, .cp (.infinity false) 0 1, .measure [],
        .measureAll]).finish.gates = [.fixed .h [0], .measure [0, 1]] := by
  obtain ⟨b, hb, -, -, hg, -⟩ := finish_run_of_start "demo" 2 [.h 0, .cx 0 2, .cx 1 1,
    .describe "k" .null, .cp (.infinity false) 0 1, .measure [], .measureAll] (by decide)
  exact ⟨by decide, b, hb, hg.trans (by decide)⟩

/-! ## Rows of gates -/

theorem pushAll_cons_of_acceptable {b : Builder} {g : Gate} (rest : List Gate)
    (h : g.Acceptable b.width) :
    b.pushAll (g :: rest) = pushAll { b with gates := b.gates.push g } rest := by
  rw [pushAll, push_of_acceptable h]

/-- Acceptable gates are all taken, and the gates behind them are pushed to what comes of that. -/
theorem pushAll_append {b : Builder} {gates : List Gate} (rest : List Gate)
    (h : ∀ g ∈ gates, g.Acceptable b.width) :
    b.pushAll (gates ++ rest) = pushAll { b with gates := b.gates ++ gates.toArray } rest := by
  induction gates generalizing b with
  | nil => rw [List.nil_append, Array.append_empty]
  | cons g gates ih =>
      obtain ⟨hg, hgates⟩ := List.forall_mem_cons.mp h
      have hlater := ih (b := { b with gates := b.gates.push g }) hgates
      rw [List.cons_append, pushAll_cons_of_acceptable _ hg, hlater]
      simp

theorem pushAll_of_acceptable {b : Builder} {gates : List Gate}
    (h : ∀ g ∈ gates, g.Acceptable b.width) :
    b.pushAll gates = (.ok (), { b with gates := b.gates ++ gates.toArray }) := by
  have hall := pushAll_append [] h
  rwa [List.append_nil, pushAll] at hall

/-- A row of acceptable gates with one more behind it is taken as far as that one is. -/
theorem pushAll_concat {b : Builder} {gates : List Gate} (last : Gate)
    (h : ∀ g ∈ gates, g.Acceptable b.width) :
    b.pushAll (gates ++ [last]) = push { b with gates := b.gates ++ gates.toArray } last := by
  rw [pushAll_append [last] h, pushAll]
  cases push { b with gates := b.gates ++ gates.toArray } last with
  | mk answer next => cases answer <;> rfl

/-- A row that is taken as a whole holds acceptable gates only. -/
theorem acceptable_of_pushAll_ok {b next : Builder} {gates : List Gate}
    (h : b.pushAll gates = (.ok (), next)) : ∀ g ∈ gates, g.Acceptable b.width := by
  induction gates generalizing b with
  | nil => exact fun g hg => (List.not_mem_nil hg).elim
  | cons g rest ih =>
      by_cases hg : g.Acceptable b.width
      · -- the gates after it are pushed to a builder of the same width
        rw [pushAll_cons_of_acceptable rest hg] at h
        exact List.forall_mem_cons.mpr ⟨hg, ih (b := { b with gates := b.gates.push g }) h⟩
      · obtain ⟨fault, -, he⟩ := push_of_not_acceptable hg
        rw [pushAll, he] at h
        cases h

/-- A row that is taken as a whole is a run of edits. -/
theorem run_pushes {b next : Builder} {gates : List Gate} (h : b.pushAll gates = (.ok (), next)) :
    b.run (gates.map .push) = next := by
  induction gates generalizing b with
  | nil => exact congrArg Prod.snd h
  | cons g rest ih =>
      obtain ⟨hg, -⟩ := List.forall_mem_cons.mp (acceptable_of_pushAll_ok h)
      have hfirst : b.run [.push g] = _ := run_singleton_of_apply (push_of_acceptable hg)
      rw [pushAll_cons_of_acceptable rest hg] at h
      rw [List.map_cons, ← List.singleton_append, run_append, hfirst]
      exact ih h

theorem run_describes (b : Builder) (entries : Json.Members) :
    b.run (entries.map fun e => .describe e.1 e.2) = b.describeAll entries := by
  rw [run, describeAll, List.foldl_map]
  rfl

theorem describeAll_eq (b : Builder) (entries : Json.Members) :
    b.describeAll entries =
      { b with metadata := entries.foldl (fun members e => members.put e.1 e.2) b.metadata } := by
  induction entries generalizing b with
  | nil => rfl
  | cons e rest ih => exact ih (b.describe e.1 e.2)

end Builder

/-! ## Finished circuits -/

namespace Circuit

/-- The metadata after some keys are set one after another. -/
def described (entries : Json.Members) : Json.Members :=
  entries.foldl (fun members e => members.put e.1 e.2) []

/-- A row of acceptable gates is built without a refusal. -/
theorem build_of_acceptable (algorithm : String) {width : Nat} {gates : List Gate}
    (entries : Json.Members) (hw : 0 < width) (h : ∀ g ∈ gates, g.Acceptable width) :
    build algorithm width gates entries = .ok ⟨algorithm, width, gates, described entries⟩ := by
  have hpush := Builder.pushAll_of_acceptable (b := ⟨algorithm, width, #[], []⟩) h
  rw [build, Builder.start_of_pos algorithm hw]
  simp only [bind, Except.bind, hpush, Builder.describeAll_eq, Builder.finish, described,
    List.append_toArray, List.nil_append]

/-- A row of acceptable gates with one more behind it is built if that one is taken. -/
theorem build_concat (algorithm : String) {width : Nat} {gates : List Gate} (last : Gate)
    (entries : Json.Members) (hw : 0 < width) (h : ∀ g ∈ gates, g.Acceptable width) :
    build algorithm width (gates ++ [last]) entries =
      (Builder.push ⟨algorithm, width, #[] ++ gates.toArray, []⟩ last).1.map fun _ =>
        ((Builder.push ⟨algorithm, width, #[] ++ gates.toArray, []⟩ last).2.describeAll entries).finish := by
  have hpush := Builder.pushAll_concat (b := ⟨algorithm, width, #[], []⟩) last h
  rw [build, Builder.start_of_pos algorithm hw]
  simp only [bind, Except.bind, hpush]
  cases (Builder.push ⟨algorithm, width, #[] ++ gates.toArray, []⟩ last).1 <;> rfl

/-- The circuits that a run of edits on a fresh builder finishes. -/
def Finished (c : Circuit) : Prop :=
  ∃ b edits, Builder.start c.algorithm c.width = .ok b ∧ c = (b.run edits).finish

theorem Finished.width_pos {c : Circuit} (h : c.Finished) : 0 < c.width := by
  obtain ⟨b, edits, hb, -⟩ := h
  exact (Builder.eq_of_start hb).1

/-- A finished circuit holds acceptable gates only. -/
theorem Finished.acceptable {c : Circuit} (h : c.Finished) {g : Gate} (hg : g ∈ c.gates) :
    g.Acceptable c.width := by
  obtain ⟨b, edits, hb, hc⟩ := h
  obtain ⟨-, rfl⟩ := Builder.eq_of_start hb
  have hgates : c.gates = Builder.appended c.width edits :=
    (congrArg Circuit.gates hc).trans (Builder.gates_run _ edits)
  rw [hgates] at hg
  exact of_decide_eq_true (List.mem_filter.mp hg).2

/-- The metadata of a finished circuit are some keys, set one after another. -/
theorem Finished.exists_described {c : Circuit} (h : c.Finished) :
    ∃ entries, c.metadata = described entries := by
  obtain ⟨b, edits, hb, hc⟩ := h
  obtain ⟨-, rfl⟩ := Builder.eq_of_start hb
  exact ⟨_, (congrArg Circuit.metadata hc).trans (Builder.metadata_run _ edits)⟩

/-- What is built of a row of gates: all of them are acceptable, and there is a qubit. -/
theorem eq_of_build {algorithm : String} {width : Nat} {gates : List Gate} {entries : Json.Members}
    {c : Circuit} (h : build algorithm width gates entries = .ok c) :
    0 < width ∧ (∀ g ∈ gates, g.Acceptable width) ∧
      c = ⟨algorithm, width, gates, described entries⟩ := by
  rcases Nat.eq_zero_or_pos width with rfl | hw
  · cases h
  · have hall : ∀ g ∈ gates, g.Acceptable width := by
      rw [build, Builder.start_of_pos algorithm hw] at h
      obtain ⟨answer, b, hp⟩ : ∃ answer b,
          Builder.pushAll ⟨algorithm, width, #[], []⟩ gates = (answer, b) := ⟨_, _, rfl⟩
      cases answer with
      | error e =>
          simp only [bind, Except.bind, hp] at h
          cases h
      | ok done => exact Builder.acceptable_of_pushAll_ok hp
    rw [build_of_acceptable algorithm entries hw hall] at h
    exact ⟨hw, hall, (Except.ok.inj h).symm⟩

/-- What is built of a row of gates is finished by a run of edits. -/
theorem finished_of_build {algorithm : String} {width : Nat} {gates : List Gate}
    {entries : Json.Members} {c : Circuit} (h : build algorithm width gates entries = .ok c) :
    c.Finished := by
  obtain ⟨hw, hall, rfl⟩ := eq_of_build h
  have hpush := Builder.pushAll_of_acceptable (b := ⟨algorithm, width, #[], []⟩) hall
  refine ⟨_, gates.map .push ++ entries.map fun e => .describe e.1 e.2,
    Builder.start_of_pos algorithm hw, ?_⟩
  rw [Builder.run_append, Builder.run_pushes hpush, Builder.run_describes, Builder.describeAll_eq,
    Builder.finish, List.append_toArray]
  rfl

end Circuit

end QCircuit
