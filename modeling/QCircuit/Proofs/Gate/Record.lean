import QCircuit.Gate.Parts
import QCircuit.Gate.Record

/-!
# Records and loose parts

The JSON object of a gate lists the loose parts that the gate can be put together from: its name, its
targets, a control if it has one, and an angle under its name if it has one (`Parts.ofJson?`). A gate of a
known kind that is valid comes back from the parts that its object lists (`ofParts_parts`).

The other way, the record of whatever is put together from loose parts shows the parts as they were given
(`record_of_ofParts`), of the angles the one that was chosen (`Chosen`).
-/

set_option autoImplicit false

namespace QCircuit

/-! ## Named angles -/

/-- The value stands under the name, and the name nowhere before. -/
def NamedAngles.First (params : NamedAngles) (name : AngleName) (value : Binary64) : Prop :=
  ∃ before after, params = before ++ (name.text, value) :: after ∧
    ∀ entry ∈ before, entry.1 ≠ name.text

theorem NamedAngles.value?_eq_some_iff {params : NamedAngles} {name : AngleName} {value : Binary64} :
    params.value? name = some value ↔ params.First name value := by
  rw [value?, List.lookup_eq_some_iff]
  simp only [First, bne_iff_ne, ne_comm]

theorem NamedAngles.value?_eq_none_iff {params : NamedAngles} {name : AngleName} :
    params.value? name = none ↔ ∀ entry ∈ params, entry.1 ≠ name.text := by
  rw [value?, List.lookup_eq_none_iff]
  simp only [bne_iff_ne, ne_comm]

namespace Gate

/-- The angle that is taken from the given ones: the first `theta`, or, for a rotation without any, the
first `phi`. -/
inductive Chosen (kind : GateKind) (params : NamedAngles) : Angle → Prop
  | theta {value : Binary64} : params.First .theta value → Chosen kind params ⟨.theta, value⟩
  | phi {value : Binary64} : kind ≠ .cp → (∀ entry ∈ params, entry.1 ≠ AngleName.theta.text) →
      params.First .phi value → Chosen kind params ⟨.phi, value⟩

theorem chosen_of_rotationAngle? {kind : GateKind} {params : NamedAngles} {angle : Angle}
    (hkind : kind ≠ .cp) (h : params.rotationAngle? = some angle) : Chosen kind params angle := by
  unfold NamedAngles.rotationAngle? at h
  cases htheta : params.value? .theta with
  | some theta =>
      simp only [htheta, Option.some.injEq] at h
      subst h
      exact .theta (NamedAngles.value?_eq_some_iff.mp htheta)
  | none =>
      cases hphi : params.value? .phi with
      | some phi =>
          simp only [htheta, hphi, Option.some.injEq] at h
          subst h
          exact .phi hkind (NamedAngles.value?_eq_none_iff.mp htheta)
            (NamedAngles.value?_eq_some_iff.mp hphi)
      | none => simp [htheta, hphi] at h

/-! ## From the object of a gate to its parts -/

/-- Loose parts, with the name of a kind. -/
structure Parts where
  name : String
  targets : List Qubit
  control : Option Qubit
  params : NamedAngles

namespace Parts

/-- The qubit that a JSON value is. -/
def qubit? : Json String → Option Qubit
  | .int z => if 0 ≤ z then some z.toNat else none
  | _ => none

/-- The angle that a member of a JSON object is. -/
def angle? : String × Json String → Option (String × Binary64)
  | (name, .real value) => some (name, value)
  | _ => none

/-- The parts that a JSON object lists. Without a control there is none, and without parameters there
are no angles. -/
def ofJson? : Json String → Option Parts
  | .obj members => do
      let .str name ← members.lookup "gate" | none
      let .arr items ← members.lookup "targets" | none
      let targets ← items.mapM qubit?
      let control ← match members.lookup "control" with
        | some value => (qubit? value).map some
        | none => some none
      let params ← match members.lookup "params" with
        | some (.obj entries) => entries.mapM angle?
        | some _ => none
        | none => some []
      some ⟨name, targets, control, params⟩
  | _ => none

@[simp] theorem qubit?_nat (q : Qubit) : qubit? (.nat q) = some q := by simp [qubit?, Json.nat]

@[simp] theorem mapM_qubit?_nat (targets : List Qubit) :
    targets.mapM (qubit? ∘ Json.nat) = some targets := by
  induction targets with
  | nil => rfl
  | cons q rest ih => simp [ih]

end Parts

/-- The angle of a gate under its name, as loose parts have it. -/
def angles (g : Gate) : NamedAngles :=
  match g.params with
  | .named angle => [(angle.name.text, angle.value)]
  | .absent | .positional _ => []

/-- The object of a gate of a known kind lists its parts. -/
theorem parts_ofJson? {g : Gate} (h : g.kind? ≠ none) :
    Parts.ofJson? g.toJson = some ⟨g.name, g.targets, g.control?, g.angles⟩ := by
  cases g with
  | custom name qubits params => exact absurd rfl h
  | _ =>
      simp [toJson, record, Record.toJson, Parts.ofJson?, Params.members, params, angles, control?,
        Parts.angle?, List.lookup_cons, List.lookup_nil]

/-! ## From parts to a gate -/

variable {kind : GateKind} {targets : List Qubit} {control : Option Qubit} {params : NamedAngles}
  {g : Gate}

/-- What the parts are asked for before a gate is put together from them. -/
theorem partsFault?_eq_none_iff :
    partsFault? kind targets control params = none ↔
      targets ≠ [] ∧ params.unknown? = none ∧ (params ≠ [] ↔ kind.takesAngle) ∧
        (control ≠ none ↔ kind.takesControl) := by
  unfold partsFault?
  split
  · next h => simp [h]
  · next htargets =>
      cases hunknown : params.unknown? with
      | some name => simp
      | none =>
          by_cases hp : params = [] <;> by_cases hc : control = none <;>
            cases kind.takesAngle <;> cases kind.takesControl <;> simp [htargets, hp, hc]

theorem validate_eq_ok_iff {made : Gate} : made.validate = .ok g ↔ made = g ∧ g.fault? = none := by
  unfold validate
  cases hfault : made.fault? with
  | some fault =>
      simp only [reduceCtorEq, false_iff, not_and]
      rintro rfl
      simp [hfault]
  | none =>
      simp only [Except.ok.injEq, iff_self_and]
      rintro rfl
      exact hfault

/-- A gate that has been put together is what the kind makes of the parts, and has no fault. -/
theorem ofParts_eq_ok_iff :
    ofParts kind targets control params = .ok g ↔
      partsFault? kind targets control params = none ∧
        assemble kind targets control params = .ok g ∧ g.fault? = none := by
  unfold ofParts
  cases hparts : partsFault? kind targets control params with
  | some fault => simp
  | none =>
      cases hassemble : assemble kind targets control params with
      | error fault => simp
      | ok made =>
          simp only [true_and, Except.ok.injEq]
          exact validate_eq_ok_iff

/-- What each kind makes of its parts. -/
inductive Assembled (params : NamedAngles) : GateKind → List Qubit → Option Qubit → Gate → Prop
  | fixed (kind : FixedKind) {targets : List Qubit} {control : Option Qubit} :
      Assembled params kind.kind targets control (.fixed kind targets)
  | rotation (axis : Axis) {angle : Angle} {targets : List Qubit} {control : Option Qubit} :
      params.rotationAngle? = some angle →
      Assembled params axis.kind targets control (.rotation axis angle targets)
  | cx {control target : Qubit} : Assembled params .cx [target] (some control) (.cx control target)
  | cp {theta : Binary64} {control target : Qubit} : params.value? .theta = some theta →
      Assembled params .cp [target] (some control) (.cp theta control target)
  | swap {a b : Qubit} {control : Option Qubit} : Assembled params .swap [a, b] control (.swap a b)
  | measure {targets : List Qubit} {control : Option Qubit} :
      Assembled params .measure targets control (.measure targets)

theorem eq_of_rotationOf {axis : Axis} (h : rotationOf axis targets params = .ok g) :
    ∃ angle, params.rotationAngle? = some angle ∧ g = .rotation axis angle targets := by
  unfold rotationOf at h
  cases hangle : params.rotationAngle? with
  | none => simp [hangle] at h
  | some angle =>
      simp only [hangle, Except.ok.injEq] at h
      exact ⟨angle, rfl, h.symm⟩

theorem eq_of_controlledOperands {operands : Qubit × Qubit}
    (h : controlledOperands targets control = .ok operands) :
    control = some operands.1 ∧ targets = [operands.2] := by
  unfold controlledOperands at h
  split at h
  · cases h
    exact ⟨rfl, rfl⟩
  · cases h
  · cases h

theorem assembled_of_assemble (h : assemble kind targets control params = .ok g) :
    Assembled params kind targets control g := by
  -- one kind after the other: those with a control ask for their two operands first
  cases kind with
  | h =>
      cases h
      exact .fixed .h
  | x =>
      cases h
      exact .fixed .x
  | y =>
      cases h
      exact .fixed .y
  | z =>
      cases h
      exact .fixed .z
  | measure =>
      cases h
      exact .measure
  | rx =>
      obtain ⟨angle, hangle, rfl⟩ := eq_of_rotationOf h
      exact .rotation .x hangle
  | ry =>
      obtain ⟨angle, hangle, rfl⟩ := eq_of_rotationOf h
      exact .rotation .y hangle
  | rz =>
      obtain ⟨angle, hangle, rfl⟩ := eq_of_rotationOf h
      exact .rotation .z hangle
  | swap =>
      simp only [assemble] at h
      split at h
      · cases h
        exact .swap
      · cases h
  | cx =>
      cases hoperands : controlledOperands targets control with
      | error fault => simp [assemble, hoperands, bind, Except.bind] at h
      | ok operands =>
          obtain ⟨rfl, rfl⟩ := eq_of_controlledOperands hoperands
          cases h
          exact .cx
  | cp =>
      cases hoperands : controlledOperands targets control with
      | error fault => simp [assemble, hoperands, bind, Except.bind] at h
      | ok operands =>
          obtain ⟨rfl, rfl⟩ := eq_of_controlledOperands hoperands
          cases htheta : params.value? .theta with
          | none => simp [assemble, controlledOperands, htheta, bind, Except.bind] at h
          | some theta =>
              simp only [assemble, controlledOperands, htheta, bind, Except.bind] at h
              cases h
              exact .cp htheta

theorem assemble_of_assembled (h : Assembled params kind targets control g) :
    assemble kind targets control params = .ok g := by
  cases h with
  | fixed kind => cases kind <;> rfl
  | rotation axis hangle => cases axis <;> simp [assemble, Axis.kind, rotationOf, hangle]
  | cx => rfl
  | cp htheta => simp [assemble, controlledOperands, htheta, bind, Except.bind]
  | swap => rfl
  | measure => rfl

/-! ## Around -/

/-- The kinds that take an angle are those of the gates that have one. -/
theorem angles_ne_nil_iff (hkind : g.kind? = some kind) : g.angles ≠ [] ↔ kind.takesAngle := by
  cases g <;> cases hkind
  case fixed kind targets => cases kind <;> simp [angles, params, FixedKind.kind, GateKind.takesAngle]
  case rotation axis angle targets =>
    cases axis <;> simp [angles, params, Axis.kind, GateKind.takesAngle]
  all_goals simp [angles, params, GateKind.takesAngle]

/-- The kinds that take a control are those of the gates that have one. -/
theorem control?_ne_none_iff (hkind : g.kind? = some kind) :
    g.control? ≠ none ↔ kind.takesControl := by
  cases g <;> cases hkind
  case fixed kind targets => cases kind <;> simp [control?, FixedKind.kind, GateKind.takesControl]
  case rotation axis angle targets =>
    cases axis <;> simp [control?, Axis.kind, GateKind.takesControl]
  all_goals simp [control?, GateKind.takesControl]

/-- The parts of a gate without a fault pass the checks that come before it is put together. -/
theorem partsFault?_parts (hkind : g.kind? = some kind) (hfault : g.fault? = none) :
    partsFault? kind g.targets g.control? g.angles = none := by
  -- a gate without targets has a fault already
  have htargets : g.targets ≠ [] := by
    cases g <;> simp_all [fault?, operandFault?, targets]
  refine partsFault?_eq_none_iff.mpr ⟨htargets, ?_, ?_, ?_⟩
  · cases g with
    | rotation axis angle targets => obtain ⟨name, value⟩ := angle; cases name <;> rfl
    | custom name qubits params => cases hkind
    | _ => rfl
  · exact angles_ne_nil_iff hkind
  · exact control?_ne_none_iff hkind

theorem ofParts_parts (hkind : g.kind? = some kind) (hfault : g.fault? = none) :
    ofParts kind g.targets g.control? g.angles = .ok g := by
  refine ofParts_eq_ok_iff.mpr ⟨partsFault?_parts hkind hfault, assemble_of_assembled ?_, hfault⟩
  cases g with
  | fixed kind targets =>
      cases hkind
      exact .fixed kind
  | rotation axis angle targets =>
      cases hkind
      -- the angle stands under its own name, whichever of the two this is
      refine .rotation axis ?_
      obtain ⟨name, value⟩ := angle
      cases name <;> rfl
  | cx control target =>
      cases hkind
      exact .cx
  | cp theta control target =>
      cases hkind
      exact .cp rfl
  | swap a b =>
      cases hkind
      exact .swap
  | measure targets =>
      cases hkind
      exact .measure
  | custom name qubits params => cases hkind

/-- The record of a gate that has been put together shows the name of the kind, the targets and the
control as given, and the chosen angle if gates of the kind take one. -/
theorem record_of_ofParts (h : ofParts kind targets control params = .ok g) :
    ∃ written : Params, g.record = ⟨kind.name, targets, control, written⟩ ∧
      (kind.takesAngle = false → written = .absent) ∧
      (kind.takesAngle = true → ∃ angle, written = .named angle ∧ Chosen kind params angle) := by
  obtain ⟨hparts, hassemble, -⟩ := ofParts_eq_ok_iff.mp h
  obtain ⟨-, -, -, hcontrol⟩ := partsFault?_eq_none_iff.mp hparts
  -- a kind without a control was given none, so the record leaves nothing out
  have hnone : kind.takesControl = false → control = none := by
    intro hkind
    rw [hkind] at hcontrol
    simpa using hcontrol
  cases assembled_of_assemble hassemble with
  | fixed kind =>
      obtain rfl := hnone (by cases kind <;> rfl)
      exact ⟨.absent, rfl, fun _ => rfl, by cases kind <;> exact Bool.noConfusion⟩
  | rotation axis hangle =>
      obtain rfl := hnone (by cases axis <;> rfl)
      have hcp : axis.kind ≠ .cp := by cases axis <;> decide
      have hchosen := chosen_of_rotationAngle? hcp hangle
      exact ⟨.named _, rfl, by cases axis <;> exact Bool.noConfusion, fun _ => ⟨_, rfl, hchosen⟩⟩
  | cx => exact ⟨.absent, rfl, fun _ => rfl, Bool.noConfusion⟩
  | cp htheta =>
      have hchosen : Chosen .cp params _ := .theta (NamedAngles.value?_eq_some_iff.mp htheta)
      exact ⟨.named _, rfl, Bool.noConfusion, fun _ => ⟨_, rfl, hchosen⟩⟩
  | swap =>
      obtain rfl := hnone rfl
      exact ⟨.absent, rfl, fun _ => rfl, Bool.noConfusion⟩
  | measure =>
      obtain rfl := hnone rfl
      exact ⟨.absent, rfl, fun _ => rfl, Bool.noConfusion⟩

/-- A valid gate of a known kind is put together again from the parts that its JSON object lists, under
the kind that their name says, with the same angle under the same name. And the record of whatever is put
together from loose parts has the name of the kind, the targets in their order and the control, all as
given, and parameters exactly if the kind takes an angle: the chosen one alone. -/
theorem record_agrees_with_ofParts :
    (∀ g : Gate, g.kind? ≠ none → g.validate = .ok g →
      ∃ parts kind, Parts.ofJson? g.toJson = some parts ∧ GateKind.ofName? parts.name = some kind ∧
        ofParts kind parts.targets parts.control parts.params = .ok g) ∧
    ∀ (kind : GateKind) (targets : List Qubit) (control : Option Qubit) (params : NamedAngles)
      (g : Gate), ofParts kind targets control params = .ok g →
      ∃ written : Params, g.record = ⟨kind.name, targets, control, written⟩ ∧
        (kind.takesAngle = false → written = .absent) ∧
        (kind.takesAngle = true → ∃ angle, written = .named angle ∧ Chosen kind params angle) := by
  constructor
  · intro g hknown hvalid
    obtain ⟨kind, hkind⟩ := Option.ne_none_iff_exists'.mp hknown
    have hfault := (validate_eq_ok_iff.mp hvalid).2
    refine ⟨_, kind, parts_ofJson? hknown, ?_, ofParts_parts hkind hfault⟩
    rw [name_of_kind? hkind]
    exact GateKind.ofName?_name kind
  · intro kind targets control params g
    exact record_of_ofParts

/-- Control: a controlled phase comes back from its object, and a rotation that is given both angles
shows `theta` alone. -/
theorem record_agrees_with_ofParts_angles :
    (∃ parts kind, Parts.ofJson? (Gate.cp .pi 2 0).toJson = some parts ∧
      GateKind.ofName? parts.name = some kind ∧
      ofParts kind parts.targets parts.control parts.params = .ok (.cp .pi 2 0)) ∧
    ofParts .rx [1, 1] none [("phi", .tau), ("theta", .pi)] = .ok (.rotation .x ⟨.theta, .pi⟩ [1, 1]) ∧
    (Gate.rotation .x ⟨.theta, .pi⟩ [1, 1]).record =
      ⟨"rx", [1, 1], none, .named ⟨.theta, .pi⟩⟩ := by
  have hmade : ofParts .rx [1, 1] none [("phi", .tau), ("theta", .pi)] =
      .ok (.rotation .x ⟨.theta, .pi⟩ [1, 1]) := rfl
  obtain ⟨hback, hrecord⟩ := record_agrees_with_ofParts
  refine ⟨hback _ (Option.some_ne_none _) rfl, hmade, ?_⟩
  obtain ⟨written, hwritten, -, hangle⟩ := hrecord _ _ _ _ _ hmade
  obtain ⟨angle, rfl, -⟩ := hangle rfl
  obtain rfl : angle = ⟨.theta, .pi⟩ := by cases hwritten; rfl
  exact hwritten

end Gate

end QCircuit
