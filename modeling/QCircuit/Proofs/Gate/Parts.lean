import Mathlib.Data.List.Basic
import Mathlib.Order.Nat
import QCircuit.Proofs.Gate.Record

/-!
# Which parts make a gate

Loose parts fit a kind if they keep the rules for it (`PartsFit`): targets at all, only names of angles,
angles and a control exactly where the kind takes them, as many targets as the kind has operands, and then a
finite angle and operands that differ. A rule that is broken is a misfit, with the place of the rule in the
order of the checks and the fault that reports it (`Misfit`). Parts fit exactly if there is no misfit
(`partsFit_iff`).

Parts that fit are put together into a gate. Of parts that do not, the misfit in the first place is reported
(`ofParts_of_firstMisfit`), under the name of the kind. So the answer is told by the rules alone
(`ofParts_answer`).
-/

set_option autoImplicit false

namespace QCircuit

/-- A name that is an angle's. -/
def AngleName.Known (name : String) : Prop := name = AngleName.theta.text ∨ name = AngleName.phi.text

instance : DecidablePred AngleName.Known := fun _ => inferInstanceAs (Decidable (_ ∨ _))

/-! ## Names of angles -/

namespace NamedAngles

variable {params : NamedAngles}

theorem unknown?_eq (params : NamedAngles) :
    params.unknown? = (params.find? fun entry => ¬ AngleName.Known entry.1).map Prod.fst := by
  simp only [unknown?, AngleName.Known, not_or]

theorem unknown?_eq_none_iff :
    params.unknown? = none ↔ ∀ entry ∈ params, AngleName.Known entry.1 := by
  simp [unknown?_eq]

/-- The first unknown name has known ones before it only. -/
theorem unknown?_eq_some_iff {name : String} :
    params.unknown? = some name ↔ ∃ before value after, params = before ++ (name, value) :: after ∧
      (∀ entry ∈ before, AngleName.Known entry.1) ∧ ¬ AngleName.Known name := by
  simp only [unknown?_eq, Option.map_eq_some_iff, List.find?_eq_some_iff_append, decide_not,
    Bool.not_eq_true', decide_eq_false_iff_not, Bool.not_not, decide_eq_true_eq]
  constructor
  · rintro ⟨⟨name', value⟩, ⟨hname, before, after, hparams, hbefore⟩, rfl⟩
    exact ⟨before, value, after, hparams, hbefore, hname⟩
  · rintro ⟨before, value, after, hparams, hbefore, hname⟩
    exact ⟨(name, value), ⟨hname, before, after, hparams, hbefore⟩, rfl⟩

/-- Among known names, one that is not `theta` is `phi`. -/
theorem exists_rotationAngle? (hne : params ≠ []) (h : ∀ entry ∈ params, AngleName.Known entry.1) :
    ∃ angle, params.rotationAngle? = some angle := by
  unfold rotationAngle?
  cases htheta : params.value? .theta with
  | some theta => exact ⟨_, rfl⟩
  | none =>
      cases hphi : params.value? .phi with
      | some phi => exact ⟨_, rfl⟩
      | none =>
          obtain ⟨entry, hentry⟩ := List.exists_mem_of_ne_nil params hne
          rcases h entry hentry with hname | hname
          · exact absurd hname (value?_eq_none_iff.mp htheta entry hentry)
          · exact absurd hname (value?_eq_none_iff.mp hphi entry hentry)

end NamedAngles

/-- The number of targets that gates of a kind have, if it is fixed. -/
def GateKind.targetCount? : GateKind → Option Nat
  | .cx | .cp => some 1
  | .swap => some 2
  | _ => none

namespace Gate

/-- The parts keep every rule for gates of the kind. -/
structure PartsFit (kind : GateKind) (targets : List Qubit) (control : Option Qubit)
    (params : NamedAngles) : Prop where
  nonempty : targets ≠ []
  known : ∀ entry ∈ params, AngleName.Known entry.1
  angle_iff : params ≠ [] ↔ kind ∈ [.rx, .ry, .rz, .cp]
  control_iff : control ≠ none ↔ kind ∈ [.cx, .cp]
  single : kind ∈ [.cx, .cp] → targets.length = 1
  pair : kind = .swap → targets.length = 2
  theta : kind = .cp → ∃ entry ∈ params, entry.1 = AngleName.theta.text
  finite : ∀ angle, Chosen kind params angle → angle.value.isFinite
  apart : ∀ q, control = some q → q ∉ targets
  distinct : kind = .swap → targets.Nodup

/-- A rule that the parts break, by its place in the order of the checks, and the fault that reports it. -/
inductive Misfit (kind : GateKind) (targets : List Qubit) (control : Option Qubit)
    (params : NamedAngles) : Nat → Fault → Prop
  | emptyTargets : targets = [] → Misfit kind targets control params 0 .emptyTargets
  /-- The first unknown name is reported. -/
  | unknownParam {before after : NamedAngles} {name : String} {value : Binary64} :
      params = before ++ (name, value) :: after → (∀ entry ∈ before, AngleName.Known entry.1) →
      ¬ AngleName.Known name → Misfit kind targets control params 1 (.unknownParam name)
  | missingParams : kind ∈ [.rx, .ry, .rz, .cp] → params = [] →
      Misfit kind targets control params 2 .missingParams
  | unexpectedParams : kind ∉ [.rx, .ry, .rz, .cp] → params ≠ [] →
      Misfit kind targets control params 2 .unexpectedParams
  | missingControl : kind ∈ [.cx, .cp] → control = none →
      Misfit kind targets control params 3 .missingControl
  | unexpectedControl : kind ∉ [.cx, .cp] → control ≠ none →
      Misfit kind targets control params 3 .unexpectedControl
  | targetCount {expected : Nat} : kind.targetCount? = some expected → targets.length ≠ expected →
      Misfit kind targets control params 4 (.targetCount expected targets.length)
  /-- A controlled phase has no use for `phi`. -/
  | missingTheta : kind = .cp → (∀ entry ∈ params, entry.1 ≠ AngleName.theta.text) →
      Misfit kind targets control params 5 .missingParams
  | nonFiniteAngle {angle : Angle} : Chosen kind params angle → angle.value.isFinite = false →
      Misfit kind targets control params 6 (.nonFiniteAngle angle.value)
  | controlIsTarget {q : Qubit} : control = some q → q ∈ targets →
      Misfit kind targets control params 7 (.controlIsTarget q)
  | duplicateTarget {q : Qubit} : kind = .swap → targets = [q, q] →
      Misfit kind targets control params 7 (.duplicateTarget q)

variable {kind : GateKind} {targets : List Qubit} {control : Option Qubit} {params : NamedAngles}
  {place : Nat} {fault : Fault} {g : Gate}

/-- The parts keep the rules before a place. -/
def KeptBefore (kind : GateKind) (targets : List Qubit) (control : Option Qubit) (params : NamedAngles)
    (place : Nat) : Prop := ∀ earlier fault, Misfit kind targets control params earlier fault → place ≤ earlier

/-- The misfit in the first place. -/
def FirstMisfit (kind : GateKind) (targets : List Qubit) (control : Option Qubit) (params : NamedAngles)
    (place : Nat) (fault : Fault) : Prop :=
  Misfit kind targets control params place fault ∧ KeptBefore kind targets control params place

/-- Where there is a misfit, there is a first one. -/
theorem exists_firstMisfit (h : Misfit kind targets control params place fault) :
    ∃ place fault, FirstMisfit kind targets control params place fault := by
  classical
  have hex : ∃ place, ∃ fault, Misfit kind targets control params place fault := ⟨place, fault, h⟩
  obtain ⟨first, hfirst⟩ := Nat.find_spec hex
  refine ⟨Nat.find hex, first, hfirst, ?_⟩
  intro earlier fault' h'
  exact Nat.find_min' hex ⟨fault', h'⟩

/-! ## Fit and misfit -/

theorem PartsFit.not_misfit (h : PartsFit kind targets control params) :
    ¬ Misfit kind targets control params place fault := by
  intro hmisfit
  -- each misfit breaks the rule of its own place
  cases hmisfit with
  | emptyTargets hnil => exact h.nonempty hnil
  | unknownParam hparams hbefore hname =>
      apply hname
      exact h.known _ (hparams ▸ List.mem_append_right _ List.mem_cons_self)
  | missingParams hkind hnil => exact h.angle_iff.mpr hkind hnil
  | unexpectedParams hkind hparams => exact hkind (h.angle_iff.mp hparams)
  | missingControl hkind hnone => exact h.control_iff.mpr hkind hnone
  | unexpectedControl hkind hcontrol => exact hkind (h.control_iff.mp hcontrol)
  | targetCount hcount hne =>
      cases kind with
      | cx => exact hne (by cases hcount; exact h.single (by decide))
      | cp => exact hne (by cases hcount; exact h.single (by decide))
      | swap => exact hne (by cases hcount; exact h.pair rfl)
      | _ => cases hcount
  | missingTheta hkind hnone =>
      obtain ⟨entry, hmem, hname⟩ := h.theta hkind
      exact hnone entry hmem hname
  | nonFiniteAngle hchosen hvalue =>
      rw [h.finite _ hchosen] at hvalue
      cases hvalue
  | controlIsTarget hcontrol hmem => exact h.apart _ hcontrol hmem
  | duplicateTarget hkind htargets =>
      have hnodup := h.distinct hkind
      rw [htargets] at hnodup
      simp at hnodup

theorem rotationAngle?_of_chosen {angle : Angle} (h : Chosen kind params angle) :
    params.rotationAngle? = some angle := by
  cases h with
  | theta hfirst =>
      rw [NamedAngles.rotationAngle?, NamedAngles.value?_eq_some_iff.mpr hfirst]
  | phi hkind hnone hfirst =>
      rw [NamedAngles.rotationAngle?, NamedAngles.value?_eq_none_iff.mpr hnone,
        NamedAngles.value?_eq_some_iff.mpr hfirst]

theorem value?_of_chosen_cp {angle : Angle} (h : Chosen .cp params angle) :
    params.value? .theta = some angle.value := by
  cases h with
  | theta hfirst => exact NamedAngles.value?_eq_some_iff.mpr hfirst
  | phi hkind hnone hfirst => exact absurd rfl hkind

theorem ne_nil_of_chosen {angle : Angle} (h : Chosen kind params angle) : params ≠ [] := by
  rintro rfl
  cases rotationAngle?_of_chosen h

theorem takesAngle_iff : kind.takesAngle = true ↔ kind ∈ [.rx, .ry, .rz, .cp] := by
  cases kind <;> decide

theorem takesControl_iff : kind.takesControl = true ↔ kind ∈ [.cx, .cp] := by
  cases kind <;> decide

/-! ## What earlier rules give -/

namespace KeptBefore

theorem nonempty (h : KeptBefore kind targets control params place) (hplace : 0 < place) :
    targets ≠ [] := by
  intro hnil
  exact Nat.not_le_of_lt hplace (h _ _ (.emptyTargets hnil))

theorem known (h : KeptBefore kind targets control params place) (hplace : 1 < place) :
    ∀ entry ∈ params, AngleName.Known entry.1 := by
  rw [← NamedAngles.unknown?_eq_none_iff]
  cases hunknown : params.unknown? with
  | none => rfl
  | some name =>
      obtain ⟨before, value, after, hparams, hbefore, hname⟩ :=
        NamedAngles.unknown?_eq_some_iff.mp hunknown
      exact absurd (h _ _ (.unknownParam hparams hbefore hname)) (Nat.not_le_of_lt hplace)

theorem angle_iff (h : KeptBefore kind targets control params place) (hplace : 2 < place) :
    params ≠ [] ↔ kind ∈ [.rx, .ry, .rz, .cp] := by
  constructor
  · intro hparams
    apply Decidable.byContradiction
    intro hkind
    exact Nat.not_le_of_lt hplace (h _ _ (.unexpectedParams hkind hparams))
  · intro hkind hnil
    exact Nat.not_le_of_lt hplace (h _ _ (.missingParams hkind hnil))

theorem control_iff (h : KeptBefore kind targets control params place) (hplace : 3 < place) :
    control ≠ none ↔ kind ∈ [.cx, .cp] := by
  constructor
  · intro hcontrol
    apply Decidable.byContradiction
    intro hkind
    exact Nat.not_le_of_lt hplace (h _ _ (.unexpectedControl hkind hcontrol))
  · intro hkind hnone
    exact Nat.not_le_of_lt hplace (h _ _ (.missingControl hkind hnone))

theorem targetCount (h : KeptBefore kind targets control params place) (hplace : 4 < place)
    {expected : Nat} (hcount : kind.targetCount? = some expected) : targets.length = expected := by
  apply Decidable.byContradiction
  intro hne
  exact Nat.not_le_of_lt hplace (h _ _ (.targetCount hcount hne))

theorem theta (h : KeptBefore kind targets control params place) (hplace : 5 < place)
    (hkind : kind = .cp) : ∃ value, params.value? .theta = some value := by
  cases hvalue : params.value? .theta with
  | some value => exact ⟨value, rfl⟩
  | none =>
      have hmisfit := h _ _ (.missingTheta hkind (NamedAngles.value?_eq_none_iff.mp hvalue))
      exact absurd hmisfit (Nat.not_le_of_lt hplace)

theorem finite (h : KeptBefore kind targets control params place) (hplace : 6 < place)
    {angle : Angle} (hchosen : Chosen kind params angle) : angle.value.isFinite = true := by
  cases hvalue : angle.value.isFinite with
  | true => rfl
  | false => exact absurd (h _ _ (.nonFiniteAngle hchosen hvalue)) (Nat.not_le_of_lt hplace)

/-- With targets and known names, the checks of the parts are about what the kind takes. -/
theorem partsFault?_eq (h : KeptBefore kind targets control params place) (hplace : 1 < place) :
    partsFault? kind targets control params =
      if kind.takesAngle ∧ params = [] then some .missingParams
      else if ¬ kind.takesAngle ∧ params ≠ [] then some .unexpectedParams
      else if kind.takesControl ∧ control = none then some .missingControl
      else if ¬ kind.takesControl ∧ control ≠ none then some .unexpectedControl
      else none := by
  have hknown := NamedAngles.unknown?_eq_none_iff.mpr (h.known hplace)
  simp only [partsFault?, if_neg (h.nonempty (by omega)), hknown]

theorem partsFault?_eq_control (h : KeptBefore kind targets control params place)
    (hplace : 2 < place) :
    partsFault? kind targets control params =
      if kind.takesControl ∧ control = none then some .missingControl
      else if ¬ kind.takesControl ∧ control ≠ none then some .unexpectedControl
      else none := by
  have hangle := h.angle_iff hplace
  rw [← takesAngle_iff] at hangle
  rw [h.partsFault?_eq (by omega), if_neg fun hm => hangle.mpr hm.1 hm.2,
    if_neg fun hu => hu.1 (hangle.mp hu.2)]

theorem partsFault?_eq_none (h : KeptBefore kind targets control params place) (hplace : 3 < place) :
    partsFault? kind targets control params = none := by
  have hcontrol := h.control_iff hplace
  rw [← takesControl_iff] at hcontrol
  rw [h.partsFault?_eq_control (by omega), if_neg fun hm => hcontrol.mpr hm.1 hm.2,
    if_neg fun hu => hu.1 (hcontrol.mp hu.2)]

/-- The control and the only target of a controlled gate. -/
theorem operands (h : KeptBefore kind targets control params place) (hplace : 4 < place)
    (hkind : kind ∈ [.cx, .cp]) : ∃ c t, control = some c ∧ targets = [t] := by
  have hcount : kind.targetCount? = some 1 := by
    simp only [List.mem_cons, List.not_mem_nil, or_false] at hkind
    rcases hkind with rfl | rfl <;> rfl
  obtain ⟨t, rfl⟩ := List.length_eq_one_iff.mp (h.targetCount hplace hcount)
  obtain ⟨c, rfl⟩ := Option.ne_none_iff_exists'.mp ((h.control_iff (by omega)).mpr hkind)
  exact ⟨c, t, rfl, rfl⟩

/-- Parts that keep the rules up to the angle are put together. -/
theorem exists_assembled (h : KeptBefore kind targets control params place) (hplace : 5 < place) :
    ∃ g, Assembled params kind targets control g := by
  -- the named angle of a kind that takes one is there, since the missing one would be a misfit
  have hrotation (hkind : kind ∈ [.rx, .ry, .rz, .cp]) : ∃ angle, params.rotationAngle? = some angle :=
    NamedAngles.exists_rotationAngle? ((h.angle_iff (by omega)).mpr hkind) (h.known (by omega))
  cases kind with
  | h => exact ⟨_, .fixed .h⟩
  | x => exact ⟨_, .fixed .x⟩
  | y => exact ⟨_, .fixed .y⟩
  | z => exact ⟨_, .fixed .z⟩
  | measure => exact ⟨_, .measure⟩
  | rx =>
      obtain ⟨angle, hangle⟩ := hrotation (by decide)
      exact ⟨_, .rotation .x hangle⟩
  | ry =>
      obtain ⟨angle, hangle⟩ := hrotation (by decide)
      exact ⟨_, .rotation .y hangle⟩
  | rz =>
      obtain ⟨angle, hangle⟩ := hrotation (by decide)
      exact ⟨_, .rotation .z hangle⟩
  | cx =>
      obtain ⟨c, t, rfl, rfl⟩ := h.operands (by omega) (by decide)
      exact ⟨_, .cx⟩
  | cp =>
      obtain ⟨c, t, rfl, rfl⟩ := h.operands (by omega) (by decide)
      obtain ⟨theta, htheta⟩ := h.theta hplace rfl
      exact ⟨_, .cp htheta⟩
  | swap =>
      obtain ⟨a, b, rfl⟩ := List.length_eq_two.mp (h.targetCount (by omega) rfl)
      exact ⟨_, .swap⟩

end KeptBefore

/-! ## The gate that is put together -/

theorem kind?_of_assembled (h : Assembled params kind targets control g) : g.kind? = some kind := by
  cases h <;> rfl

/-- The angle of the gate is the chosen one. -/
theorem radians?_of_assembled (h : Assembled params kind targets control g) {angle : Angle}
    (hkind : kind ∈ [.rx, .ry, .rz, .cp]) (hchosen : Chosen kind params angle) :
    g.radians? = some angle.value := by
  cases h with
  | fixed kind => cases kind <;> simp [FixedKind.kind] at hkind
  | rotation axis hangle =>
      rw [rotationAngle?_of_chosen hchosen, Option.some.injEq] at hangle
      rw [hangle]
      rfl
  | cp htheta =>
      rw [value?_of_chosen_cp hchosen, Option.some.injEq] at htheta
      rw [htheta]
      rfl
  | _ => simp at hkind

/-- An angle that the gate has is the chosen one. -/
theorem exists_chosen_of_assembled (h : Assembled params kind targets control g) {value : Binary64}
    (hvalue : g.radians? = some value) : ∃ name, Chosen kind params ⟨name, value⟩ := by
  cases h with
  | @rotation axis angle targets control hangle =>
      have hcp : axis.kind ≠ .cp := by cases axis <;> decide
      cases hvalue
      exact ⟨angle.name, chosen_of_rotationAngle? hcp hangle⟩
  | cp htheta =>
      cases hvalue
      exact ⟨.theta, .theta (NamedAngles.value?_eq_some_iff.mp htheta)⟩
  | _ => cases hvalue

theorem fault?_of_nonFinite {value : Binary64} (h : g.radians? = some value)
    (hvalue : value.isFinite = false) : g.fault? = some (.nonFiniteAngle value) := by
  simp [fault?, angleFault?, h, hvalue]

theorem angleFault?_eq_none (h : ∀ value, g.radians? = some value → value.isFinite = true) :
    g.angleFault? = none := by
  unfold angleFault?
  cases hvalue : g.radians? with
  | none => rfl
  | some value => exact if_pos (h value hvalue)

/-- Where the angles are finite, the fault of the gate is one of its operands. -/
theorem KeptBefore.fault?_eq (h : KeptBefore kind targets control params place) (hplace : 6 < place)
    (hassembled : Assembled params kind targets control g) : g.fault? = g.operandFault? := by
  have hnone : g.angleFault? = none := by
    apply angleFault?_eq_none
    intro value hvalue
    obtain ⟨name, hchosen⟩ := exists_chosen_of_assembled hassembled hvalue
    exact h.finite hplace hchosen
  rw [fault?, hnone, Option.none_or]

theorem operandFault?_of_controlled {q : Qubit} (h : Assembled params kind [q] (some q) g)
    (hkind : kind ∈ [.cx, .cp]) : g.operandFault? = some (.controlIsTarget q) := by
  cases h with
  | fixed kind => cases kind <;> simp [FixedKind.kind] at hkind
  | rotation axis hangle => cases axis <;> simp [Axis.kind] at hkind
  | measure => simp at hkind
  | cx => exact if_pos rfl
  | cp htheta => exact if_pos rfl

theorem operandFault?_of_swap {q : Qubit} (h : Assembled params kind [q, q] control g)
    (hkind : kind = .swap) : g.operandFault? = some (.duplicateTarget q) := by
  cases h with
  | fixed kind => cases kind <;> cases hkind
  | rotation axis hangle => cases axis <;> cases hkind
  | measure => cases hkind
  | swap => exact if_pos rfl

theorem ofParts_of_fault? (hparts : partsFault? kind targets control params = none)
    (hassembled : Assembled params kind targets control g) (hfault : g.fault? = some fault) :
    ofParts kind targets control params = .error (.invalidGate kind.name fault) := by
  simp only [ofParts, hparts, assemble_of_assembled hassembled, validate, hfault,
    name_of_kind? (kind?_of_assembled hassembled)]

/-! ## The answer -/

theorem ofParts_of_partsFault? (h : partsFault? kind targets control params = some fault) :
    ofParts kind targets control params = .error (.invalidGate kind.name fault) := by
  simp only [ofParts, h]

theorem ofParts_of_assemble (hparts : partsFault? kind targets control params = none)
    (h : assemble kind targets control params = .error fault) :
    ofParts kind targets control params = .error (.invalidGate kind.name fault) := by
  simp only [ofParts, hparts, h]

/-- Too few or too many targets are noticed when the operands are taken. -/
theorem assemble_of_targetCount {expected : Nat}
    (hcontrol : control ≠ none ↔ kind ∈ [.cx, .cp]) (hcount : kind.targetCount? = some expected)
    (hne : targets.length ≠ expected) :
    assemble kind targets control params = .error (.targetCount expected targets.length) := by
  -- the two controlled kinds look at their operands in one way
  have hoperands (hkind : kind ∈ [.cx, .cp]) (hone : targets.length ≠ 1) :
      controlledOperands targets control = .error (.targetCount 1 targets.length) := by
    obtain ⟨c, rfl⟩ := Option.ne_none_iff_exists'.mp (hcontrol.mpr hkind)
    unfold controlledOperands
    split
    · exact absurd rfl hone
    · next heq _ => cases heq; rfl
    · next heq => cases heq
  cases kind with
  | cx =>
      cases hcount
      simp only [assemble, hoperands (by decide) hne]
      rfl
  | cp =>
      cases hcount
      simp only [assemble, hoperands (by decide) hne]
      rfl
  | swap =>
      cases hcount
      simp only [assemble]
      split
      · exact absurd rfl hne
      · rfl
  | _ => cases hcount

/-- Of the rules that the parts break, the one in the first place is reported. -/
theorem ofParts_of_firstMisfit (h : FirstMisfit kind targets control params place fault) :
    ofParts kind targets control params = .error (.invalidGate kind.name fault) := by
  obtain ⟨hmisfit, hkept⟩ := h
  cases hmisfit with
  | emptyTargets hnil =>
      apply ofParts_of_partsFault?
      rw [partsFault?, if_pos hnil]
  | unknownParam hparams hbefore hname =>
      apply ofParts_of_partsFault?
      have hunknown := NamedAngles.unknown?_eq_some_iff.mpr ⟨_, _, _, hparams, hbefore, hname⟩
      simp only [partsFault?, if_neg (hkept.nonempty (by omega)), hunknown]
  | missingParams hkind hnil =>
      apply ofParts_of_partsFault?
      rw [hkept.partsFault?_eq (by omega), if_pos ⟨takesAngle_iff.mpr hkind, hnil⟩]
  | unexpectedParams hkind hparams =>
      apply ofParts_of_partsFault?
      have htakes : ¬ kind.takesAngle = true := fun h => hkind (takesAngle_iff.mp h)
      rw [hkept.partsFault?_eq (by omega), if_neg fun h => htakes h.1, if_pos ⟨htakes, hparams⟩]
  | missingControl hkind hnone =>
      apply ofParts_of_partsFault?
      rw [hkept.partsFault?_eq_control (by omega), if_pos ⟨takesControl_iff.mpr hkind, hnone⟩]
  | unexpectedControl hkind hcontrol =>
      apply ofParts_of_partsFault?
      have htakes : ¬ kind.takesControl = true := fun h => hkind (takesControl_iff.mp h)
      rw [hkept.partsFault?_eq_control (by omega), if_neg fun h => htakes h.1, if_pos ⟨htakes, hcontrol⟩]
  | targetCount hcount hne =>
      apply ofParts_of_assemble (hkept.partsFault?_eq_none (by omega))
      exact assemble_of_targetCount (hkept.control_iff (by omega)) hcount hne
  | missingTheta hkind hnone =>
      subst hkind
      obtain ⟨c, t, rfl, rfl⟩ := hkept.operands (by omega) (by decide)
      apply ofParts_of_assemble (hkept.partsFault?_eq_none (by omega))
      have hvalue := NamedAngles.value?_eq_none_iff.mpr hnone
      simp [assemble, controlledOperands, hvalue, bind, Except.bind]
  | nonFiniteAngle hchosen hvalue =>
      obtain ⟨g, hg⟩ := hkept.exists_assembled (by omega)
      have hkind := (hkept.angle_iff (by omega)).mp (ne_nil_of_chosen hchosen)
      apply ofParts_of_fault? (hkept.partsFault?_eq_none (by omega)) hg
      exact fault?_of_nonFinite (radians?_of_assembled hg hkind hchosen) hvalue
  | @controlIsTarget q hcontrol hmem =>
      obtain ⟨g, hg⟩ := hkept.exists_assembled (by omega)
      apply ofParts_of_fault? (hkept.partsFault?_eq_none (by omega)) hg
      rw [hkept.fault?_eq (by omega) hg]
      -- a control was given, so the gate is a controlled one, and the control is its only target
      have hne : control ≠ none := by
        rw [hcontrol]
        exact Option.some_ne_none q
      obtain ⟨c, t, rfl, rfl⟩ := hkept.operands (by omega) ((hkept.control_iff (by omega)).mp hne)
      cases hcontrol
      obtain rfl := List.mem_singleton.mp hmem
      exact operandFault?_of_controlled hg ((hkept.control_iff (by omega)).mp hne)
  | duplicateTarget hkind htargets =>
      obtain ⟨g, hg⟩ := hkept.exists_assembled (by omega)
      apply ofParts_of_fault? (hkept.partsFault?_eq_none (by omega)) hg
      rw [hkept.fault?_eq (by omega) hg]
      subst htargets
      exact operandFault?_of_swap hg hkind

/-- Parts that fit are put together. -/
theorem ofParts_of_fit (h : PartsFit kind targets control params) :
    ∃ g, ofParts kind targets control params = .ok g := by
  have hkept : KeptBefore kind targets control params 8 := fun _ _ hmisfit =>
    absurd hmisfit h.not_misfit
  obtain ⟨g, hg⟩ := hkept.exists_assembled (by omega)
  refine ⟨g, ofParts_eq_ok_iff.mpr ⟨hkept.partsFault?_eq_none (by omega),
    assemble_of_assembled hg, ?_⟩⟩
  -- what is left of the checks is that the operands are there and apart
  rw [hkept.fault?_eq (by omega) hg]
  have hnonempty := h.nonempty
  have hapart := h.apart
  have hdistinct := h.distinct
  cases hg with
  | @cx c t =>
      have hne : c ≠ t := by
        rintro rfl
        exact hapart c rfl List.mem_cons_self
      exact if_neg hne
  | @cp theta c t htheta =>
      have hne : c ≠ t := by
        rintro rfl
        exact hapart c rfl List.mem_cons_self
      exact if_neg hne
  | @swap a b =>
      have hne : a ≠ b := by
        rintro rfl
        simpa using hdistinct rfl
      exact if_neg hne
  | _ => exact if_neg hnonempty

/-- Parts fit exactly if they break no rule. -/
theorem partsFit_iff :
    PartsFit kind targets control params ↔
      ∀ place fault, ¬ Misfit kind targets control params place fault := by
  constructor
  · intro h place fault
    exact h.not_misfit
  · intro h
    -- without a misfit every rule is kept, up to the last place
    have hkept : KeptBefore kind targets control params 8 := fun _ _ hmisfit =>
      absurd hmisfit (h _ _)
    refine ⟨hkept.nonempty (by omega), hkept.known (by omega), hkept.angle_iff (by omega),
      hkept.control_iff (by omega), ?_, ?_, ?_, ?_, ?_, ?_⟩
    · intro hkind
      obtain ⟨c, t, -, rfl⟩ := hkept.operands (by omega) hkind
      rfl
    · intro hkind
      subst hkind
      exact hkept.targetCount (by omega) rfl
    · intro hkind
      obtain ⟨value, hvalue⟩ := hkept.theta (by omega) hkind
      obtain ⟨before, after, rfl, -⟩ := NamedAngles.value?_eq_some_iff.mp hvalue
      exact ⟨_, List.mem_append_right _ List.mem_cons_self, rfl⟩
    · intro angle hchosen
      exact hkept.finite (by omega) hchosen
    · intro q hcontrol hmem
      exact h _ _ (.controlIsTarget hcontrol hmem)
    · intro hkind
      subst hkind
      obtain ⟨a, b, rfl⟩ := List.length_eq_two.mp (hkept.targetCount (by omega) rfl)
      simp only [List.nodup_cons, List.mem_singleton, List.not_mem_nil, not_false_eq_true,
        List.nodup_nil, and_true]
      rintro rfl
      exact h _ _ (.duplicateTarget rfl rfl)

/-- **Loose parts are put together exactly if they fit the kind, and otherwise the fault of the first rule
that they break is reported under the name of the kind.** The rules come in this order: targets, names,
angles or none, control or none, number of targets, `theta` of a controlled phase, finite angle, operands
that differ. -/
theorem ofParts_answer (kind : GateKind) (targets : List Qubit) (control : Option Qubit)
    (params : NamedAngles) :
    ((∃ g, ofParts kind targets control params = .ok g) ↔ PartsFit kind targets control params) ∧
      ∀ e, ofParts kind targets control params = .error e ↔
        ∃ place fault, FirstMisfit kind targets control params place fault ∧
          e = .invalidGate kind.name fault := by
  by_cases hfit : PartsFit kind targets control params
  · -- fitting parts have no misfit, so there is none to report
    obtain ⟨g, hg⟩ := ofParts_of_fit hfit
    refine ⟨⟨fun _ => hfit, fun _ => ⟨g, hg⟩⟩, ?_⟩
    intro e
    constructor
    · intro he
      rw [hg] at he
      cases he
    · rintro ⟨place, fault, hfirst, -⟩
      exact absurd hfirst.1 hfit.not_misfit
  · -- of the misfits, the one at the least place is reported
    have hmisfit : ∃ place fault, Misfit kind targets control params place fault := by
      simpa [partsFit_iff] using hfit
    obtain ⟨place, fault, hmisfit⟩ := hmisfit
    obtain ⟨place, fault, hfirst⟩ := exists_firstMisfit hmisfit
    have herror := ofParts_of_firstMisfit hfirst
    constructor
    · refine ⟨?_, fun h => absurd h hfit⟩
      rintro ⟨g, hg⟩
      rw [herror] at hg
      cases hg
    · intro e
      constructor
      · intro he
        rw [herror] at he
        exact ⟨place, fault, hfirst, (Except.error.inj he).symm⟩
      · rintro ⟨place', fault', hfirst', rfl⟩
        exact ofParts_of_firstMisfit hfirst'

/-- A control that is not taken comes before the target that is missing. -/
example : ofParts .swap [1] (some 1) [] = .error (.invalidGate "swap" .unexpectedControl) := rfl

end Gate

end QCircuit
