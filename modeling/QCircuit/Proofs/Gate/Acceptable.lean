import QCircuit.Gate.Fault

/-!
# Acceptable gates

What a register of a given width asks of a gate, said shape by shape and without the order in which
the rules are checked, and what it means that a gate breaks the rule that a fault reports. A gate has
no fault on a register exactly when it is acceptable there (`Gate.faultIn?_eq_none_iff`), and a
reported fault is a rule that the gate breaks (`Gate.breaks_of_faultIn?`).
-/

set_option autoImplicit false

namespace QCircuit.Gate

/-- Qubits that are there at all and lie on the register. -/
def Placed (width : Nat) (qubits : List Qubit) : Prop := qubits ≠ [] ∧ ∀ q ∈ qubits, q < width

instance (width : Nat) (qubits : List Qubit) : Decidable (Placed width qubits) :=
  inferInstanceAs (Decidable (_ ∧ _))

/-- What a register asks of a gate. -/
def Acceptable (width : Nat) : Gate → Prop
  | .fixed _ targets => Placed width targets
  | .rotation _ angle targets => angle.value.isFinite ∧ Placed width targets
  | .cx control target => control ≠ target ∧ control < width ∧ target < width
  | .cp theta control target => theta.isFinite ∧ control ≠ target ∧ control < width ∧ target < width
  | .swap a b => a ≠ b ∧ a < width ∧ b < width
  | .measure targets => Placed width targets
  | .custom _ qubits _ => Placed width qubits

instance (width : Nat) : DecidablePred (Acceptable width)
  | .fixed _ targets => inferInstanceAs (Decidable (Placed width targets))
  | .rotation _ _ _ => inferInstanceAs (Decidable (_ ∧ _))
  | .cx _ _ => inferInstanceAs (Decidable (_ ∧ _))
  | .cp _ _ _ => inferInstanceAs (Decidable (_ ∧ _))
  | .swap _ _ => inferInstanceAs (Decidable (_ ∧ _))
  | .measure targets => inferInstanceAs (Decidable (Placed width targets))
  | .custom _ qubits _ => inferInstanceAs (Decidable (Placed width qubits))

/-- The gate breaks the rule that the fault reports. The faults of loose parts are no faults of a
gate. -/
inductive Breaks (width : Nat) (g : Gate) : Fault → Prop
  | emptyTargets : g.targets = [] → Breaks width g .emptyTargets
  | controlIsTarget {q : Qubit} :
      g.control? = some q → q ∈ g.targets → Breaks width g (.controlIsTarget q)
  | nonFiniteAngle {value : Binary64} :
      g.radians? = some value → value.isFinite = false → Breaks width g (.nonFiniteAngle value)
  | duplicateTarget {q : Qubit} : g = .swap q q → Breaks width g (.duplicateTarget q)
  | outOfRange {q : Qubit} : q ∈ g.qubits → width ≤ q → Breaks width g (.outOfRange q width)

variable {width : Nat} {g : Gate} {fault : Fault}

/-! ## One check after another -/

theorem breaks_of_angleFault? (h : g.angleFault? = some fault) : Breaks width g fault := by
  unfold angleFault? at h
  cases hr : g.radians? with
  | none => simp [hr] at h
  | some value =>
      cases hv : value.isFinite with
      | true => simp [hr, hv] at h
      | false =>
          simp only [hr, hv, Bool.false_eq_true, if_false, Option.some.injEq] at h
          subst h
          exact .nonFiniteAngle hr hv

theorem breaks_of_operandFault? (h : g.operandFault? = some fault) : Breaks width g fault := by
  -- every shape has one operand rule, so the fault tells the condition under which it is reported
  cases g <;>
    simp only [operandFault?, Option.ite_none_right_eq_some, Option.some.injEq] at h <;>
    obtain ⟨rfl, rfl⟩ := h
  case fixed kind => exact .emptyTargets rfl
  case rotation axis angle => exact .emptyTargets rfl
  case cx q => exact .controlIsTarget rfl List.mem_cons_self
  case cp theta q => exact .controlIsTarget rfl List.mem_cons_self
  case swap q => exact .duplicateTarget rfl
  case measure => exact .emptyTargets rfl
  case custom name params => exact .emptyTargets rfl

theorem breaks_of_rangeFault? (h : g.rangeFault? width = some fault) : Breaks width g fault := by
  simp only [rangeFault?, Option.map_eq_some_iff] at h
  obtain ⟨q, hq, rfl⟩ := h
  have hw := List.find?_some hq
  exact .outOfRange (List.mem_of_find?_eq_some hq) (by simpa using hw)

/-- A reported fault is a rule that the gate breaks. -/
theorem breaks_of_faultIn? (h : g.faultIn? width = some fault) : Breaks width g fault := by
  simp only [faultIn?, fault?, Option.or_eq_some_iff, Option.or_eq_none_iff] at h
  rcases h with (ha | ⟨-, ho⟩) | ⟨-, hr⟩
  · exact breaks_of_angleFault? ha
  · exact breaks_of_operandFault? ho
  · exact breaks_of_rangeFault? hr

/-! ## Against acceptance -/

theorem lt_of_mem_pair {a b q : Qubit} (ha : a < width) (hb : b < width) (hq : q ∈ [a, b]) :
    q < width := by
  rcases List.mem_cons.mp hq with rfl | hq
  · exact ha
  · rw [List.mem_singleton.mp hq]
    exact hb

/-- Every qubit of an acceptable gate lies on the register. -/
theorem lt_of_acceptable (h : g.Acceptable width) {q : Qubit} (hq : q ∈ g.qubits) : q < width := by
  cases g with
  | fixed kind targets => exact h.2 q hq
  | rotation axis angle targets => exact h.2.2 q hq
  | cx control target =>
      obtain ⟨-, hc, ht⟩ := h
      exact lt_of_mem_pair hc ht hq
  | cp theta control target =>
      obtain ⟨-, -, hc, ht⟩ := h
      exact lt_of_mem_pair hc ht hq
  | swap a b =>
      obtain ⟨-, ha, hb⟩ := h
      exact lt_of_mem_pair ha hb hq
  | measure targets => exact h.2 q hq
  | custom name qubits params => exact h.2 q hq

/-- A gate that breaks a rule is not acceptable. -/
theorem not_acceptable_of_breaks (h : Breaks width g fault) : ¬ g.Acceptable width := by
  intro ha
  cases h with
  | emptyTargets ht => cases g <;> simp_all [Acceptable, Placed, targets]
  | controlIsTarget hc ht => cases g <;> simp_all [Acceptable, control?, targets]
  | nonFiniteAngle hr hv => cases g <;> simp_all [Acceptable, radians?]
  | duplicateTarget hs =>
      subst hs
      exact ha.1 rfl
  | outOfRange hq hw => exact Nat.not_lt_of_le hw (lt_of_acceptable ha hq)

/-- A gate has no fault on a register exactly when it is acceptable there. -/
theorem faultIn?_eq_none_iff : g.faultIn? width = none ↔ g.Acceptable width := by
  constructor
  · intro h
    simp only [faultIn?, fault?, Option.or_eq_none_iff, rangeFault?, Option.map_eq_none_iff,
      List.find?_eq_none, decide_eq_true_eq, Nat.not_le] at h
    obtain ⟨⟨ha, ho⟩, hr⟩ := h
    -- each shape is asked for just the rules that its own checks have now passed
    cases g <;> simp_all [angleFault?, radians?, operandFault?, Acceptable, Placed]
  · intro h
    cases hf : g.faultIn? width with
    | none => rfl
    | some fault => exact absurd h (not_acceptable_of_breaks (breaks_of_faultIn? hf))

/-! ## Placed qubits -/

@[simp] theorem placed_singleton {q : Qubit} : Placed width [q] ↔ q < width := by simp [Placed]

theorem placed_range {count : Nat} (hpos : 0 < count) (hle : count ≤ width) :
    Placed width (List.range count) := by
  refine ⟨?_, fun q hq => Nat.lt_of_lt_of_le (List.mem_range.mp hq) hle⟩
  rw [Ne, List.range_eq_nil]
  omega

end QCircuit.Gate
