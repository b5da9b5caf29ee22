import QCircuit.Proofs.Generate.Gates
import QCircuit.Proofs.Problem.Sizing

/-!
# Which requests are granted

A named request is granted exactly when its identifier is a family's, its settings are bounded, its item
count is positive or missing, and, for an optimization, its edges are sound on the width that the sizing
chooses (`Generate.Granted`). Every other one is refused for the first of these that fails
(`Generate.Refused`); no generator fails on a request that gets as far as it.
-/

set_option autoImplicit false

namespace QCircuit

/-! ## The checks -/

/-- All knobs are within their bounds. -/
structure Settings.Bounded (s : Settings) : Prop where
  grover : s.groverMaxIterations.toNat ≤ 64
  shor : s.shorMinQubits.toNat ≤ 128
  vqe : s.vqeLayers.toNat ≤ 64
  qaoa : s.qaoaLayers.toNat ≤ 64

theorem Settings.excess?_eq_none_iff (s : Settings) : s.excess? = none ↔ s.Bounded := by
  simp only [excess?, knobs, maxLayers, maxShorQubits, List.find?_eq_none, List.forall_mem_cons,
    List.not_mem_nil, false_implies, implies_true, decide_eq_true_eq, Nat.not_lt, and_true]
  constructor
  · rintro ⟨h1, h2, h3, h4⟩
    exact ⟨h1, h2, h3, h4⟩
  · rintro ⟨h1, h2, h3, h4⟩
    exact ⟨h1, h2, h3, h4⟩

/-- The knob that is reported is above its bound, and no knob before it is. -/
theorem Settings.excess_of_excess? {s : Settings} {excess : Settings.Excess}
    (h : s.excess? = some excess) :
    ∃ before after, s.knobs = before ++ excess :: after ∧
      (∀ knob ∈ before, knob.value ≤ knob.bound) ∧ excess.bound < excess.value := by
  obtain ⟨habove, before, after, hknobs, hbefore⟩ := List.find?_eq_some_iff_append.mp h
  refine ⟨before, after, hknobs, fun knob hk => ?_, of_decide_eq_true habove⟩
  simpa using hbefore knob hk

namespace Family

/-- The identifier is the family's, in letters of either case. -/
def Named (family : Family) (id : String) : Prop := AsciiCase.fold family.id = AsciiCase.fold id

instance (family : Family) (id : String) : Decidable (family.Named id) :=
  inferInstanceAs (Decidable (_ = _))

theorem eq_of_named {family other : Family} {id : String} (h : family.Named id)
    (h' : other.Named id) : family = other := by
  have heq : AsciiCase.fold family.id = AsciiCase.fold other.id := Eq.trans h (Eq.symm h')
  revert heq
  cases family <;> cases other <;> decide

theorem named_of_ofId? {family : Family} {id : String} (h : ofId? id = some family) :
    family.Named id := by
  have hs := List.find?_some h
  show AsciiCase.fold family.id = AsciiCase.fold id
  simpa only [AsciiCase.same, decide_eq_true_eq] using hs

theorem ofId?_of_named {family : Family} {id : String} (h : family.Named id) :
    ofId? id = some family := by
  cases ho : ofId? id with
  | some other => rw [eq_of_named h (named_of_ofId? ho)]
  | none =>
      have hn := List.find?_eq_none.mp ho family (mem_all family)
      exact absurd (decide_eq_true (show AsciiCase.fold family.id = AsciiCase.fold id from h)) hn

theorem not_named_of_ofId? {id : String} (h : ofId? id = none) (family : Family) :
    ¬ family.Named id := by
  intro hn
  rw [ofId?_of_named hn] at h
  cases h

end Family

namespace Sizing

/-- The item count is missing or positive. -/
def Countable (p : Problem) : Prop := ∀ n, p.numItems = some n → 0 < n.toInt

theorem widthFor_of_countable (family : Family) {p : Problem} (h : Countable p) :
    ∃ width, family.widthFor p = .ok width ∧ 2 ≤ width ∧ width ≤ 63 := by
  cases hn : p.numItems with
  | some n =>
      obtain ⟨width, hw, hbounds⟩ := forItems_of_pos (h n hn)
      exact ⟨width, by rw [Family.widthFor, forProblem, hn]; exact hw, hbounds⟩
  | none =>
      refine ⟨family.defaultWidth, by rw [Family.widthFor, forProblem, hn], ?_⟩
      cases family <;> decide

theorem widthFor_of_not_countable (family : Family) {p : Problem} (h : ¬ Countable p) :
    ∃ n, p.numItems = some n ∧ n.toInt ≤ 0 ∧
      family.widthFor p = .error (.itemsNotPositive n) := by
  cases hn : p.numItems with
  | none =>
      refine absurd (fun n h' => ?_) h
      rw [hn] at h'
      cases h'
  | some n =>
      have hle : n.toInt ≤ 0 := by
        refine Int.not_lt.mp fun hpos => h fun m hm => ?_
        rw [hn] at hm
        cases hm
        exact hpos
      exact ⟨n, rfl, hle, by rw [Family.widthFor, forProblem, hn]; exact if_pos hle⟩

end Sizing

namespace Generate

variable {id : String} {problem : Problem} {settings : Settings}

/-- The edges of an optimization are sound on the width that the sizing chooses. The other families
look at no edges. -/
def SoundEdges (family : Family) (problem : Problem) : Prop :=
  family = .qaoa → ∀ edges width, problem.edges = some edges →
    family.widthFor problem = .ok width → ∀ edge ∈ edges, edge.Joins width

/-- What a request has to meet. -/
def Granted (id : String) (problem : Problem) (settings : Settings) : Prop :=
  ∃ family : Family, family.Named id ∧ settings.Bounded ∧ Sizing.Countable problem ∧
    SoundEdges family problem

/-- Why a request is refused: the first of the checks that fails, each reported with the first value
that fails it. -/
inductive Refused (id : String) (problem : Problem) (settings : Settings) : GenerationError → Prop
  | unknown : (∀ family : Family, ¬ family.Named id) →
      Refused id problem settings (.unknownFamily id)
  | unbounded {family : Family} {before after : List Settings.Excess} {excess : Settings.Excess} :
      family.Named id → settings.knobs = before ++ excess :: after →
      (∀ knob ∈ before, knob.value ≤ knob.bound) → excess.bound < excess.value →
      Refused id problem settings (.invalidInput (.settingTooLarge excess))
  | uncountable {family : Family} {n : Int64} :
      family.Named id → settings.Bounded → problem.numItems = some n → n.toInt ≤ 0 →
      Refused id problem settings (.invalidInput (.itemsNotPositive n))
  | unsound {width : Nat} {before after : List Edge} {edge : Edge} {fault : InputFault} :
      Family.qaoa.Named id → settings.Bounded → Sizing.Countable problem →
      Family.qaoa.widthFor problem = .ok width → problem.edges = some (before ++ edge :: after) →
      (∀ earlier ∈ before, earlier.Joins width) → edge.Flaw width fault →
      Refused id problem settings (.invalidInput fault)

theorem Refused.not_granted {e : GenerationError} (h : Refused id problem settings e) :
    ¬ Granted id problem settings := by
  rintro ⟨family, hn, hb, hc, hs⟩
  cases h with
  | unknown hu => exact hu family hn
  | unbounded _ hknobs hbefore habove =>
      have hnone := settings.excess?_eq_none_iff.mpr hb
      rw [Settings.excess?, hknobs, List.find?_eq_none] at hnone
      exact hnone _ (by simp) (decide_eq_true habove)
  | uncountable _ _ hi hle =>
      have hpos := hc _ hi
      omega
  | @unsound width before after edge fault hq _ _ hw he _ hf =>
      have hq' := Family.eq_of_named hn hq
      subst hq'
      exact hf.not_joins (hs rfl _ width he hw edge (by simp))

/-- No gate was refused: only a gate or an empty register gives that error. -/
theorem Refused.ne_circuit {e : GenerationError} (h : Refused id problem settings e)
    (error : CircuitError) : e ≠ .circuit error := by
  cases h <;> exact GenerationError.noConfusion

/-- The checks before the generators. -/
theorem accept_cases (id : String) (problem : Problem) (settings : Settings) :
    (∃ family width, family.Named id ∧ settings.Bounded ∧ Sizing.Countable problem ∧
        family.widthFor problem = .ok width ∧ 2 ≤ width ∧ width ≤ 63 ∧
        accept id problem settings = .ok (family, width)) ∨
      ∃ e, Refused id problem settings e ∧ accept id problem settings = .error e := by
  -- the checks one after another: the identifier, the knobs, the item count
  cases hf : Family.ofId? id with
  | none =>
      exact Or.inr ⟨_, .unknown (Family.not_named_of_ofId? hf), by simp only [accept, hf]⟩
  | some family =>
      have hn := Family.named_of_ofId? hf
      cases he : settings.excess? with
      | some excess =>
          obtain ⟨before, after, hknobs, hbefore, habove⟩ := Settings.excess_of_excess? he
          exact Or.inr ⟨_, .unbounded hn hknobs hbefore habove, by simp only [accept, hf, he]⟩
      | none =>
          have hb := settings.excess?_eq_none_iff.mp he
          by_cases hc : Sizing.Countable problem
          · obtain ⟨width, hw, hlow, hhigh⟩ := Sizing.widthFor_of_countable family hc
            exact Or.inl ⟨family, width, hn, hb, hc, hw, hlow, hhigh,
              by simp only [accept, hf, he, hw]⟩
          · obtain ⟨n, hi, hle, hw⟩ := Sizing.widthFor_of_not_countable family hc
            exact Or.inr ⟨_, .uncountable hn hb hi hle, by simp only [accept, hf, he, hw]⟩

variable {σ : Type} {source : AngleSource σ}

/-- A graph on the width that the sizing chooses is sound, or the generator reports its first flaw. -/
theorem edges_cases {width : Nat} (hlow : 2 ≤ width) (hhigh : width ≤ 63)
    (edges : Option (List Edge)) :
    (∃ pairs, Graph.edges width edges = .ok pairs ∧
        ∀ list, edges = some list → ∀ edge ∈ list, edge.Joins width) ∨
      ∃ before edge after fault, edges = some (before ++ edge :: after) ∧
        (∀ earlier ∈ before, earlier.Joins width) ∧ edge.Flaw width fault ∧
        Graph.edges width edges = .error fault := by
  cases edges with
  | none =>
      -- the ring of two qubits or more is sound, so missing edges are never reported
      have hring : ∀ edge ∈ Graph.ring width, edge.Joins width :=
        fun edge => Graph.joins_of_mem_ring hlow (by omega)
      exact Or.inl ⟨_, Graph.mapM_join_of_joins hring, fun list hl => by cases hl⟩
  | some edges =>
      rcases Graph.mapM_join_cases width edges with
        ⟨hall, hok⟩ | ⟨before, edge, after, fault, rfl, hbefore, hf, herr⟩
      · refine Or.inl ⟨_, hok, fun list hl => ?_⟩
        cases hl
        exact hall
      · exact Or.inr ⟨before, edge, after, fault, rfl, hbefore, hf, herr⟩

/-- The generators of four families fail on no register of two qubits or more. -/
theorem direct_of_ne_qaoa (h : source.WithinTurn) {family : Family} (hf : family ≠ .qaoa)
    {width : Nat} (hw : 2 ≤ width) (edges : Option (List Edge)) (settings : Settings) (s : σ) :
    ∃ c, (direct source family width edges settings s).1 = .ok c := by
  cases family with
  | bell => exact ⟨_, by rw [direct, Bell.circuit_eq]; rfl⟩
  | grover => exact ⟨_, by rw [direct, Grover.circuit_eq (by omega)]; rfl⟩
  | shor =>
      have hfull : 2 ≤ Shor.fullWidth width settings := Nat.le_trans hw (Nat.le_max_left _ _)
      exact ⟨_, by rw [direct, Shor.circuit_eq hfull]; rfl⟩
  | vqe => exact ⟨_, by rw [direct, Vqe.circuit_eq h (by omega)]; rfl⟩
  | qaoa => exact absurd rfl hf

theorem named_cases (h : source.WithinTurn) (id : String) (problem : Problem)
    (settings : Settings) (s : σ) :
    (Granted id problem settings ∧ ∃ c, (named source id problem settings s).1 = .ok c) ∨
      ∃ e, Refused id problem settings e ∧ (named source id problem settings s).1 = .error e := by
  rcases accept_cases id problem settings with
    ⟨family, width, hn, hb, hc, hw, hlow, hhigh, hok⟩ | ⟨e, hr, herr⟩
  · have hnamed : named source id problem settings s =
        direct source family width problem.edges settings s := by simp only [named, hok]
    rw [hnamed]
    by_cases hq : family = .qaoa
    · subst hq
      rcases edges_cases hlow hhigh problem.edges with
        ⟨pairs, hpairs, hall⟩ | ⟨before, edge, after, fault, he, hbefore, hf, herr⟩
      · -- the width is the one that the sizing chose, so these are the edges that have to be sound
        have hsound : SoundEdges .qaoa problem := by
          intro _ edges width' he hw'
          rw [hw] at hw'
          cases hw'
          exact hall edges he
        exact Or.inl ⟨⟨.qaoa, hn, hb, hc, hsound⟩, _,
          by rw [direct, Qaoa.circuit_eq h (by omega) hpairs]⟩
      · -- the first unsound edge is what is reported
        refine Or.inr ⟨_, .unsound hn hb hc hw he hbefore hf, ?_⟩
        have hpos : width ≠ 0 := by omega
        simp only [direct, Qaoa.circuit, if_neg hpos, herr]
    · -- the other families do not look at the edges
      exact Or.inl ⟨⟨family, hn, hb, hc, fun hq' => absurd hq' hq⟩, direct_of_ne_qaoa h hq hlow _ _ s⟩
  · exact Or.inr ⟨e, hr, by simp only [named, herr]⟩

/-- With angles drawn within a turn, a named request is answered with a circuit exactly when it is
granted; otherwise it is refused for the first check that fails, and never because a gate was. -/
theorem named_answer (source : AngleSource σ) (h : source.WithinTurn) (id : String)
    (problem : Problem) (settings : Settings) (s : σ) :
    ((∃ c, (named source id problem settings s).1 = .ok c) ↔ Granted id problem settings) ∧
      (∀ e, (named source id problem settings s).1 = .error e → Refused id problem settings e) ∧
      ∀ error, (named source id problem settings s).1 ≠ .error (.circuit error) := by
  rcases named_cases h id problem settings s with ⟨hg, c, hc⟩ | ⟨e, hr, he⟩
  · rw [hc]
    refine ⟨⟨fun _ => hg, fun _ => ⟨c, rfl⟩⟩, fun e he => ?_, fun error herr => ?_⟩
    · cases he
    · cases herr
  · rw [he]
    refine ⟨⟨fun ⟨c, hc⟩ => ?_, fun hg => absurd hg hr.not_granted⟩, fun e' he' => ?_,
      fun error herr => ?_⟩
    · cases hc
    · cases he'
      exact hr
    · cases herr
      exact hr.ne_circuit error rfl

/-- Control: five items take three qubits, on which the last vertex is joined to the first, so the
generator of xoshiro256++ angles is asked and answers; without a family nothing else is looked at. -/
theorem named_answer_xoshiro :
    Xoshiro.angles.WithinTurn ∧
      (∃ c, (named Xoshiro.angles "qAoA" ⟨some 5, some [.pair 0 1, .vertex 2]⟩ Settings.usual
        (Xoshiro.ofSeed 7)).1 = .ok c) ∧
      ¬ ∃ c, (named Xoshiro.angles "simon" ⟨some 0, none⟩ ⟨65, 0, 0, 0⟩
        (Xoshiro.ofSeed 7)).1 = .ok c := by
  have h := Xoshiro.withinTurn_angles
  refine ⟨h, (named_answer Xoshiro.angles h _ _ _ _).1.mpr ?_, fun hc => ?_⟩
  · refine ⟨.qaoa, by decide, ⟨by decide, by decide, by decide, by decide⟩, ?_, ?_⟩
    · intro n hn
      cases hn
      decide
    · intro _ edges width he hw
      have hthree : Family.qaoa.widthFor ⟨some 5, some [.pair 0 1, .vertex 2]⟩ = .ok 3 := rfl
      rw [hthree] at hw
      cases hw
      cases he
      simp only [List.forall_mem_cons, List.not_mem_nil, false_implies, implies_true, and_true]
      exact ⟨⟨by decide, by decide, by decide⟩, ⟨by decide, by decide, by decide⟩⟩
  · obtain ⟨family, hn, -⟩ := (named_answer Xoshiro.angles h _ _ _ _).1.mp hc
    revert hn
    cases family <;> decide

end Generate

end QCircuit
