import QCircuit.Proofs.Words.Generators

/-!
# What a generator answers by itself

A generator that is asked directly has no sizing before it, so every register comes to it, also one without
qubits or with a single one. Searches and eigensolvers take every register with a qubit
(`Generate.exists_direct_of_pos`), a period finding every one with two (`Generate.exists_direct_shor`), and
an optimization every one with a qubit on which its edges are sound (`Generate.exists_direct_qaoa`). Every
other register is refused, each for a reason of its own. On words of 32 bits nothing of this is different
(`Generate.direct_answer`).
-/

set_option autoImplicit false

namespace QCircuit.Generate

variable {σ : Type} {source : AngleSource σ} {settings : Settings} {edges : Option (List Edge)}
  {width : Nat} {s : σ}

/-! ## Outcomes -/

/-- Of two outcomes that exclude each other the one with a circuit tells which it is. -/
theorem exists_ok_iff {p : Prop} {answer : Except GenerationError Circuit}
    (hok : p → ∃ c, answer = .ok c) (herr : ¬ p → ∃ e, answer = .error e) :
    (∃ c, answer = .ok c) ↔ p := by
  refine ⟨?_, hok⟩
  rintro ⟨c, hc⟩
  refine Classical.byContradiction fun hp => ?_
  obtain ⟨e, he⟩ := herr hp
  rw [hc] at he
  cases he

theorem direct_zero {family : Family} (hf : family = .grover ∨ family = .vqe ∨ family = .qaoa) :
    (direct source family 0 edges settings s).1 = .error (.circuit (.zeroQubits family.title)) := by
  rcases hf with rfl | rfl | rfl <;> rfl

/-- A search and an eigensolver are made on every register with a qubit. -/
theorem exists_direct_of_pos (h : source.WithinTurn) {family : Family}
    (hf : family = .grover ∨ family = .vqe) (hw : 0 < width) :
    ∃ c, (direct source family width edges settings s).1 = .ok c := by
  rcases hf with rfl | rfl
  · rw [direct, Grover.circuit_eq hw]
    exact ⟨_, rfl⟩
  · rw [direct, Vqe.circuit_eq h hw]
    exact ⟨_, rfl⟩

theorem exists_direct_shor (hw : 2 ≤ Shor.fullWidth width settings) :
    ∃ c, (direct source .shor width edges settings s).1 = .ok c := by
  rw [direct, Shor.circuit_eq hw]
  exact ⟨_, rfl⟩

theorem direct_shor_zero (hw : Shor.fullWidth width settings = 0) :
    (direct source .shor width edges settings s).1 =
      .error (.circuit (.zeroQubits Family.shor.title)) := by
  rw [direct, Shor.circuit, hw]
  rfl

/-- On one qubit there is no control qubit, and nothing is left to be measured. -/
theorem direct_shor_one (hw : Shor.fullWidth width settings = 1) :
    (direct source .shor width edges settings s).1 =
      .error (.circuit (.invalidGate "measure" .emptyTargets)) := by
  rw [direct, Shor.circuit, hw]
  rfl

theorem exists_direct_qaoa (h : source.WithinTurn) (hw : 0 < width) {pairs : List (Qubit × Qubit)}
    (hpairs : Graph.edges width edges = .ok pairs) :
    ∃ c, (direct source .qaoa width edges settings s).1 = .ok c := by
  rw [direct, Qaoa.circuit_eq h hw hpairs]
  exact ⟨_, rfl⟩

theorem direct_qaoa_fault (hw : 0 < width) {fault : InputFault}
    (hfault : Graph.edges width edges = .error fault) :
    (direct source .qaoa width edges settings s).1 = .error (.invalidInput fault) := by
  simp only [direct, Qaoa.circuit, if_neg (Nat.ne_of_gt hw), hfault]

/-! ## The answer -/

/-- **A generator that is asked directly answers on every register or says why not**: a search and an
eigensolver need a qubit; a period finding needs two, its settings may give them, and on a single one it is
the measurement that is refused; an optimization needs a qubit and then sound edges. With every operation
on words checked, each of them comes to the same end. -/
theorem direct_answer (h : source.WithinTurn) (hbounded : settings.Bounded) (width : UInt32)
    (edges : Option (List Edge)) (s : σ) :
    (∀ family, wordDirect source family width edges settings s =
      some (direct source family width.toNat edges settings s)) ∧
    (∀ family, family = .grover ∨ family = .vqe →
      ((∃ c, (direct source family width.toNat edges settings s).1 = .ok c) ↔ 1 ≤ width.toNat) ∧
      (width.toNat = 0 → (direct source family width.toNat edges settings s).1 =
        .error (.circuit (.zeroQubits family.title)))) ∧
    (∀ full, full = max width.toNat settings.shorMinQubits.toNat →
      ((∃ c, (direct source .shor width.toNat edges settings s).1 = .ok c) ↔ 2 ≤ full) ∧
      (full = 0 → (direct source .shor width.toNat edges settings s).1 =
        .error (.circuit (.zeroQubits Family.shor.title))) ∧
      (full = 1 → (direct source .shor width.toNat edges settings s).1 =
        .error (.circuit (.invalidGate "measure" .emptyTargets)))) ∧
    (width.toNat = 0 → (direct source .qaoa width.toNat edges settings s).1 =
      .error (.circuit (.zeroQubits Family.qaoa.title))) ∧
    (0 < width.toNat →
      ((∃ c, (direct source .qaoa width.toNat edges settings s).1 = .ok c) ↔
        ∃ pairs, Graph.edges width.toNat edges = .ok pairs) ∧
      ∀ fault, Graph.edges width.toNat edges = .error fault →
        (direct source .qaoa width.toNat edges settings s).1 = .error (.invalidInput fault)) := by
  refine ⟨?_, ?_, ?_, ?_, ?_⟩
  · intro family
    exact wordDirect_eq h family width edges hbounded s
  · intro family hf
    have hzero : width.toNat = 0 → (direct source family width.toNat edges settings s).1 =
        .error (.circuit (.zeroQubits family.title)) := by
      intro hw
      rw [hw]
      exact direct_zero (hf.imp_right Or.inl)
    refine ⟨exists_ok_iff (exists_direct_of_pos h hf) ?_, hzero⟩
    intro hw
    exact ⟨_, hzero (by omega)⟩
  · rintro full rfl
    refine ⟨exists_ok_iff exists_direct_shor ?_, direct_shor_zero, direct_shor_one⟩
    intro hw
    -- below two qubits there is one or none, and each has an error of its own
    rcases Nat.lt_or_ge (Shor.fullWidth width.toNat settings) 1 with hnone | hone
    · exact ⟨_, direct_shor_zero (Nat.lt_one_iff.mp hnone)⟩
    · exact ⟨_, direct_shor_one (Nat.le_antisymm (Nat.le_of_lt_succ (Nat.lt_of_not_le hw)) hone)⟩
  · intro hw
    rw [hw]
    exact direct_zero (Or.inr (Or.inr rfl))
  · intro hw
    constructor
    · apply exists_ok_iff
      · rintro ⟨pairs, hpairs⟩
        exact exists_direct_qaoa h hw hpairs
      · intro hnone
        cases hedges : Graph.edges width.toNat edges with
        | ok pairs => exact absurd ⟨pairs, hedges⟩ hnone
        | error fault => exact ⟨_, direct_qaoa_fault hw hedges⟩
    · intro fault hfault
      exact direct_qaoa_fault hw hfault

/-- Control: an eigensolver on the widest register, a period finding on a single qubit, and an optimization
on none with an edge that is a loop. -/
theorem direct_answer_extremes :
    Xoshiro.angles.WithinTurn ∧ Settings.Bounded ⟨3, 1, 3, 2⟩ ∧
      (∃ c, (wordDirect Xoshiro.angles .vqe 4294967295 none ⟨3, 1, 3, 2⟩ (Xoshiro.ofSeed 7)).map
        Prod.fst = some (.ok c)) ∧
      (direct Xoshiro.angles .shor 1 none ⟨3, 1, 3, 2⟩ (Xoshiro.ofSeed 7)).1 =
        .error (.circuit (.invalidGate "measure" .emptyTargets)) ∧
      (direct Xoshiro.angles .qaoa 0 (some [.pair 5 5]) ⟨3, 1, 3, 2⟩ (Xoshiro.ofSeed 7)).1 =
        .error (.circuit (.zeroQubits "QAOA")) := by
  have h := Xoshiro.withinTurn_angles
  have hbounded : Settings.Bounded ⟨3, 1, 3, 2⟩ := by
    constructor <;> decide
  obtain ⟨hwords, hpositive, -⟩ := direct_answer h hbounded 4294967295 none (Xoshiro.ofSeed 7)
  obtain ⟨-, -, hperiod, -⟩ := direct_answer h hbounded 1 none (Xoshiro.ofSeed 7)
  obtain ⟨-, -, -, hnone, -⟩ := direct_answer h hbounded 0 (some [.pair 5 5]) (Xoshiro.ofSeed 7)
  obtain ⟨c, hc⟩ := (hpositive .vqe (Or.inr rfl)).1.mpr (by decide)
  refine ⟨h, hbounded, ⟨c, ?_⟩, (hperiod 1 rfl).2.2 rfl, hnone rfl⟩
  rw [hwords, Option.map_some, hc]

end QCircuit.Generate
