import QCircuit.Proofs.Circuit.Building
import QCircuit.Proofs.Circuit.Profile
import QCircuit.Proofs.Circuit.Tally
import QCircuit.Proofs.Circuit.Usage

/-!
# What a finished circuit says of its gates

Three accounts are kept of one row of gates: which qubits it uses, how often each name occurs, and how deep
it is. All of them are about the qubits that a gate refers to, be it as its control, as a target or as an
operand of a custom gate (`Gate.RefersTo`).

Each operation on a wire brings the wire at least one layer up (`Profile.add_countP_le_foldl_stack`), and
every gate that refers to a qubit has an operation on its wire. So a circuit is at least as deep as the
gates are many that refer to one qubit (`Circuit.countP_refersTo_le_depth`), and since a finished circuit
holds no gate without a qubit, only the one without gates has no depth (`Circuit.depth_eq_zero_iff`).
-/

set_option autoImplicit false

namespace QCircuit

/-! ## References -/

namespace Gate

/-- The gate has the qubit as its control, as a target or as an operand. -/
def RefersTo (q : Qubit) : Gate → Prop
  | .fixed _ targets => q ∈ targets
  | .rotation _ _ targets => q ∈ targets
  | .cx control target => q = control ∨ q = target
  | .cp _ control target => q = control ∨ q = target
  | .swap a b => q = a ∨ q = b
  | .measure targets => q ∈ targets
  | .custom _ operands _ => q ∈ operands

variable {q : Qubit} {g : Gate}

theorem mem_qubits_iff : q ∈ g.qubits ↔ g.RefersTo q := by
  cases g <;> simp [RefersTo]

instance (q : Qubit) : DecidablePred (RefersTo q) := fun _ => decidable_of_iff _ mem_qubits_iff

/-- An acceptable gate refers to some qubit. -/
theorem Acceptable.exists_refersTo {width : Nat} (h : g.Acceptable width) : ∃ q, g.RefersTo q := by
  have hplaced {qubits : List Qubit} (hp : Placed width qubits) : ∃ q, q ∈ qubits :=
    List.exists_mem_of_ne_nil qubits hp.1
  cases g with
  | fixed kind targets => exact hplaced h
  | rotation axis angle targets => exact hplaced h.2
  | cx control target => exact ⟨control, Or.inl rfl⟩
  | cp theta control target => exact ⟨control, Or.inl rfl⟩
  | swap a b => exact ⟨a, Or.inl rfl⟩
  | measure targets => exact hplaced h
  | custom name operands params => exact hplaced h

/-- A gate that refers to a qubit has an operation on its wire. -/
theorem RefersTo.countP_operations_pos (h : g.RefersTo q) :
    0 < g.operations.countP fun operation => q ∈ operation := by
  rw [← mem_qubits_iff, ← flatten_operations, List.mem_flatten] at h
  obtain ⟨operation, hmem, hq⟩ := h
  exact List.countP_pos_iff.mpr ⟨operation, hmem, decide_eq_true hq⟩

end Gate

/-- No more gates of a row refer to a qubit than there are operations on its wire. -/
theorem countP_refersTo_le (q : Qubit) (gates : List Gate) :
    (gates.countP fun g => g.RefersTo q) ≤
      (gates.flatMap Gate.operations).countP fun operation => q ∈ operation := by
  induction gates with
  | nil => exact Nat.le_refl 0
  | cons g rest ih =>
      rw [List.flatMap_cons, List.countP_append, List.countP_cons]
      by_cases h : g.RefersTo q
      · have hpos := h.countP_operations_pos
        rw [if_pos (decide_eq_true h)]
        omega
      · rw [if_neg fun hq => h (of_decide_eq_true hq)]
        omega

/-! ## Layers -/

namespace Profile

/-- An operation brings a wire that takes part one layer up or more, and lowers no other. -/
theorem add_le_stack (f : Profile) (operation : List Qubit) (q : Qubit) :
    f q + (if q ∈ operation then 1 else 0) ≤ f.stack operation q := by
  rw [stack]
  split
  · next hq =>
      have htop := (Heights.foldl_max_le_iff f operation 0 _).mp (Nat.le_refl (f.top operation))
      exact Nat.succ_le_succ (htop.2 q hq)
  · exact Nat.le_refl _

theorem add_countP_le_foldl_stack (f : Profile) (operations : List (List Qubit)) (q : Qubit) :
    f q + (operations.countP fun operation => q ∈ operation) ≤ operations.foldl stack f q := by
  induction operations generalizing f with
  | nil => exact Nat.le_refl _
  | cons operation rest ih =>
      have hfirst := f.add_le_stack operation q
      have hrest := ih (f.stack operation)
      rw [List.foldl_cons, List.countP_cons]
      simp only [decide_eq_true_eq]
      omega

end Profile

namespace Circuit

/-- A circuit is at least as deep as the gates are many that refer to one qubit. -/
theorem countP_refersTo_le_depth (c : Circuit) (q : Qubit) :
    (c.gates.countP fun g => g.RefersTo q) ≤ c.depth := by
  have hlayers := Profile.empty.add_countP_le_foldl_stack (c.gates.flatMap Gate.operations) q
  have hzero : Profile.empty q = 0 := rfl
  rw [hzero, Nat.zero_add] at hlayers
  calc (c.gates.countP fun g => g.RefersTo q)
      ≤ (c.gates.flatMap Gate.operations).countP fun operation => q ∈ operation :=
        countP_refersTo_le q c.gates
    _ ≤ Profile.empty.after c.gates q := hlayers
    _ ≤ c.depth := c.after_le_depth q

/-- Only the finished circuit without gates has no depth. -/
theorem depth_eq_zero_iff {c : Circuit} (hc : c.Finished) : c.depth = 0 ↔ c.gates = [] := by
  constructor
  · intro hdepth
    apply List.eq_nil_iff_forall_not_mem.mpr
    intro g hg
    -- a gate that is there refers to some qubit, and gives its wire a layer
    obtain ⟨q, hq⟩ := (hc.acceptable hg).exists_refersTo
    have hpos : 0 < c.gates.countP fun g => g.RefersTo q :=
      List.countP_pos_iff.mpr ⟨g, hg, decide_eq_true hq⟩
    have hle := c.countP_refersTo_le_depth q
    omega
  · intro hgates
    rw [depth, hgates]
    rfl

/-! ## The accounts -/

/-- The qubits that a finished circuit uses are in ascending order, so each is listed once, and they are
those that some gate refers to, all of them on the register. Its tally lists each name once, namely those
that some gate bears, each with the number of gates that bear it, and the counts add up to the number of
gates. Its depth is zero exactly if there is no gate, and at least the number of gates that refer to any
one qubit. -/
theorem accounts_of_finished {c : Circuit} (hc : c.Finished) :
    c.qubitsUsed.Pairwise (· < ·) ∧
      (∀ q, q ∈ c.qubitsUsed ↔ ∃ g ∈ c.gates, g.RefersTo q) ∧
      (∀ q ∈ c.qubitsUsed, q < c.width) ∧
      (c.countOps.map Prod.fst).Nodup ∧
      (∀ name n, (name, n) ∈ c.countOps ↔
        (∃ g ∈ c.gates, g.name = name) ∧ n = c.gates.countP fun g => g.name = name) ∧
      (c.countOps.map Prod.snd).sum = c.size ∧
      (c.depth = 0 ↔ c.gates = []) ∧
      ∀ q, (c.gates.countP fun g => g.RefersTo q) ≤ c.depth := by
  have hused (q : Qubit) : q ∈ c.qubitsUsed ↔ ∃ g ∈ c.gates, g.RefersTo q := by
    simp only [mem_qubitsUsed, Gate.mem_qubits_iff]
  refine ⟨c.ascending_qubitsUsed, hused, ?_, ?_, ?_, c.sum_countOps, depth_eq_zero_iff hc,
    c.countP_refersTo_le_depth⟩
  · intro q hq
    obtain ⟨g, hg, href⟩ := (hused q).mp hq
    exact Gate.lt_of_acceptable (hc.acceptable hg) (Gate.mem_qubits_iff.mpr href)
  · -- names that ascend strictly are distinct
    exact c.ascending_countOps.imp fun hlt => ne_of_lt hlt
  · intro name n
    rw [mem_countOps, named_eq_countP, eq_comm (a := n)]

/-- Control: a custom gate may bear the name of a kind, and it and a measurement may list a qubit twice.
Both gates of the name h stand under one entry, the third wire is not in use, and all four gates refer to the
second one, on five layers. -/
theorem accounts_of_finished_mixed :
    ∃ c : Circuit, c.Finished ∧
      c.gates = [.fixed .h [0, 1], .cx 1 3, .custom "h" [1, 1] [], .measure [1, 1]] ∧
      1 ∈ c.qubitsUsed ∧ ¬ 2 ∈ c.qubitsUsed ∧ ("h", 2) ∈ c.countOps ∧ ¬ ("swap", 0) ∈ c.countOps ∧
      (c.countOps.map Prod.snd).sum = 4 ∧ c.depth ≠ 0 ∧ 4 ≤ c.depth ∧ c.depth = 5 := by
  let c : Circuit :=
    ⟨"demo", 4, [.fixed .h [0, 1], .cx 1 3, .custom "h" [1, 1] [], .measure [1, 1]], []⟩
  have hc : c.Finished := finished_of_build (build_of_acceptable "demo" [] (by decide) (by decide))
  obtain ⟨-, hused, -, -, htally, hsum, hdepth, hlayers⟩ := accounts_of_finished hc
  refine ⟨c, hc, rfl, (hused 1).mpr ?_, mt (hused 2).mp ?_, (htally "h" 2).mpr ?_,
    mt (htally "swap" 0).mp ?_, hsum, mt hdepth.mp (List.cons_ne_nil _ _), hlayers 1, rfl⟩
  · exact ⟨.cx 1 3, by decide, Or.inl rfl⟩
  · decide
  · exact ⟨⟨.custom "h" [1, 1] [], by decide, rfl⟩, by decide⟩
  · decide

end Circuit

end QCircuit
