import QCircuit.Circuit.Depth

/-!
# Heights of wires

What a list of heights says is what it says of each wire (`Heights.height`). A gate stands for one or
more operations, each on all of its qubits at once: a fixed gate, a rotation and a measurement have one on
each listed target, any other gate is one (`Gate.operations`). To place a gate is to stack its operations one after another
(`Heights.place_eq`), and an operation that is stacked brings each of its wires to the layer above the
highest of them and leaves the others alone (`Heights.height_stack`).

No wire is ever listed twice, so the highest entry of the list is the height of the highest wire
(`Heights.highest_le_iff`).
-/

set_option autoImplicit false

namespace QCircuit

/-- What a gate does in one go, as the qubits that take part. -/
def Gate.operations : Gate → List (List Qubit)
  | .fixed _ targets => targets.map fun q => [q]
  | .rotation _ _ targets => targets.map fun q => [q]
  | .cx control target => [[control, target]]
  | .cp _ control target => [[control, target]]
  | .swap a b => [[a, b]]
  | .measure targets => targets.map fun q => [q]
  | .custom _ qubits _ => [qubits]

/-- The qubits of the operations of a gate are its own, each as often as the gate names it. -/
theorem Gate.flatten_operations (g : Gate) : g.operations.flatten = g.qubits := by
  cases g <;> simp [Gate.operations, ← List.flatMap_def]

/-- The wires of an operation are wires of its gate. -/
theorem Gate.mem_qubits_of_mem (g : Gate) {operation : List Qubit} (h : operation ∈ g.operations)
    {q : Qubit} (hq : q ∈ operation) : q ∈ g.qubits := by
  rw [← g.flatten_operations]
  exact List.mem_flatten_of_mem h hq

/-- The operations of a circuit, gate after gate. -/
def Circuit.operations (c : Circuit) : List (List Qubit) := c.gates.flatMap Gate.operations

namespace Heights

/-- The heights after one operation. -/
def stack (heights : Heights) (operation : List Qubit) : Heights :=
  operation.foldl (fun hs q => hs.set q (heights.top operation + 1)) heights

/-- The heights after some operations. -/
def stackAll (operations : List (List Qubit)) : Heights := operations.foldl stack []

theorem stackAll_concat (operations : List (List Qubit)) (operation : List Qubit) :
    stackAll (operations ++ [operation]) = (stackAll operations).stack operation := by
  simp [stackAll, List.foldl_append]

/-! ## One wire -/

@[simp] theorem height_nil (q : Qubit) : height [] q = 0 := rfl

theorem height_cons (p : Qubit) (n : Nat) (rest : Heights) (q : Qubit) :
    height ((p, n) :: rest) q = if q = p then n else height rest q := by
  by_cases hq : q = p
  · simp [height, hq]
  · have hne : (q == p) = false := by simpa using hq
    simp [height, List.lookup_cons, hne, hq]

/-- Setting a wire changes that wire only. -/
theorem height_set (heights : Heights) (q : Qubit) (n : Nat) (p : Qubit) :
    (heights.set q n).height p = if p = q then n else heights.height p := by
  induction heights with
  | nil => exact height_cons q n [] p
  | cons wire rest ih =>
      obtain ⟨r, m⟩ := wire
      by_cases hqr : q = r
      · subst hqr
        rw [set, if_pos rfl, height_cons, height_cons]
        by_cases hpq : p = q
        · rw [if_pos hpq, if_pos hpq]
        · rw [if_neg hpq, if_neg hpq, if_neg hpq]
      · rw [set, if_neg hqr, height_cons, height_cons, ih]
        by_cases hpr : p = r
        · have hpq : p ≠ q := fun h => hqr (h.symm.trans hpr)
          rw [if_pos hpr, if_neg hpq, if_pos hpr]
        · rw [if_neg hpr, if_neg hpr]

/-- Setting some wires to one height leaves the others alone. -/
theorem height_foldl_set (qubits : List Qubit) (n : Nat) (heights : Heights) (p : Qubit) :
    (qubits.foldl (fun hs q => hs.set q n) heights).height p =
      if p ∈ qubits then n else heights.height p := by
  induction qubits generalizing heights with
  | nil => simp
  | cons q rest ih =>
      rw [List.foldl_cons, ih, height_set]
      by_cases hp : p ∈ rest
      · simp [hp]
      · simp [hp]

/-- An operation brings its wires to the layer above the highest of them. -/
theorem height_stack (heights : Heights) (operation : List Qubit) (p : Qubit) :
    (heights.stack operation).height p =
      if p ∈ operation then heights.top operation + 1 else heights.height p :=
  height_foldl_set operation _ heights p

/-! ## The highest of some wires -/

/-- A greatest value is bounded by what bounds every value. -/
theorem foldl_max_le_iff {α : Type} (f : α → Nat) (row : List α) (start n : Nat) :
    row.foldl (fun m a => max m (f a)) start ≤ n ↔ start ≤ n ∧ ∀ a ∈ row, f a ≤ n := by
  induction row generalizing start with
  | nil => simp
  | cons a rest ih =>
      rw [List.foldl_cons, ih, Nat.max_le, List.forall_mem_cons, and_assoc]

/-- A greatest value that is not zero is one of the values. -/
theorem exists_mem_eq_foldl_max {α : Type} {f : α → Nat} {row : List α}
    (h : 0 < row.foldl (fun m a => max m (f a)) 0) :
    ∃ a ∈ row, f a = row.foldl (fun m a => max m (f a)) 0 := by
  -- otherwise all values stay below it, and it would stay below itself
  apply Decidable.byContradiction
  intro hnone
  have hbound := (foldl_max_le_iff f row 0 _).mp (Nat.le_refl _)
  have hbelow : row.foldl (fun m a => max m (f a)) 0 ≤
      row.foldl (fun m a => max m (f a)) 0 - 1 := by
    rw [foldl_max_le_iff]
    refine ⟨Nat.zero_le _, fun a ha => ?_⟩
    have hle := hbound.2 a ha
    have hne : f a ≠ row.foldl (fun m a => max m (f a)) 0 := fun heq => hnone ⟨a, ha, heq⟩
    omega
  omega

theorem top_le_iff (heights : Heights) (qubits : List Qubit) (n : Nat) :
    heights.top qubits ≤ n ↔ ∀ q ∈ qubits, heights.height q ≤ n := by
  rw [top, foldl_max_le_iff]
  simp

theorem height_le_top (heights : Heights) {qubits : List Qubit} {q : Qubit} (h : q ∈ qubits) :
    heights.height q ≤ heights.top qubits :=
  (heights.top_le_iff qubits _).mp (Nat.le_refl _) q h

/-- An operation lowers no wire. -/
theorem height_le_height_stack (heights : Heights) (operation : List Qubit) (q : Qubit) :
    heights.height q ≤ (heights.stack operation).height q := by
  rw [height_stack]
  split
  · next hq => exact Nat.le_succ_of_le (heights.height_le_top hq)
  · exact Nat.le_refl _

/-! ## Gates as operations -/

theorem raise_eq_stack (heights : Heights) (q : Qubit) : heights.raise q = heights.stack [q] := by
  simp [raise, stack, top]

/-- One layer more on each of some wires is one operation on each. -/
theorem foldl_raise_eq (targets : List Qubit) (heights : Heights) :
    targets.foldl raise heights = (targets.map fun q => [q]).foldl stack heights := by
  have hraise : raise = fun hs q => stack hs [q] := by
    funext hs q
    exact raise_eq_stack hs q
  rw [List.foldl_map, hraise]

/-- To place a gate is to stack its operations. -/
theorem place_eq (heights : Heights) (g : Gate) :
    heights.place g = g.operations.foldl stack heights := by
  cases g with
  | fixed kind targets => exact foldl_raise_eq targets heights
  | rotation axis angle targets => exact foldl_raise_eq targets heights
  | measure targets => exact foldl_raise_eq targets heights
  | _ => rfl

theorem heightsOf_eq (gates : List Gate) :
    heightsOf gates = stackAll (gates.flatMap Gate.operations) := by
  have hplace : place = fun hs g => g.operations.foldl stack hs := by
    funext hs g
    exact place_eq hs g
  rw [heightsOf, stackAll, List.foldl_flatMap, hplace]

/-! ## The highest wire -/

/-- No wire is listed twice. -/
def Distinct (heights : Heights) : Prop := (heights.map Prod.fst).Nodup

theorem mem_wires_set (heights : Heights) (q : Qubit) (n : Nat) (p : Qubit) :
    p ∈ (heights.set q n).map Prod.fst ↔ p = q ∨ p ∈ heights.map Prod.fst := by
  induction heights with
  | nil => simp [set]
  | cons wire rest ih =>
      obtain ⟨r, m⟩ := wire
      by_cases hqr : q = r
      · simp [set, hqr]
      · rw [set, if_neg hqr, List.map_cons, List.map_cons, List.mem_cons, List.mem_cons, ih]
        exact or_left_comm

theorem Distinct.set {heights : Heights} (h : heights.Distinct) (q : Qubit) (n : Nat) :
    (heights.set q n).Distinct := by
  induction heights with
  | nil => simp [Heights.set, Distinct]
  | cons wire rest ih =>
      obtain ⟨r, m⟩ := wire
      obtain ⟨hr, hrest⟩ := List.nodup_cons.mp h
      by_cases hqr : q = r
      · rw [Heights.set, if_pos hqr]
        exact List.nodup_cons.mpr ⟨hr, hrest⟩
      · rw [Heights.set, if_neg hqr]
        refine List.nodup_cons.mpr ⟨fun hmem => ?_, ih hrest⟩
        rcases (mem_wires_set rest q n r).mp hmem with hrq | hmem
        · exact hqr hrq.symm
        · exact hr hmem

theorem Distinct.foldl_set {heights : Heights} (h : heights.Distinct) (qubits : List Qubit)
    (n : Nat) : (qubits.foldl (fun hs q => hs.set q n) heights).Distinct := by
  induction qubits generalizing heights with
  | nil => exact h
  | cons q rest ih => exact ih (h.set q n)

theorem Distinct.foldl_stack {heights : Heights} (h : heights.Distinct)
    (operations : List (List Qubit)) : (operations.foldl stack heights).Distinct := by
  induction operations generalizing heights with
  | nil => exact h
  | cons operation rest ih => exact ih (h.foldl_set operation _)

theorem distinct_nil : Distinct [] := List.nodup_nil

theorem distinct_heightsOf (gates : List Gate) : (heightsOf gates).Distinct := by
  rw [heightsOf_eq]
  exact distinct_nil.foldl_stack _

/-- Where no wire is listed twice, every entry is the height of its wire. -/
theorem Distinct.height_eq {heights : Heights} (h : heights.Distinct) {q : Qubit} {n : Nat}
    (hmem : (q, n) ∈ heights) : heights.height q = n := by
  induction heights with
  | nil => cases hmem
  | cons wire rest ih =>
      obtain ⟨r, m⟩ := wire
      obtain ⟨hr, hrest⟩ := List.nodup_cons.mp h
      rw [height_cons]
      rcases List.mem_cons.mp hmem with heq | hmem
      · cases heq
        exact if_pos rfl
      · have hne : q ≠ r := by
          intro hqr
          have hlisted : q ∈ rest.map Prod.fst := List.mem_map_of_mem (f := Prod.fst) hmem
          exact hr (hqr ▸ hlisted)
        rw [if_neg hne]
        exact ih hrest hmem

/-- A wire that has layers is listed with them. -/
theorem mem_of_height_pos {heights : Heights} {q : Qubit} (h : 0 < heights.height q) :
    (q, heights.height q) ∈ heights := by
  induction heights with
  | nil => cases h
  | cons wire rest ih =>
      obtain ⟨r, m⟩ := wire
      rw [height_cons] at h ⊢
      by_cases hq : q = r
      · rw [if_pos hq, hq]
        exact List.mem_cons_self
      · rw [if_neg hq] at h ⊢
        exact List.mem_cons_of_mem _ (ih h)

/-- The highest entry is the height of the highest wire. -/
theorem Distinct.highest_le_iff {heights : Heights} (h : heights.Distinct) (n : Nat) :
    heights.highest ≤ n ↔ ∀ q, heights.height q ≤ n := by
  rw [highest, foldl_max_le_iff]
  constructor
  · rintro ⟨-, hall⟩ q
    rcases Nat.eq_zero_or_pos (heights.height q) with hzero | hpos
    · rw [hzero]
      exact Nat.zero_le n
    · exact hall _ (mem_of_height_pos hpos)
  · intro hall
    refine ⟨Nat.zero_le n, ?_⟩
    rintro ⟨q, m⟩ hmem
    rw [← h.height_eq hmem]
    exact hall q

theorem Distinct.height_le_highest {heights : Heights} (h : heights.Distinct) (q : Qubit) :
    heights.height q ≤ heights.highest := (h.highest_le_iff _).mp (Nat.le_refl _) q

theorem Distinct.exists_height_eq_highest {heights : Heights} (h : heights.Distinct)
    (hpos : 0 < heights.highest) : ∃ q, heights.height q = heights.highest := by
  obtain ⟨⟨q, n⟩, hmem, heq⟩ := exists_mem_eq_foldl_max (f := Prod.snd) hpos
  exact ⟨q, (h.height_eq hmem).trans heq⟩

end Heights

end QCircuit
