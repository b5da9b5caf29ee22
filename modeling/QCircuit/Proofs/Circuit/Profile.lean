import QCircuit.Proofs.Circuit.Heights

/-!
# Profiles

What the heights of the wires say is a profile, the height of every wire as a function. A gate acts on a
profile as on the list of heights (`Profile.after`, `Profile.height_heightsOf`), so the depth of a circuit is
the height of a wire that leads in the profile of its gates (`Circuit.depth_of_leadsAt`).

Gates on one wire each raise it by as many layers as it has gates (`Profile.after_flatMap_range`). Where one
wire meets the wires of a row one after another, it climbs: each meeting brings both wires to the layer
above the higher of them (`climb`). It does so as a hub that meets one spoke after another
(`Profile.after_hub`), and along a chain, in which each wire hands on to the next (`Profile.after_chain`).
As long as no wire of the row is higher than the climbing one is by then, that is one layer at each meeting
(`climb_eq`), and a wire that comes from below starts at the height of the first one that it meets
(`climb_succ_eq`, `Profile.after_hub_from_below`).
-/

set_option autoImplicit false

namespace QCircuit

/-- The height of every wire. -/
abbrev Profile : Type := Nat → Nat

namespace Profile

/-- No wire has a layer. -/
def empty : Profile := fun _ => 0

/-- The greatest height among some wires. -/
def top (f : Profile) (qubits : List Qubit) : Nat := qubits.foldl (fun height q => max height (f q)) 0

/-- So many layers more on each of the first wires. -/
def raise (f : Profile) (count layers : Nat) : Profile := fun q => f q + if q < count then layers else 0

/-- The profile after one operation. -/
def stack (f : Profile) (operation : List Qubit) : Profile :=
  fun q => if q ∈ operation then f.top operation + 1 else f q

/-- The profile after a row of gates. -/
def after (f : Profile) (gates : List Gate) : Profile := (gates.flatMap Gate.operations).foldl stack f

theorem height_foldl_stack (operations : List (List Qubit)) (heights : Heights) :
    (operations.foldl Heights.stack heights).height = operations.foldl stack heights.height := by
  induction operations generalizing heights with
  | nil => rfl
  | cons operation rest ih =>
      have hstack : (heights.stack operation).height = stack heights.height operation := by
        funext q
        exact heights.height_stack operation q
      rw [List.foldl_cons, List.foldl_cons, ih, hstack]

/-- The heights after some gates, as a profile. -/
theorem height_heightsOf (gates : List Gate) : (heightsOf gates).height = empty.after gates := by
  rw [Heights.heightsOf_eq, Heights.stackAll, height_foldl_stack]
  rfl

variable (f : Profile)

@[simp] theorem after_nil : f.after [] = f := rfl

theorem after_append (before after : List Gate) :
    f.after (before ++ after) = (f.after before).after after := by
  simp [Profile.after, List.foldl_append]

theorem after_cons (g : Gate) (rest : List Gate) : f.after (g :: rest) = (f.after [g]).after rest :=
  f.after_append [g] rest

end Profile

/-! ## The highest wire -/

/-- A wire leads at a height: it has that height, and no wire is higher. -/
structure Profile.LeadsAt (f : Profile) (q height : Nat) : Prop where
  eq : f q = height
  le : ∀ p, f p ≤ height

theorem Profile.leadsAt_empty (q : Nat) : Profile.empty.LeadsAt q 0 := ⟨rfl, fun _ => Nat.le_refl 0⟩

/-- The depth of a circuit is at most what every wire has at most in the end, and no less. -/
theorem Circuit.depth_le_iff {c : Circuit} {bound : Nat} :
    c.depth ≤ bound ↔ ∀ q, Profile.empty.after c.gates q ≤ bound := by
  rw [← Profile.height_heightsOf]
  exact (Heights.distinct_heightsOf c.gates).highest_le_iff bound

/-- No wire is higher in the end than the circuit is deep. -/
theorem Circuit.after_le_depth (c : Circuit) (q : Nat) : Profile.empty.after c.gates q ≤ c.depth :=
  depth_le_iff.mp (Nat.le_refl c.depth) q

/-- The depth of a circuit is the height of a wire that leads in the end. -/
theorem Circuit.depth_of_leadsAt {c : Circuit} {q depth : Nat}
    (h : (Profile.empty.after c.gates).LeadsAt q depth) : c.depth = depth := by
  apply Nat.le_antisymm
  · exact depth_le_iff.mpr h.le
  · rw [← h.eq]
    exact c.after_le_depth q

/-! ## One wire at a time -/

namespace Profile

theorem stack_single (f : Profile) (q p : Nat) :
    f.stack [q] p = f p + if p = q then 1 else 0 := by
  by_cases hp : p = q
  · subst hp
    simp [stack, top]
  · simp [stack, hp]

theorem foldl_stack_replicate (f : Profile) (q : Nat) (layers : Nat) (p : Nat) :
    (List.replicate layers [q]).foldl stack f p = f p + if p = q then layers else 0 := by
  induction layers generalizing f with
  | zero => simp
  | succ layers ih =>
      rw [List.replicate_succ, List.foldl_cons, ih, stack_single]
      split
      · omega
      · rfl

/-- Gates on each of the first wires alone, so many on each. -/
theorem after_flatMap_range {g : Nat → List Gate} {layers : Nat}
    (h : ∀ q, (g q).flatMap Gate.operations = List.replicate layers [q]) (f : Profile) (count : Nat) :
    f.after ((List.range count).flatMap g) = f.raise count layers := by
  funext p
  induction count with
  | zero => rfl
  | succ count ih =>
      rw [List.range_succ, List.flatMap_append, List.flatMap_singleton, after_append, after, h,
        foldl_stack_replicate, ih, raise, raise]
      by_cases hlast : p = count
      · simp [hlast]
      · have hiff : p < count + 1 ↔ p < count := by omega
        simp [hlast, hiff]

/-- One operation on each of the first wires in turn, whatever gates it comes from. -/
theorem after_of_operations {gates : List Gate} {count : Nat}
    (h : gates.flatMap Gate.operations = (List.range count).map fun q => [q]) (f : Profile) :
    f.after gates = f.raise count 1 := by
  have hoperations : gates.flatMap Gate.operations =
      ((List.range count).flatMap fun q => [Gate.h q]).flatMap Gate.operations := by
    rw [h, List.flatMap_assoc]
    exact List.map_eq_flatMap
  rw [after, hoperations]
  exact after_flatMap_range (fun _ => rfl) f count

/-- One gate on each of the first wires. -/
theorem after_map_range {g : Nat → Gate} (h : ∀ q, (g q).operations = [[q]]) (f : Profile)
    (count : Nat) : f.after ((List.range count).map g) = f.raise count 1 := by
  apply after_of_operations
  rw [List.flatMap_map, List.map_eq_flatMap]
  simp only [h]

/-- All qubits in superposition. -/
theorem after_hadamards (f : Profile) (count : Nat) :
    f.after ((List.range count).map .h) = f.raise count 1 := after_map_range (fun _ => rfl) f count

/-- To measure the first wires is to act on each of them alone. -/
theorem after_measure (f : Profile) (count : Nat) :
    f.after [.measure (List.range count)] = f.raise count 1 :=
  after_of_operations (List.flatMap_singleton _ _) f

theorem raise_raise (f : Profile) (count a b : Nat) :
    (f.raise count a).raise count b = f.raise count (a + b) := by
  funext q
  simp only [raise]
  split <;> omega

@[simp] theorem raise_zero (f : Profile) (count : Nat) : f.raise count 0 = f := by
  funext q
  simp [raise]

/-- A wire that leads keeps the lead where it is raised with others. -/
theorem LeadsAt.raise {f : Profile} {q height count : Nat} (h : f.LeadsAt q height) (hq : q < count)
    (layers : Nat) : (f.raise count layers).LeadsAt q (height + layers) := by
  constructor
  · rw [Profile.raise, if_pos hq, h.eq]
  · intro p
    have hp := h.le p
    rw [Profile.raise]
    split <;> omega

/-- A wire that leads and is measured with others keeps the lead. -/
theorem LeadsAt.after_measure {f : Profile} {q height count : Nat} (h : f.LeadsAt q height)
    (hq : q < count) : (f.after [.measure (List.range count)]).LeadsAt q (height + 1) := by
  rw [Profile.after_measure]
  exact h.raise hq 1

/-- A gate on one wire. -/
theorem after_single {g : Gate} {q : Nat} (h : g.operations = [[q]]) (f : Profile) (p : Nat) :
    f.after [g] p = f p + if p = q then 1 else 0 := by
  rw [after, List.flatMap_singleton, h]
  exact f.stack_single q p

/-- A gate on the wire that leads. -/
theorem LeadsAt.after_single {f : Profile} {g : Gate} {q height : Nat} (h : f.LeadsAt q height)
    (hg : g.operations = [[q]]) : (f.after [g]).LeadsAt q (height + 1) := by
  constructor
  · rw [Profile.after_single hg, if_pos rfl, h.eq]
  · intro p
    have hp := h.le p
    rw [Profile.after_single hg]
    split <;> omega

/-! ## Two wires at a time -/

/-- Two wires meet. -/
def meet (f : Profile) (a b : Nat) : Profile :=
  fun p => if p = a ∨ p = b then max (f a) (f b) + 1 else f p

theorem meet_comm (f : Profile) (a b : Nat) : f.meet a b = f.meet b a := by
  funext p
  simp only [meet, or_comm, Nat.max_comm]

theorem stack_pair (f : Profile) (a b : Nat) : f.stack [a, b] = f.meet a b := by
  funext p
  simp [stack, top, meet]

theorem after_cx (f : Profile) (control target : Nat) :
    f.after [.cx control target] = f.meet control target := f.stack_pair control target

theorem after_cp (f : Profile) (theta : Binary64) (control target : Nat) :
    f.after [.cp theta control target] = f.meet control target := f.stack_pair control target

theorem after_swap (f : Profile) (a b : Nat) : f.after [.swap a b] = f.meet a b := f.stack_pair a b

end Profile

/-! ## Climbing -/

/-- The height of a wire that has met some wires of a row one after another. -/
def climb (start : Nat) (row : Nat → Nat) : Nat → Nat
  | 0 => start
  | count + 1 => max (climb start row count) (row count) + 1

variable {start : Nat} {row : Nat → Nat} {count : Nat}

/-- A wire that is never below the next one of the row climbs one layer at each meeting. -/
theorem climb_eq (h : ∀ j, j < count → row j ≤ start + j) : climb start row count = start + count := by
  induction count with
  | zero => rfl
  | succ count ih =>
      have hrow := h count (Nat.lt_succ_self count)
      rw [climb, ih fun j hj => h j (Nat.lt_succ_of_lt hj), Nat.max_eq_left hrow, Nat.add_assoc]

/-- The first meeting counts from the higher of the two wires. -/
theorem climb_succ_max (start : Nat) (row : Nat → Nat) (count : Nat) :
    climb start row (count + 1) = climb (max start (row 0)) row (count + 1) := by
  induction count with
  | zero => simp [climb]
  | succ count ih => exact congrArg (fun height => max height (row (count + 1)) + 1) ih

/-- A wire that comes from below climbs from the height of the first one that it meets. -/
theorem climb_succ_eq {base : Nat} (hbase : max start (row 0) = base)
    (h : ∀ j, j ≤ count → row j ≤ base + j) : climb start row (count + 1) = base + (count + 1) := by
  rw [climb_succ_max, hbase]
  apply climb_eq
  intro j hj
  exact h j (Nat.le_of_lt_succ hj)

namespace Profile

/-- A hub meets some wires that follow one another. -/
theorem after_hub {g : Nat → Gate} {hub first : Nat}
    (hmeet : ∀ (f : Profile) j, f.after [g j] = f.meet hub (first + j)) (f : Profile) {count : Nat}
    (hhub : hub < first ∨ first + count ≤ hub) :
    f.after ((List.range count).map g) = fun p =>
      if p = hub then climb (f hub) (fun j => f (first + j)) count
      else if first ≤ p ∧ p < first + count then climb (f hub) (fun j => f (first + j)) (p - first + 1)
      else f p := by
  induction count with
  | zero =>
      funext p
      by_cases hp : p = hub
      · simp [hp, climb]
      · rw [if_neg hp, if_neg (by omega)]
        rfl
  | succ count ih =>
      -- the next spoke has not been met before, and is not the hub
      have hne : ¬ first + count = hub := by omega
      have hspoke : ¬ (first ≤ first + count ∧ first + count < first + count) := by omega
      rw [List.range_succ, List.map_append, List.map_singleton, after_append, hmeet, ih (by omega)]
      funext p
      simp only [meet, if_true, if_neg hne, if_neg hspoke]
      by_cases hp : p = hub
      · rw [if_pos (Or.inl hp), if_pos hp, climb]
      · by_cases hlast : p = first + count
        · rw [if_pos (Or.inr hlast), if_neg hp, if_pos (by omega), hlast, Nat.add_sub_cancel_left, climb]
        · have hiff : (first ≤ p ∧ p < first + count) ↔ first ≤ p ∧ p < first + (count + 1) := by omega
          rw [if_neg (by omega), if_neg hp, if_neg hp]
          simp only [hiff]

/-- A hub that comes from below climbs one layer at each spoke from the height of the first one on, if the
others are not above it when it meets them. -/
theorem after_hub_from_below {g : Nat → Gate} {hub first count base : Nat}
    (hmeet : ∀ (f : Profile) j, f.after [g j] = f.meet hub (first + j)) {f : Profile}
    (hhub : hub < first ∨ first + count < hub) (hbase : max (f hub) (f first) = base)
    (hrow : ∀ j, j ≤ count → f (first + j) ≤ base + j) :
    f.after ((List.range (count + 1)).map g) = fun p =>
      if p = hub then base + (count + 1)
      else if first ≤ p ∧ p < first + (count + 1) then base + (p - first + 1)
      else f p := by
  -- after the first spoke the hub is above all spokes that it has yet to meet
  have hclimb (met : Nat) (hmet : met ≤ count) :
      climb (f hub) (fun j => f (first + j)) (met + 1) = base + (met + 1) := by
    apply climb_succ_eq hbase
    intro j hj
    exact hrow j (Nat.le_trans hj hmet)
  rw [after_hub hmeet f (by omega), hclimb count (Nat.le_refl count)]
  funext p
  by_cases hspoke : first ≤ p ∧ p < first + (count + 1)
  · rw [if_pos hspoke, if_pos hspoke, hclimb _ (by omega)]
  · rw [if_neg hspoke, if_neg hspoke]

/-- A hub that leads climbs one layer at each spoke and keeps the lead. -/
theorem LeadsAt.after_hub {f : Profile} {g : Nat → Gate} {hub first count height : Nat}
    (h : f.LeadsAt hub height) (hmeet : ∀ (f : Profile) j, f.after [g j] = f.meet hub (first + j))
    (hhub : hub < first ∨ first + count ≤ hub) :
    (f.after ((List.range count).map g)).LeadsAt hub (height + count) := by
  -- no spoke is above the hub, so each of them raises it by one
  have hclimb (met : Nat) : climb (f hub) (fun j => f (first + j)) met = height + met := by
    rw [← h.eq]
    apply climb_eq
    intro j _
    have hj := h.le (first + j)
    rw [h.eq]
    omega
  rw [Profile.after_hub hmeet f hhub]
  constructor
  · simp only [if_true, hclimb]
  · intro p
    have hp := h.le p
    simp only [hclimb]
    split
    · exact Nat.le_refl _
    · split <;> omega

/-- Every wire meets the next. -/
theorem after_chain {g : Nat → Gate} (hmeet : ∀ (f : Profile) j, f.after [g j] = f.meet j (j + 1))
    (f : Profile) (count : Nat) :
    f.after ((List.range count).map g) = fun p =>
      if p < count then climb (f 0) (fun j => f (j + 1)) (p + 1)
      else if p = count then climb (f 0) (fun j => f (j + 1)) count
      else f p := by
  induction count with
  | zero =>
      funext p
      by_cases hp : p = 0
      · simp [hp, climb]
      · simp [hp]
  | succ count ih =>
      -- the next wire has not been met, so its layer is the one it had
      have hnext : ¬ count + 1 < count ∧ ¬ count + 1 = count := by omega
      rw [List.range_succ, List.map_append, List.map_singleton, after_append, hmeet, ih]
      funext p
      simp only [meet, Nat.lt_irrefl, if_false, if_true, if_neg hnext.1, if_neg hnext.2]
      by_cases hp : p < count
      · rw [if_neg (by omega), if_pos hp, if_pos (by omega)]
      · by_cases hwire : p = count
        · rw [if_pos (Or.inl hwire), if_pos (by omega), hwire, climb]
        · by_cases hlast : p = count + 1
          · rw [if_pos (Or.inr hlast), if_neg (by omega), if_pos hlast, climb]
          · rw [if_neg (by omega), if_neg hp, if_neg hwire, if_neg (by omega), if_neg hlast]

end Profile

end QCircuit
