import Mathlib.Data.Set.Function
import Mathlib.Logic.Relation
import QCircuit.Proofs.Circuit.Building
import QCircuit.Proofs.Circuit.Profile
import QCircuit.Proofs.Circuit.Tally
import QCircuit.Proofs.Circuit.Usage

/-!
# Order and names that do not matter

Two gates without a common qubit may change places where they follow one another (`Exchange`). Operations
apart from each other act on different wires and look at different wires, so the profile is the same in
either order (`Profile.stack_comm`), and with it the profile after whole rows that come of each other by any
number of exchanges (`Profile.after_of_exchanges`). Such rows hold the same gates, so the tally and the
qubits in use do not change either.

A renaming of the wires carries the profile along. If it sends the wires of the register to different wires,
every renamed wire is as high as its original one (`Profile.Carried`), and a renaming that is a permutation
of the register reaches all of its wires, so the depth stays (`Circuit.depth_rewire`).
-/

set_option autoImplicit false

namespace QCircuit

/-! ## Exchanges -/

/-- No qubit takes part in both gates. -/
def Gate.Apart (g h : Gate) : Prop := ∀ q ∈ g.qubits, q ∉ h.qubits

instance (g h : Gate) : Decidable (g.Apart h) :=
  inferInstanceAs (Decidable (∀ q ∈ g.qubits, q ∉ h.qubits))

/-- Two gates of a row that follow one another and are apart change places. -/
inductive Exchange : List Gate → List Gate → Prop
  | swap (before : List Gate) (g h : Gate) (after : List Gate) (hapart : g.Apart h) :
      Exchange (before ++ g :: h :: after) (before ++ h :: g :: after)

/-- Rows that come of each other by any number of exchanges. -/
abbrev Exchanges : List Gate → List Gate → Prop := Relation.ReflTransGen Exchange

variable {gates gates' : List Gate}

theorem Exchange.perm (h : Exchange gates gates') : gates.Perm gates' := by
  cases h with
  | swap before g h after hapart => exact (List.Perm.swap h g after).append_left before

theorem Exchanges.perm (h : Exchanges gates gates') : gates.Perm gates' := by
  induction h with
  | refl => exact List.Perm.refl gates
  | tail _ hstep ih => exact ih.trans hstep.perm

namespace Profile

variable (f : Profile) {a b : List Qubit}

/-- The greatest height among wires that an operation leaves alone. -/
theorem top_stack_of_disjoint (h : a.Disjoint b) : (f.stack a).top b = f.top b := by
  apply List.foldl_ext
  intro height q hq
  rw [stack, if_neg (List.disjoint_right.mp h hq)]

/-- Operations on different wires may be done in either order. -/
theorem stack_comm (h : a.Disjoint b) : (f.stack a).stack b = (f.stack b).stack a := by
  have hb := f.top_stack_of_disjoint h
  have ha := f.top_stack_of_disjoint (List.disjoint_symm h)
  funext q
  rw [stack, hb, stack.eq_def (f.stack b) a, ha]
  by_cases hq : q ∈ a
  · rw [if_neg (List.disjoint_left.mp h hq), if_pos hq, stack, if_pos hq]
  · rw [if_neg hq, stack, if_neg hq, stack]

theorem foldl_stack_stack (operations : List (List Qubit)) (h : ∀ b ∈ operations, a.Disjoint b) :
    operations.foldl stack (f.stack a) = (operations.foldl stack f).stack a := by
  induction operations generalizing f with
  | nil => rfl
  | cons b rest ih =>
      obtain ⟨hfirst, hrest⟩ := List.forall_mem_cons.mp h
      rw [List.foldl_cons, List.foldl_cons, f.stack_comm hfirst, ih _ hrest]

/-- Rows of operations on different wires may be done in either order. -/
theorem foldl_stack_comm (first second : List (List Qubit))
    (h : ∀ a ∈ first, ∀ b ∈ second, a.Disjoint b) :
    second.foldl stack (first.foldl stack f) = first.foldl stack (second.foldl stack f) := by
  induction first generalizing f with
  | nil => rfl
  | cons a rest ih =>
      obtain ⟨hfirst, hrest⟩ := List.forall_mem_cons.mp h
      rw [List.foldl_cons, List.foldl_cons, ih _ hrest, f.foldl_stack_stack second hfirst]

/-- Gates that are apart may be placed in either order. -/
theorem after_pair_comm {g h : Gate} (hapart : g.Apart h) : f.after [g, h] = f.after [h, g] := by
  rw [f.after_cons g [h], f.after_cons h [g]]
  simp only [after, List.flatMap_singleton]
  apply foldl_stack_comm
  intro a ha b hb q hqa hqb
  exact hapart q (g.mem_qubits_of_mem ha hqa) (h.mem_qubits_of_mem hb hqb)

theorem after_of_exchange (h : Exchange gates gates') : f.after gates = f.after gates' := by
  cases h with
  | swap before g h after hapart =>
      have hpair (g h : Gate) :
          f.after (before ++ g :: h :: after) = ((f.after before).after [g, h]).after after := by
        rw [f.after_append before, ← (f.after before).after_append [g, h]]
        rfl
      rw [hpair, hpair, (f.after before).after_pair_comm hapart]

/-- The profile does not tell rows apart that come of each other by exchanges. -/
theorem after_of_exchanges (h : Exchanges gates gates') : f.after gates = f.after gates' := by
  induction h with
  | refl => rfl
  | tail _ hstep ih => exact ih.trans (f.after_of_exchange hstep)

end Profile

namespace Circuit

variable {c d : Circuit}

theorem depth_eq_of_after (h : Profile.empty.after c.gates = Profile.empty.after d.gates) :
    c.depth = d.depth := by
  apply Nat.le_antisymm
  · exact depth_le_iff.mpr fun q => h ▸ d.after_le_depth q
  · exact depth_le_iff.mpr fun q => h ▸ c.after_le_depth q

/-- The tally does not look at the order of the gates. -/
theorem countOps_eq_of_perm (h : c.gates.Perm d.gates) : c.countOps = d.countOps := by
  apply c.ascending_countOps.eq_of_mem_iff d.ascending_countOps
  rintro ⟨name, n⟩
  have hnamed : named name c.gates = named name d.gates := (h.map Gate.name).count_eq name
  simp only [mem_countOps, hnamed, h.mem_iff]

/-- Nor do the qubits in use depend on it. -/
theorem qubitsUsed_eq_of_perm (h : c.gates.Perm d.gates) : c.qubitsUsed = d.qubitsUsed := by
  apply c.ascending_qubitsUsed.eq_of_mem_iff d.ascending_qubitsUsed
  intro q
  simp only [mem_qubitsUsed, h.mem_iff]

end Circuit

/-! ## Renamed wires -/

/-- A gate with its qubits renamed. -/
def Gate.rewire (rename : Qubit → Qubit) : Gate → Gate
  | .fixed kind targets => .fixed kind (targets.map rename)
  | .rotation axis angle targets => .rotation axis angle (targets.map rename)
  | .cx control target => .cx (rename control) (rename target)
  | .cp theta control target => .cp theta (rename control) (rename target)
  | .swap a b => .swap (rename a) (rename b)
  | .measure targets => .measure (targets.map rename)
  | .custom name operands params => .custom name (operands.map rename) params

/-- A circuit with the qubits of its gates renamed. -/
def Circuit.rewire (rename : Qubit → Qubit) (c : Circuit) : Circuit :=
  { c with gates := c.gates.map (Gate.rewire rename) }

section Rewiring

variable {rename : Qubit → Qubit} {width : Nat}

namespace Gate

theorem operations_rewire (rename : Qubit → Qubit) (g : Gate) :
    (g.rewire rename).operations = g.operations.map (List.map rename) := by
  cases g <;> simp [rewire, operations]

theorem placed_map {qubits : List Qubit} (hmaps : Set.MapsTo rename (Set.Iio width) (Set.Iio width))
    (h : Placed width qubits) : Placed width (qubits.map rename) := by
  obtain ⟨hne, hlt⟩ := h
  refine ⟨mt List.map_eq_nil_iff.mp hne, ?_⟩
  rw [List.forall_mem_map]
  intro q hq
  exact hmaps (hlt q hq)

/-- A renaming within the register that keeps qubits apart keeps gates acceptable. -/
theorem Acceptable.rewire {g : Gate} (hmaps : Set.MapsTo rename (Set.Iio width) (Set.Iio width))
    (hinj : Set.InjOn rename (Set.Iio width)) (h : g.Acceptable width) :
    (g.rewire rename).Acceptable width := by
  -- renaming keeps two operands apart and on the register
  have hpair {a b : Qubit} (hne : a ≠ b) (ha : a < width) (hb : b < width) :
      rename a ≠ rename b ∧ rename a < width ∧ rename b < width :=
    ⟨fun heq => hne (hinj ha hb heq), hmaps ha, hmaps hb⟩
  cases g with
  | fixed kind targets => exact placed_map hmaps h
  | rotation axis angle targets => exact ⟨h.1, placed_map hmaps h.2⟩
  | cx control target =>
      obtain ⟨hne, hcontrol, htarget⟩ := h
      exact hpair hne hcontrol htarget
  | cp theta control target =>
      obtain ⟨hfinite, hne, hcontrol, htarget⟩ := h
      exact ⟨hfinite, hpair hne hcontrol htarget⟩
  | swap a b =>
      obtain ⟨hne, ha, hb⟩ := h
      exact hpair hne ha hb
  | measure targets => exact placed_map hmaps h
  | custom name operands params => exact placed_map hmaps h

end Gate

/-- Every renamed wire of the register is as high as its original one. -/
def Profile.Carried (rename : Qubit → Qubit) (width : Nat) (f renamed : Profile) : Prop :=
  ∀ q < width, renamed (rename q) = f q

namespace Profile

variable {f renamed : Profile}

theorem Carried.stack (h : Carried rename width f renamed) (hinj : Set.InjOn rename (Set.Iio width))
    {operation : List Qubit} (hwires : ∀ q ∈ operation, q < width) :
    Carried rename width (f.stack operation) (renamed.stack (operation.map rename)) := by
  intro q hq
  -- on the register different wires keep different names, so no other wire comes to take part
  have hmem : rename q ∈ operation.map rename ↔ q ∈ operation := by
    rw [List.mem_map]
    constructor
    · rintro ⟨p, hp, heq⟩
      rwa [← hinj (hwires p hp) hq heq]
    · exact fun hq => ⟨q, hq, rfl⟩
  have htop : renamed.top (operation.map rename) = f.top operation := by
    rw [top, List.foldl_map]
    apply List.foldl_ext
    intro height p hp
    rw [h p (hwires p hp)]
  simp only [Profile.stack, hmem, htop, h q hq]

theorem Carried.foldl_stack (h : Carried rename width f renamed)
    (hinj : Set.InjOn rename (Set.Iio width)) {operations : List (List Qubit)}
    (hwires : ∀ operation ∈ operations, ∀ q ∈ operation, q < width) :
    Carried rename width (operations.foldl Profile.stack f)
      ((operations.map (List.map rename)).foldl Profile.stack renamed) := by
  induction operations generalizing f renamed with
  | nil => exact h
  | cons operation rest ih =>
      obtain ⟨hfirst, hrest⟩ := List.forall_mem_cons.mp hwires
      exact ih (h.stack hinj hfirst) hrest

theorem carried_after (hinj : Set.InjOn rename (Set.Iio width))
    (hwires : ∀ g ∈ gates, ∀ q ∈ g.qubits, q < width) :
    Carried rename width (empty.after gates) (empty.after (gates.map (Gate.rewire rename))) := by
  have hoperations : (gates.map (Gate.rewire rename)).flatMap Gate.operations =
      (gates.flatMap Gate.operations).map (List.map rename) := by
    simp only [List.flatMap_map, List.map_flatMap, Gate.operations_rewire]
  have hempty : Carried rename width empty empty := fun _ _ => rfl
  rw [after, after, hoperations]
  apply hempty.foldl_stack hinj
  intro operation hmem q hq
  obtain ⟨g, hg, hoperation⟩ := List.mem_flatMap.mp hmem
  exact hwires g hg q (g.mem_qubits_of_mem hoperation hq)

/-- A wire that no operation is on keeps its height. -/
theorem foldl_stack_of_not_mem (f : Profile) {operations : List (List Qubit)} {q : Qubit}
    (h : ∀ operation ∈ operations, q ∉ operation) : operations.foldl stack f q = f q := by
  induction operations generalizing f with
  | nil => rfl
  | cons operation rest ih =>
      obtain ⟨hfirst, hrest⟩ := List.forall_mem_cons.mp h
      rw [List.foldl_cons, ih _ hrest, stack, if_neg hfirst]

end Profile

end Rewiring

namespace Circuit

variable {c : Circuit} {rename : Qubit → Qubit}

/-- No wire outside the register has a layer. -/
theorem Finished.after_eq_zero (hc : c.Finished) {q : Qubit} (hq : c.width ≤ q) :
    Profile.empty.after c.gates q = 0 := by
  apply Profile.empty.foldl_stack_of_not_mem
  intro operation hmem hon
  obtain ⟨g, hg, hoperation⟩ := List.mem_flatMap.mp hmem
  have hlt := Gate.lt_of_acceptable (hc.acceptable hg) (g.mem_qubits_of_mem hoperation hon)
  exact Nat.not_lt_of_le hq hlt

/-- Renamed within the register, a finished circuit is one that a run of edits finishes as well. -/
theorem Finished.rewire (hc : c.Finished) (hmaps : Set.MapsTo rename (Set.Iio c.width) (Set.Iio c.width))
    (hinj : Set.InjOn rename (Set.Iio c.width)) : (c.rewire rename).Finished := by
  obtain ⟨entries, hentries⟩ := hc.exists_described
  have hgates : ∀ g ∈ c.gates.map (Gate.rewire rename), g.Acceptable c.width :=
    List.forall_mem_map.mpr fun g hg => (hc.acceptable hg).rewire hmaps hinj
  have hbuild := build_of_acceptable c.algorithm entries hc.width_pos hgates
  rw [← hentries] at hbuild
  exact finished_of_build hbuild

/-- A permutation of the register does not change the depth. -/
theorem depth_rewire (hc : c.Finished)
    (hperm : Set.BijOn rename (Set.Iio c.width) (Set.Iio c.width)) :
    (c.rewire rename).depth = c.depth := by
  have hcarried := Profile.carried_after hperm.injOn fun g hg q hq =>
    Gate.lt_of_acceptable (hc.acceptable hg) hq
  have hrenamed := hc.rewire hperm.mapsTo hperm.injOn
  -- outside the register no wire has a layer, before the renaming or after it
  apply Nat.le_antisymm
  · rw [depth_le_iff]
    intro p
    rcases Nat.lt_or_ge p c.width with hp | hp
    · obtain ⟨q, hq, rfl⟩ := hperm.surjOn hp
      exact Nat.le_trans (Nat.le_of_eq (hcarried q hq)) (c.after_le_depth q)
    · rw [hrenamed.after_eq_zero hp]
      exact Nat.zero_le c.depth
  · rw [depth_le_iff]
    intro q
    rcases Nat.lt_or_ge q c.width with hq | hq
    · exact Nat.le_trans (Nat.le_of_eq (hcarried q hq).symm) ((c.rewire rename).after_le_depth _)
    · rw [hc.after_eq_zero hq]
      exact Nat.zero_le _

/-- Two finished circuits of one width whose gates come of each other by exchanges of neighbours that are
apart are as deep as each other, count the same gates under the same names and use the same qubits. And
with its qubits renamed by a permutation of the register, a finished circuit is finished and as deep. -/
theorem exchange_and_rewire (hc : c.Finished) :
    (∀ d : Circuit, d.Finished → d.width = c.width → Exchanges c.gates d.gates →
      d.depth = c.depth ∧ d.countOps = c.countOps ∧ d.qubitsUsed = c.qubitsUsed) ∧
    ∀ rename : Qubit → Qubit, Set.BijOn rename (Set.Iio c.width) (Set.Iio c.width) →
      (c.rewire rename).Finished ∧ (c.rewire rename).depth = c.depth := by
  constructor
  · intro d _ _ hexchanges
    have hperm := hexchanges.perm
    exact ⟨(depth_eq_of_after (Profile.empty.after_of_exchanges hexchanges)).symm,
      (countOps_eq_of_perm hperm).symm, (qubitsUsed_eq_of_perm hperm).symm⟩
  · intro rename hperm
    exact ⟨hc.rewire hperm.mapsTo hperm.injOn, depth_rewire hc hperm⟩

/-- Control: a measurement that lists the first qubit twice moves in front of two gates on the other qubits,
one exchange after another, and the wires of three qubits are renamed in a circle. -/
theorem exchange_and_rewire_circle :
    ∃ c d : Circuit, c.Finished ∧ d.Finished ∧ d.width = c.width ∧
      c.gates = [.cx 1 2, .custom "u" [2, 1, 1] [], .measure [0, 0], .fixed .h [1, 0]] ∧
      d.gates = [.measure [0, 0], .cx 1 2, .custom "u" [2, 1, 1] [], .fixed .h [1, 0]] ∧
      Exchanges c.gates d.gates ∧ d.depth = c.depth ∧ d.countOps = c.countOps ∧
      d.qubitsUsed = c.qubitsUsed ∧
      (c.rewire fun q => (q + 1) % 3).gates =
        [.cx 2 0, .custom "u" [0, 2, 2] [], .measure [1, 1], .fixed .h [2, 1]] ∧
      (c.rewire fun q => (q + 1) % 3).depth = c.depth := by
  let c : Circuit := ⟨"demo", 3,
    [.cx 1 2, .custom "u" [2, 1, 1] [], .measure [0, 0], .fixed .h [1, 0]], []⟩
  let d : Circuit := ⟨"demo", 3,
    [.measure [0, 0], .cx 1 2, .custom "u" [2, 1, 1] [], .fixed .h [1, 0]], []⟩
  have hc : c.Finished := finished_of_build (build_of_acceptable "demo" [] (by decide) (by decide))
  have hd : d.Finished := finished_of_build (build_of_acceptable "demo" [] (by decide) (by decide))
  have hfirst : Exchange c.gates [.cx 1 2, .measure [0, 0], .custom "u" [2, 1, 1] [], .fixed .h [1, 0]] :=
    .swap [.cx 1 2] (.custom "u" [2, 1, 1] []) (.measure [0, 0]) [.fixed .h [1, 0]] (by decide)
  have hsecond : Exchange [.cx 1 2, .measure [0, 0], .custom "u" [2, 1, 1] [], .fixed .h [1, 0]] d.gates :=
    .swap [] (.cx 1 2) (.measure [0, 0]) [.custom "u" [2, 1, 1] [], .fixed .h [1, 0]] (by decide)
  have hexchanges : Exchanges c.gates d.gates := .tail (.single hfirst) hsecond
  have hcircle : Set.BijOn (fun q => (q + 1) % 3) (Set.Iio 3) (Set.Iio 3) := by
    refine ⟨?_, ?_, ?_⟩
    · exact fun q _ => Nat.mod_lt (q + 1) (by decide)
    · intro p hp q hq heq
      simp only [Set.mem_Iio] at hp hq heq
      omega
    · intro p hp
      simp only [Set.mem_Iio] at hp
      refine ⟨(p + 2) % 3, Nat.mod_lt (p + 2) (by decide), ?_⟩
      show ((p + 2) % 3 + 1) % 3 = p
      omega
  obtain ⟨hrows, hrenamed⟩ := exchange_and_rewire hc
  obtain ⟨hdepth, hcounts, hused⟩ := hrows d hd rfl hexchanges
  exact ⟨c, d, hc, hd, rfl, rfl, rfl, hexchanges, hdepth, hcounts, hused, rfl, (hrenamed _ hcircle).2⟩

end Circuit

end QCircuit
