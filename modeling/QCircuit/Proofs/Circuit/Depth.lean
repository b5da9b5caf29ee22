import Mathlib.Data.List.Chain
import Mathlib.Data.List.Induction
import Mathlib.Order.Bounds.Basic
import QCircuit.Proofs.Circuit.Building
import QCircuit.Proofs.Circuit.Heights

/-!
# Depth and dependency

Two operations that have a qubit in common have to happen one after the other. A dependency chain picks
operations in their order so that each has a qubit in common with the next (`DependencyChain`). The
height of a wire is the length of the longest chain whose last operation is on that wire: no such chain
is longer (`DependencyChain.length_le_height`), and one is as long (`exists_dependencyChain`). So the
depth of a finished circuit is the length of its longest dependency chain (`Circuit.isGreatest_depth`).

A gate deepens a circuit by at most the layers that it fills on one wire (`Heights.highest_place_le`).
These are one, except where a broadcast gate lists a target more than once: nothing forbids that, so a
circuit can be deeper than it has gates (`Circuit.size_lt_depth_of_repeated_target`).
-/

set_option autoImplicit false

namespace QCircuit

open Heights

/-- Some qubit takes part in both operations. -/
def Meet (a b : List Qubit) : Prop := ∃ q ∈ a, q ∈ b

/-- Operations picked in their order, each with a qubit in common with the next. -/
structure DependencyChain (operations chain : List (List Qubit)) : Prop where
  sublist : chain.Sublist operations
  linked : chain.IsChain Meet

variable {operations chain : List (List Qubit)} {operation : List Qubit}

/-! ## One operation more -/

theorem DependencyChain.before (h : DependencyChain operations chain) :
    DependencyChain (operations ++ [operation]) chain :=
  ⟨h.sublist.trans (List.sublist_append_left _ _), h.linked⟩

/-- A chain goes on with an operation that its last one meets. -/
theorem DependencyChain.concat (h : DependencyChain operations chain)
    (hmeet : ∀ last ∈ chain.getLast?, Meet last operation) :
    DependencyChain (operations ++ [operation]) (chain ++ [operation]) := by
  refine ⟨h.sublist.append (List.Sublist.refl _), List.isChain_append.mpr ?_⟩
  refine ⟨h.linked, List.IsChain.singleton operation, ?_⟩
  intro last hlast next hnext
  rw [List.head?_cons, Option.mem_some_iff] at hnext
  rw [← hnext]
  exact hmeet last hlast

/-- A chain ends in the last operation, or it does without it. -/
theorem DependencyChain.concat_cases (h : DependencyChain (operations ++ [operation]) chain) :
    DependencyChain operations chain ∨
      ∃ earlier, chain = earlier ++ [operation] ∧ DependencyChain operations earlier ∧
        ∀ last ∈ earlier.getLast?, Meet last operation := by
  obtain ⟨earlier, final, rfl, hearlier, hfinal⟩ := List.sublist_append_iff.mp h.sublist
  obtain ⟨hlinked, -, hmeet⟩ := List.isChain_append.mp h.linked
  rcases List.sublist_singleton.mp hfinal with rfl | rfl
  · rw [List.append_nil]
    exact Or.inl ⟨hearlier, hlinked⟩
  · refine Or.inr ⟨earlier, rfl, ⟨hearlier, hlinked⟩, ?_⟩
    intro last hlast
    exact hmeet last hlast operation rfl

/-! ## Chains and heights -/

/-- No chain that ends on a wire is longer than the wire is high. -/
theorem DependencyChain.length_le_height (h : DependencyChain operations chain)
    {last : List Qubit} (hlast : last ∈ chain.getLast?) {q : Qubit} (hq : q ∈ last) :
    chain.length ≤ (stackAll operations).height q := by
  -- one operation more at the end, which is either left out or the last one of the chain
  induction operations using List.reverseRecOn generalizing chain last q with
  | nil =>
      rw [List.sublist_nil.mp h.sublist] at hlast
      cases hlast
  | append_singleton operations operation ih =>
      rw [stackAll_concat]
      rcases h.concat_cases with hbefore | ⟨earlier, rfl, hearlier, hmeet⟩
      · exact Nat.le_trans (ih hbefore hlast hq) (height_le_height_stack _ _ q)
      · rw [List.getLast?_concat, Option.mem_some_iff] at hlast
        subst hlast
        rw [height_stack, if_pos hq, List.length_append, List.length_singleton]
        apply Nat.succ_le_succ
        cases hend : earlier.getLast? with
        | none =>
            rw [List.getLast?_eq_none_iff.mp hend]
            exact Nat.zero_le _
        | some last =>
            -- the wire on which the two meet is high enough by then
            obtain ⟨p, hp, hpo⟩ := hmeet last hend
            exact Nat.le_trans (ih hearlier hend hp) (height_le_top _ hpo)

/-- Some chain that ends on a wire is as long as the wire is high. -/
theorem exists_dependencyChain {q : Qubit} (h : 0 < (stackAll operations).height q) :
    ∃ chain last, DependencyChain operations chain ∧ last ∈ chain.getLast? ∧ q ∈ last ∧
      chain.length = (stackAll operations).height q := by
  induction operations using List.reverseRecOn generalizing q with
  | nil => cases h
  | append_singleton operations operation ih =>
      rw [stackAll_concat, height_stack] at h ⊢
      by_cases hq : q ∈ operation
      · rw [if_pos hq]
        rcases Nat.eq_zero_or_pos ((stackAll operations).top operation) with hzero | hpos
        · -- no wire of the operation has a layer yet, so it is a chain by itself
          refine ⟨[operation], operation, ?_, rfl, hq, by rw [hzero]; rfl⟩
          exact ⟨List.sublist_append_right _ _, List.IsChain.singleton operation⟩
        · -- the chain that ends on the highest wire of the operation goes on with it
          obtain ⟨p, hp, hheight⟩ := exists_mem_eq_foldl_max hpos
          have hheight : (stackAll operations).height p = (stackAll operations).top operation := hheight
          obtain ⟨chain, last, hchain, hlast, hpl, hlength⟩ := ih (hheight ▸ hpos)
          refine ⟨chain ++ [operation], operation, ?_, List.getLast?_concat, hq, ?_⟩
          · apply hchain.concat
            intro last' hlast'
            cases Option.mem_unique hlast hlast'
            exact ⟨p, hpl, hp⟩
          · rw [List.length_append, List.length_singleton, hlength, hheight]
      · rw [if_neg hq] at h ⊢
        obtain ⟨chain, last, hchain, hrest⟩ := ih h
        exact ⟨chain, last, hchain.before, hrest⟩

/-! ## The depth -/

/-- Every operation of an acceptable gate has a qubit. -/
theorem Gate.Acceptable.ne_nil_of_mem_operations {width : Nat} {g : Gate} (h : g.Acceptable width)
    {operation : List Qubit} (hmem : operation ∈ g.operations) : operation ≠ [] := by
  have hsingle : ∀ targets : List Qubit, operation ∈ targets.map (fun q => [q]) → operation ≠ [] := by
    intro targets hmem
    obtain ⟨q, -, rfl⟩ := List.mem_map.mp hmem
    exact List.cons_ne_nil q []
  cases g with
  | fixed kind targets => exact hsingle targets hmem
  | rotation axis angle targets => exact hsingle targets hmem
  | measure targets => exact hsingle targets hmem
  | custom name qubits params =>
      rw [List.mem_singleton.mp hmem]
      exact h.1
  | _ =>
      rw [List.mem_singleton.mp hmem]
      exact List.cons_ne_nil _ _

/-- The highest wire behind acceptable gates is as high as their longest dependency chain is long. -/
theorem isGreatest_highest {width : Nat} {gates : List Gate} (h : ∀ g ∈ gates, g.Acceptable width) :
    IsGreatest {m | ∃ chain, DependencyChain (gates.flatMap Gate.operations) chain ∧ chain.length = m}
      (heightsOf gates).highest := by
  have hdistinct := distinct_heightsOf gates
  have hheights := heightsOf_eq gates
  refine ⟨?_, ?_⟩
  · rcases Nat.eq_zero_or_pos (heightsOf gates).highest with hzero | hpos
    · exact ⟨[], ⟨List.nil_sublist _, List.IsChain.nil⟩, hzero.symm⟩
    · obtain ⟨q, hq⟩ := hdistinct.exists_height_eq_highest hpos
      have hheight : (stackAll (gates.flatMap Gate.operations)).height q =
          (heightsOf gates).highest := hheights ▸ hq
      obtain ⟨chain, last, hchain, -, -, hlength⟩ := exists_dependencyChain (hheight ▸ hpos)
      exact ⟨chain, hchain, hlength.trans hheight⟩
  · rintro m ⟨chain, hchain, rfl⟩
    cases hend : chain.getLast? with
    | none =>
        rw [List.getLast?_eq_none_iff.mp hend]
        exact Nat.zero_le _
    | some last =>
        -- the last operation of the chain has a qubit, and the wire of that is high enough
        have hmem := hchain.sublist.subset (List.mem_of_getLast? hend)
        obtain ⟨g, hg, hlast⟩ := List.mem_flatMap.mp hmem
        obtain ⟨q, hq⟩ := List.exists_mem_of_ne_nil last ((h g hg).ne_nil_of_mem_operations hlast)
        have hle := hchain.length_le_height hend hq
        rw [← hheights] at hle
        exact Nat.le_trans hle (hdistinct.height_le_highest q)

namespace Circuit

/-- The depth of a finished circuit is the length of the longest dependency chain of its operations. -/
theorem isGreatest_depth {c : Circuit} (hc : c.Finished) :
    IsGreatest {m | ∃ chain, DependencyChain c.operations chain ∧ chain.length = m} c.depth ∧
      (c.gates = [] → c.depth = 0) :=
  ⟨isGreatest_highest fun _ hg => hc.acceptable hg, fun hnil => by rw [depth, hnil]; rfl⟩

/-- Control: a custom gate on two qubits waits for the broadcast gate on one of them, and a measurement
of a qubit twice waits for itself. -/
theorem isGreatest_depth_mixed :
    ∃ c : Circuit, c.Finished ∧
      c.gates = [.fixed .h [0, 1], .cx 0 1, .custom "u" [2, 1] [], .measure [0, 2, 2]] ∧
      IsGreatest {m | ∃ chain, DependencyChain c.operations chain ∧ chain.length = m} 5 := by
  let c : Circuit :=
    ⟨"demo", 3, [.fixed .h [0, 1], .cx 0 1, .custom "u" [2, 1] [], .measure [0, 2, 2]], []⟩
  have hc : c.Finished := ⟨_, [.push (.fixed .h [0, 1]), .cx 0 1, .custom "u" [2, 1] [],
    .measure [0, 2, 2]], rfl, rfl⟩
  exact ⟨c, hc, rfl, (isGreatest_depth hc).1⟩

end Circuit

/-! ## Gates and layers -/

/-- The layers that a gate fills on one wire: as many as a broadcast gate lists one target, one for any
other gate. -/
def Gate.layers (g : Gate) : Nat :=
  if g.isBroadcast then g.targets.foldl (fun n q => max n (g.targets.count q)) 0 else 1

/-- The layers that some gates fill, each counted on a wire where it fills most. -/
def totalLayers (gates : List Gate) : Nat := gates.foldl (fun n g => n + g.layers) 0

theorem totalLayers_concat (gates : List Gate) (g : Gate) :
    totalLayers (gates ++ [g]) = totalLayers gates + g.layers := by
  simp [totalLayers, List.foldl_append]

theorem Gate.count_le_layers {g : Gate} (hb : g.isBroadcast) (q : Qubit) :
    g.targets.count q ≤ g.layers := by
  rw [layers, if_pos hb]
  by_cases hq : q ∈ g.targets
  · exact ((foldl_max_le_iff (fun p => g.targets.count p) g.targets 0 _).mp (Nat.le_refl _)).2 q hq
  · rw [List.count_eq_zero_of_not_mem hq]
    exact Nat.zero_le _

/-- A gate that lists no target twice fills one layer at most. -/
theorem Gate.layers_le_one {g : Gate} (h : g.isBroadcast → g.targets.Nodup) : g.layers ≤ 1 := by
  unfold layers
  split
  · next hb =>
      rw [foldl_max_le_iff]
      exact ⟨Nat.zero_le 1, fun q _ => List.nodup_iff_count.mp (h hb) q⟩
  · exact Nat.le_refl 1

namespace Heights

theorem height_raise (heights : Heights) (p q : Qubit) :
    (heights.raise p).height q = if q = p then heights.height p + 1 else heights.height q :=
  height_set heights p _ q

/-- A broadcast gate adds a layer to a wire each time it lists the wire. -/
theorem height_foldl_raise (heights : Heights) (targets : List Qubit) (q : Qubit) :
    (targets.foldl raise heights).height q = heights.height q + targets.count q := by
  induction targets generalizing heights with
  | nil => rfl
  | cons p rest ih =>
      rw [List.foldl_cons, ih, height_raise, List.count_cons]
      by_cases hq : q = p
      · subst hq
        simp only [if_true, beq_self_eq_true]
        omega
      · have hne : (p == q) = false := by simpa using fun h : p = q => hq h.symm
        simp only [if_neg hq, hne, Bool.false_eq_true, if_false, Nat.add_zero]

theorem Distinct.place {heights : Heights} (h : heights.Distinct) (g : Gate) :
    (heights.place g).Distinct := by
  rw [place_eq]
  exact h.foldl_stack g.operations

/-- A gate deepens a circuit by at most the layers that it fills on one wire. -/
theorem highest_place_le {heights : Heights} (h : heights.Distinct) (g : Gate) :
    (heights.place g).highest ≤ heights.highest + g.layers := by
  rw [(h.place g).highest_le_iff]
  intro q
  have hq := h.height_le_highest q
  cases hb : g.isBroadcast with
  | true =>
      -- a target that is listed again raises its wire again, and the layers of the gate count that
      have hcount := g.count_le_layers hb q
      rw [Heights.place, if_pos hb, height_foldl_raise]
      omega
  | false =>
      have htop : heights.top g.qubits ≤ heights.highest :=
        (heights.top_le_iff _ _).mpr fun p _ => h.height_le_highest p
      have hlayers : g.layers = 1 := by
        rw [Gate.layers, hb]
        rfl
      rw [Heights.place, hb, if_neg Bool.false_ne_true, height_foldl_set, hlayers]
      by_cases hmem : q ∈ g.qubits
      · rw [if_pos hmem]
        omega
      · rw [if_neg hmem]
        omega

theorem heightsOf_concat (gates : List Gate) (g : Gate) :
    heightsOf (gates ++ [g]) = (heightsOf gates).place g := by
  simp [heightsOf, List.foldl_append]

theorem highest_heightsOf_le (gates : List Gate) :
    (heightsOf gates).highest ≤ totalLayers gates := by
  induction gates using List.reverseRecOn with
  | nil => exact Nat.le_refl 0
  | append_singleton gates g ih =>
      have hstep := highest_place_le (distinct_heightsOf gates) g
      rw [heightsOf_concat, totalLayers_concat]
      omega

end Heights

theorem totalLayers_le_length {gates : List Gate} (h : ∀ g ∈ gates, g.layers ≤ 1) :
    totalLayers gates ≤ gates.length := by
  induction gates using List.reverseRecOn with
  | nil => exact Nat.le_refl 0
  | append_singleton gates g ih =>
      obtain ⟨hgates, hg⟩ := List.forall_mem_append.mp h
      have hlast := List.forall_mem_singleton.mp hg
      have hle := ih hgates
      rw [totalLayers_concat, List.length_append, List.length_singleton]
      omega

namespace Circuit

/-- A circuit is at most as deep as its gates fill layers, each gate deepening it by its own layers at
most. Where no broadcast gate lists a target twice, it is at most as deep as it has gates. -/
theorem depth_le_totalLayers (c : Circuit) :
    c.depth ≤ totalLayers c.gates ∧
      (∀ g, ({ c with gates := c.gates ++ [g] } : Circuit).depth ≤ c.depth + g.layers) ∧
      ((∀ g ∈ c.gates, g.isBroadcast → g.targets.Nodup) → c.depth ≤ c.size) := by
  have htotal : c.depth ≤ totalLayers c.gates := highest_heightsOf_le c.gates
  refine ⟨htotal, ?_, ?_⟩
  · intro g
    rw [depth, heightsOf_concat]
    exact highest_place_le (distinct_heightsOf c.gates) g
  · intro hnodup
    apply Nat.le_trans htotal
    apply totalLayers_le_length
    intro g hg
    exact Gate.layers_le_one (hnodup g hg)

/-- Control: one measurement that lists its only target twice is a circuit of one gate and depth two. -/
theorem size_lt_depth_of_repeated_target :
    ∃ c : Circuit, c.Finished ∧ c.gates = [.measure [0, 0]] ∧ c.size = 1 ∧ c.depth = 2 :=
  ⟨⟨"demo", 1, [.measure [0, 0]], []⟩, ⟨_, [.measure [0, 0]], rfl, rfl⟩, rfl, rfl, rfl⟩

end Circuit

end QCircuit
