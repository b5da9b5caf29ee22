import QCircuit.Problem.Graph

/-!
# Sound problem graphs

An edge is sound on a register if it joins two different qubits of it (`Edge.Joins`). A list of edges is
resolved to the pairs of qubits that they join exactly when every edge is sound, and otherwise the first
edge that is not is reported (`Graph.mapM_join_cases`). The ring of at least two qubits is sound.
-/

set_option autoImplicit false

namespace QCircuit

/-- The edge joins two different qubits of the register. -/
structure Edge.Joins (width : Nat) (edge : Edge) : Prop where
  fst_lt : (edge.endpoints width).1 < width
  snd_lt : (edge.endpoints width).2 < width
  ne : (edge.endpoints width).1 ≠ (edge.endpoints width).2

/-- What is wrong with an edge that joins no two different qubits. An edge that leaves the register is
reported for that, also when it is a loop. -/
inductive Edge.Flaw (width : Nat) (edge : Edge) : InputFault → Prop
  | outside {i j : Nat} :
      edge.endpoints width = (i, j) → width ≤ i ∨ width ≤ j → Flaw width edge (.edgeOutside i j width)
  | selfLoop {i : Nat} :
      edge.endpoints width = (i, i) → i < width → Flaw width edge (.selfLoop i i)

theorem Edge.Flaw.not_joins {width : Nat} {edge : Edge} {fault : InputFault}
    (h : edge.Flaw width fault) : ¬ edge.Joins width := by
  rintro ⟨h1, h2, h3⟩
  cases h with
  | outside he hw =>
      rw [he] at h1 h2
      omega
  | selfLoop he _ =>
      rw [he] at h3
      exact h3 rfl

namespace Graph

theorem join_of_joins {width : Nat} {edge : Edge} (h : edge.Joins width) :
    join width edge = .ok (edge.endpoints width) := by
  obtain ⟨h1, h2, h3⟩ := h
  have hin : ¬ (width ≤ (edge.endpoints width).1 ∨ width ≤ (edge.endpoints width).2) := by omega
  simp only [join, if_neg hin, if_neg h3]

theorem join_cases (width : Nat) (edge : Edge) :
    (edge.Joins width ∧ join width edge = .ok (edge.endpoints width)) ∨
      ∃ fault, edge.Flaw width fault ∧ join width edge = .error fault := by
  rcases he : edge.endpoints width with ⟨i, j⟩
  -- the checks in their order: first the register, then the loop
  by_cases hout : width ≤ i ∨ width ≤ j
  · exact Or.inr ⟨_, .outside he hout, by simp only [join, he, if_pos hout]⟩
  · by_cases hij : i = j
    · subst hij
      exact Or.inr ⟨_, .selfLoop he (by omega), by simp only [join, he, if_neg hout, if_true]⟩
    · have hj : edge.Joins width := by
        constructor <;> rw [he]
        · exact Nat.lt_of_not_le fun h => hout (Or.inl h)
        · exact Nat.lt_of_not_le fun h => hout (Or.inr h)
        · exact hij
      exact Or.inl ⟨hj, by rw [join_of_joins hj, he]⟩

theorem mapM_join_cons_of_joins {width : Nat} {edge : Edge} (rest : List Edge)
    (h : edge.Joins width) :
    (edge :: rest).mapM (join width) =
      (rest.mapM (join width)).map fun pairs => edge.endpoints width :: pairs := by
  rw [List.mapM_cons, join_of_joins h]
  cases rest.mapM (join width) <;> rfl

/-- Sound edges are resolved in their order; otherwise the first edge with a flaw is reported. -/
theorem mapM_join_cases (width : Nat) (edges : List Edge) :
    ((∀ edge ∈ edges, edge.Joins width) ∧
        edges.mapM (join width) = .ok (edges.map (Edge.endpoints width))) ∨
      ∃ before edge after fault, edges = before ++ edge :: after ∧
        (∀ earlier ∈ before, earlier.Joins width) ∧ edge.Flaw width fault ∧
        edges.mapM (join width) = .error fault := by
  induction edges with
  | nil => exact Or.inl ⟨fun edge h => (List.not_mem_nil h).elim, rfl⟩
  | cons edge rest ih =>
      rcases join_cases width edge with ⟨hj, -⟩ | ⟨fault, hf, he⟩
      · -- a sound first edge leaves the answer to the rest of the list
        have hcons := mapM_join_cons_of_joins rest hj
        rcases ih with ⟨hall, hok⟩ | ⟨before, bad, after, fault, rfl, hbefore, hf, herr⟩
        · refine Or.inl ⟨List.forall_mem_cons.mpr ⟨hj, hall⟩, ?_⟩
          rw [hcons, hok]
          rfl
        · refine Or.inr ⟨edge :: before, bad, after, fault, rfl,
            List.forall_mem_cons.mpr ⟨hj, hbefore⟩, hf, ?_⟩
          rw [hcons, herr]
          rfl
      · -- an unsound first edge is reported, whatever comes after it
        refine Or.inr ⟨[], edge, rest, fault, rfl, fun _ h => (List.not_mem_nil h).elim, hf, ?_⟩
        rw [List.mapM_cons, he]
        rfl

theorem mapM_join_of_joins {width : Nat} {edges : List Edge}
    (h : ∀ edge ∈ edges, edge.Joins width) :
    edges.mapM (join width) = .ok (edges.map (Edge.endpoints width)) := by
  rcases mapM_join_cases width edges with ⟨-, hok⟩ | ⟨before, edge, after, fault, rfl, -, hf, -⟩
  · exact hok
  · exact absurd (h edge (by simp)) hf.not_joins

/-- Every pair that is resolved joins two different qubits of the register. -/
theorem joined_of_mapM_ok {width : Nat} {edges : List Edge} {pairs : List (Qubit × Qubit)}
    (h : edges.mapM (join width) = .ok pairs) :
    ∀ p ∈ pairs, p.1 < width ∧ p.2 < width ∧ p.1 ≠ p.2 := by
  rcases mapM_join_cases width edges with ⟨hall, hok⟩ | ⟨_, _, _, _, _, _, _, herr⟩
  · rw [h] at hok
    cases hok
    intro p hp
    obtain ⟨edge, he, rfl⟩ := List.mem_map.mp hp
    exact ⟨(hall edge he).fst_lt, (hall edge he).snd_lt, (hall edge he).ne⟩
  · rw [h] at herr
    cases herr

theorem joined_of_edges_ok {width : Nat} {edges : Option (List Edge)}
    {pairs : List (Qubit × Qubit)} (h : Graph.edges width edges = .ok pairs) :
    ∀ p ∈ pairs, p.1 < width ∧ p.2 < width ∧ p.1 ≠ p.2 := by
  cases edges with
  | none => exact joined_of_mapM_ok h
  | some edges => exact joined_of_mapM_ok h

theorem length_of_mapM_ok {width : Nat} {edges : List Edge} {pairs : List (Qubit × Qubit)}
    (h : edges.mapM (join width) = .ok pairs) : pairs.length = edges.length := by
  rcases mapM_join_cases width edges with ⟨-, hok⟩ | ⟨_, _, _, _, _, _, _, herr⟩
  · rw [h] at hok
    cases hok
    exact List.length_map _
  · rw [h] at herr
    cases herr

/-- There is one pair for each edge, be it a given one or one of the ring. -/
theorem length_edges {width : Nat} {edges : Option (List Edge)} {pairs : List (Qubit × Qubit)}
    (h : Graph.edges width edges = .ok pairs) : pairs.length = (edges.getD (ring width)).length := by
  cases edges with
  | none => exact length_of_mapM_ok h
  | some edges => exact length_of_mapM_ok h

/-! ## The ring -/

/-- A qubit number below `2 ^ 32` is the vertex of that number. -/
theorem endpoints_vertex {width i : Nat} (hi : i < width) (hw : width ≤ 2 ^ 32) :
    (Edge.vertex (UInt32.ofNat i)).endpoints width = (i, (i + 1) % width) := by
  have hn : (UInt32.ofNat i).toNat = i := by
    rw [UInt32.toNat_ofNat']
    exact Nat.mod_eq_of_lt (by omega)
  have hmax : max width 1 = width := by omega
  simp only [Edge.endpoints, hn, hmax]

theorem joins_of_mem_ring {width : Nat} (h2 : 2 ≤ width) (hw : width ≤ 2 ^ 32) {edge : Edge}
    (he : edge ∈ ring width) : edge.Joins width := by
  obtain ⟨i, hi, rfl⟩ := List.mem_map.mp he
  have hlt : i < width := List.mem_range.mp hi
  have hmod : (i + 1) % width < width := Nat.mod_lt _ (by omega)
  have hne : i ≠ (i + 1) % width := by
    rcases Nat.lt_or_eq_of_le (Nat.succ_le_of_lt hlt) with hnext | hlast
    · rw [Nat.mod_eq_of_lt hnext]
      omega
    · -- the last qubit is joined to the first, which is another one on two qubits or more
      rw [show i + 1 = width from hlast, Nat.mod_self]
      omega
  constructor <;> rw [endpoints_vertex hlt hw]
  · exact hlt
  · exact hmod
  · exact hne

end Graph

end QCircuit
