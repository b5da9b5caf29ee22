import Mathlib.Data.List.Perm.Basic
import QCircuit.Proofs.Words.Graph

/-!
# How a problem graph is resolved

The edges of a problem are resolved one for one and in their order, exactly if all of them are sound
(`Graph.mapM_join_eq_ok_iff`); otherwise the first that is not is reported. Without a list of edges the
pairs are the ring, in which the second vertices are the first ones counted on by one around the register,
and so the same vertices in another order (`Graph.perm_next`). On words of 32 bits nothing of this is
different (`Graph.edges_answer`).
-/

set_option autoImplicit false

namespace QCircuit.Graph

variable {width : Nat}

/-! ## Given edges -/

theorem mapM_join_eq_ok_iff {edges : List Edge} {pairs : List (Qubit × Qubit)} :
    edges.mapM (join width) = .ok pairs ↔
      (∀ edge ∈ edges, edge.Joins width) ∧ pairs = edges.map (Edge.endpoints width) := by
  constructor
  · intro hok
    rcases mapM_join_cases width edges with ⟨hall, hok'⟩ | ⟨_, _, _, _, -, -, -, herr⟩
    · rw [hok] at hok'
      exact ⟨hall, Except.ok.inj hok'⟩
    · rw [hok] at herr
      cases herr
  · rintro ⟨hall, rfl⟩
    exact mapM_join_of_joins hall

/-- The edge that is reported is the first that is not sound. -/
theorem exists_flaw_of_mapM_join {edges : List Edge} {fault : InputFault}
    (h : edges.mapM (join width) = .error fault) :
    ∃ before edge after, edges = before ++ edge :: after ∧
      (∀ earlier ∈ before, earlier.Joins width) ∧ edge.Flaw width fault := by
  rcases mapM_join_cases width edges with
    ⟨-, hok⟩ | ⟨before, edge, after, _, hedges, hbefore, hflaw, herr⟩
  · rw [h] at hok
    cases hok
  · rw [h] at herr
    cases herr
    exact ⟨before, edge, after, hedges, hbefore, hflaw⟩

/-- The edges that a problem gives, or else those of the ring. -/
def given (width : Nat) (edges : Option (List Edge)) : List Edge := edges.getD (ring width)

theorem edges_eq (width : Nat) (edges : Option (List Edge)) :
    Graph.edges width edges = (given width edges).mapM (join width) := by
  cases edges <;> rfl

/-! ## The ring -/

/-- The pairs of the ring. -/
def ringPairs (width : Nat) : List (Qubit × Qubit) :=
  (List.range width).map fun i => (i, (i + 1) % width)

theorem map_endpoints_ring (hw : width ≤ 2 ^ 32) :
    (ring width).map (Edge.endpoints width) = ringPairs width := by
  rw [ring, ringPairs, List.map_map]
  apply List.map_congr_left
  intro i hi
  exact endpoints_vertex (List.mem_range.mp hi) hw

/-- On two qubits or more the ring is sound. -/
theorem edges_none (h2 : 2 ≤ width) (hw : width ≤ 2 ^ 32) :
    Graph.edges width none = .ok (ringPairs width) := by
  rw [← map_endpoints_ring hw]
  exact mapM_join_of_joins fun edge he => joins_of_mem_ring h2 hw he

/-- Every vertex is the first one of one pair. -/
theorem map_fst_ringPairs (width : Nat) : (ringPairs width).map Prod.fst = List.range width := by
  rw [ringPairs, List.map_map]
  exact List.map_id _

/-- The vertices counted on by one around the register are the vertices in another order: the last becomes
the first and every other one the next. -/
theorem perm_next (width : Nat) :
    ((List.range width).map fun i => (i + 1) % width).Perm (List.range width) := by
  cases width with
  | zero => exact List.Perm.refl _
  | succ last =>
      have hnext : (List.range last).map (fun i => (i + 1) % (last + 1)) =
          (List.range last).map Nat.succ := by
        apply List.map_congr_left
        intro i hi
        exact Nat.mod_eq_of_lt (Nat.succ_lt_succ (List.mem_range.mp hi))
      rw [List.range_succ, List.map_append, List.map_singleton, Nat.mod_self, hnext, ← List.range_succ,
        List.range_succ_eq_map]
      exact List.perm_append_singleton 0 _

/-- Every vertex is the second one of one pair. -/
theorem perm_snd_ringPairs (width : Nat) :
    ((ringPairs width).map Prod.snd).Perm (List.range width) := by
  rw [ringPairs, List.map_map]
  exact perm_next width

/-! ## The answer -/

/-- **A problem graph is resolved exactly if every edge joins two different qubits of the register**, to
the pairs of all edges in their order; otherwise the first edge that does not is reported, as leaving the
register rather than as a loop where it is both. Without edges the graph is the ring: on two qubits or more
every vertex is once the first and once the second of a pair, and on one qubit it is a loop. Computed on
words the answer is the same for every register and every edge, and no operation is without a result. -/
theorem edges_answer (width : UInt32) (edges : Option (List Edge)) :
    ((∃ pairs, Graph.edges width.toNat edges = .ok pairs) ↔
      ∀ edge ∈ given width.toNat edges, edge.Joins width.toNat) ∧
    (∀ pairs, Graph.edges width.toNat edges = .ok pairs →
      pairs = (given width.toNat edges).map (Edge.endpoints width.toNat)) ∧
    (∀ fault, Graph.edges width.toNat edges = .error fault →
      ∃ before edge after, given width.toNat edges = before ++ edge :: after ∧
        (∀ earlier ∈ before, earlier.Joins width.toNat) ∧ edge.Flaw width.toNat fault) ∧
    (2 ≤ width.toNat → ∃ pairs, Graph.edges width.toNat none = .ok pairs ∧
      (pairs.map Prod.fst).Perm (List.range width.toNat) ∧
      (pairs.map Prod.snd).Perm (List.range width.toNat)) ∧
    (width.toNat = 1 → Graph.edges width.toNat none = .error (.selfLoop 0 0)) ∧
    (wordEdges? width edges).map (Except.map (List.map Word.toNats)) =
      some (Graph.edges width.toNat edges) := by
  refine ⟨⟨?_, ?_⟩, ?_, ?_, ?_, ?_, wordEdges?_eq width edges⟩
  · rintro ⟨pairs, hok⟩
    rw [edges_eq] at hok
    exact (mapM_join_eq_ok_iff.mp hok).1
  · intro hall
    rw [edges_eq]
    exact ⟨_, mapM_join_eq_ok_iff.mpr ⟨hall, rfl⟩⟩
  · intro pairs hok
    rw [edges_eq] at hok
    exact (mapM_join_eq_ok_iff.mp hok).2
  · intro fault herr
    rw [edges_eq] at herr
    exact exists_flaw_of_mapM_join herr
  · intro h2
    have hfst := map_fst_ringPairs width.toNat
    refine ⟨_, edges_none h2 (Nat.le_of_lt width.toNat_lt), ?_, perm_snd_ringPairs width.toNat⟩
    rw [hfst]
  · intro hone
    rw [hone]
    rfl

/-- Control: on the widest register the vertex before the last is joined to the last, and the last one
around to the first; on four qubits an edge that leaves the register, being a loop as well, spoils the
graph. -/
theorem edges_answer_widest :
    (∃ pairs, Graph.edges 4294967295 (some [.vertex 4294967293, .vertex 4294967294]) = .ok pairs ∧
      pairs = [(4294967293, 4294967294), (4294967294, 0)]) ∧
    (wordEdges? 4294967295 (some [.vertex 4294967293, .vertex 4294967294])).map
        (Except.map (List.map Word.toNats)) =
      some (.ok [(4294967293, 4294967294), (4294967294, 0)]) ∧
    ¬ ∃ pairs, Graph.edges 4 (some [.pair 0 2, .pair 7 7]) = .ok pairs := by
  obtain ⟨hiff, hpairs, -, -, -, hwords⟩ :=
    edges_answer 4294967295 (some [.vertex 4294967293, .vertex 4294967294])
  have hsound : ∀ edge ∈ given 4294967295 (some [.vertex 4294967293, .vertex 4294967294]),
      edge.Joins 4294967295 := by
    intro edge hedge
    rcases List.mem_pair.mp hedge with rfl | rfl
    · exact ⟨by decide, by decide, by decide⟩
    · exact ⟨by decide, by decide, by decide⟩
  obtain ⟨pairs, hok⟩ := hiff.mpr hsound
  refine ⟨⟨pairs, hok, hpairs pairs hok⟩, ?_, ?_⟩
  · rw [hwords, hok, hpairs pairs hok]
    rfl
  · intro hfour
    have hbad := (edges_answer 4 (some [.pair 0 2, .pair 7 7])).1.mp hfour (.pair 7 7) (by simp [given])
    exact absurd hbad.fst_lt (by decide)

end QCircuit.Graph
