import QCircuit.Proofs.Problem.Graph
import QCircuit.Proofs.Words.Checked

/-!
# Problem graphs on words

The vertices of an edge and the edges of a problem, computed on words of 32 bits with every operation
checked. A vertex is brought onto the register before it is counted on, so the next one is a word for every
vertex, the last word included, and a register without qubits counts as one qubit, so there is a remainder
(`Edge.wordEndpoints?_eq`). All edges are resolved before the first of them is looked at, and still the
answer is the one of the graph on numbers (`Graph.wordEdges?_eq`).
-/

set_option autoImplicit false

namespace QCircuit

/-- The numbers of two words. -/
abbrev Word.toNats (pair : UInt32 × UInt32) : Nat × Nat := (pair.1.toNat, pair.2.toNat)

/-- The two vertices of an edge on a register. -/
def Edge.wordEndpoints? (width : UInt32) : Edge → Option (UInt32 × UInt32)
  | .pair i j => some (i, j)
  | .vertex v => do
      let count := max width 1
      let place ← Word.mod? v count
      let next ← Word.add? place 1
      let around ← Word.mod? next count
      some (v, around)

/-- No edge and no register stop the computation, and what it gives are the vertices of the edge. -/
theorem Edge.wordEndpoints?_eq (width : UInt32) (edge : Edge) :
    ∃ pair, edge.wordEndpoints? width = some pair ∧ Word.toNats pair = edge.endpoints width.toNat := by
  cases edge with
  | pair i j => exact ⟨(i, j), rfl, rfl⟩
  | vertex v =>
      have hcount : (max width 1).toNat = max width.toNat 1 := Word.toNat_max width 1
      have hpos : (max width 1).toNat ≠ 0 := by omega
      have hone : (1 : UInt32).toNat = 1 := rfl
      obtain ⟨place, hplace, hplace'⟩ := Word.exists_mod? (a := v) hpos
      -- a place on the register is below some word, so the next place is a word
      have hlt := Nat.mod_lt v.toNat (Nat.pos_of_ne_zero hpos)
      have hword := (max width 1).toNat_lt
      obtain ⟨next, hnext, hnext'⟩ := Word.exists_add? (a := place) (b := 1) (by omega)
      obtain ⟨around, haround, haround'⟩ := Word.exists_mod? (a := next) hpos
      refine ⟨(v, around), ?_, ?_⟩
      · simp only [wordEndpoints?, hplace, hnext, haround, Option.bind_eq_bind, Option.bind_some]
      · rw [hnext', hplace', hone, Nat.mod_add_mod, hcount] at haround'
        rw [Word.toNats, haround']
        rfl

namespace Graph

/-- What is wrong with two vertices that are to be joined. -/
def wordFault? (width : UInt32) (pair : UInt32 × UInt32) : Option InputFault :=
  if width ≤ pair.1 ∨ width ≤ pair.2 then
    some (.edgeOutside pair.1.toNat pair.2.toNat width.toNat)
  else if pair.1 = pair.2 then some (.selfLoop pair.1.toNat pair.2.toNat)
  else none

/-- The pairs if all of them may be joined, or what is wrong with the first that may not. -/
def wordAnswer (width : UInt32) (pairs : List (UInt32 × UInt32)) :
    Except InputFault (List (UInt32 × UInt32)) :=
  match pairs.findSome? (wordFault? width) with
  | some fault => .error fault
  | none => .ok pairs

/-- The words that each edge of a problem joins. -/
def wordEdges? (width : UInt32) (edges : Option (List Edge)) :
    Option (Except InputFault (List (UInt32 × UInt32))) :=
  ((edges.getD ((Word.below width).map .vertex)).mapM (Edge.wordEndpoints? width)).map
    (wordAnswer width)

variable {width : UInt32} {edge : Edge} {pair : UInt32 × UInt32}

/-- An edge is joined as its two words are judged. -/
theorem join_eq_of_toNats (h : Word.toNats pair = edge.endpoints width.toNat) :
    join width.toNat edge = match wordFault? width pair with
      | some fault => .error fault
      | none => .ok (Word.toNats pair) := by
  have hout : (width ≤ pair.1 ∨ width ≤ pair.2) ↔
      (width.toNat ≤ pair.1.toNat ∨ width.toNat ≤ pair.2.toNat) := by
    rw [UInt32.le_iff_toNat_le, UInt32.le_iff_toNat_le]
  have hloop : pair.1 = pair.2 ↔ pair.1.toNat = pair.2.toNat := UInt32.toNat_inj.symm
  simp only [join, ← h, wordFault?, hout, hloop]
  split
  · rfl
  · split <;> rfl

theorem wordAnswer_cons_of_fault {fault : InputFault} (h : wordFault? width pair = some fault)
    (rest : List (UInt32 × UInt32)) : wordAnswer width (pair :: rest) = .error fault := by
  simp only [wordAnswer, List.findSome?_cons, h]

theorem wordAnswer_cons_of_sound (h : wordFault? width pair = none)
    (rest : List (UInt32 × UInt32)) :
    wordAnswer width (pair :: rest) = (wordAnswer width rest).map (pair :: ·) := by
  simp only [wordAnswer, List.findSome?_cons, h]
  cases rest.findSome? (wordFault? width) <;> rfl

/-- The first fault among all resolved pairs is the one that joining the edges one by one meets. -/
theorem mapM_wordEndpoints? (width : UInt32) (edges : List Edge) :
    ∃ pairs, edges.mapM (Edge.wordEndpoints? width) = some pairs ∧
      (wordAnswer width pairs).map (List.map Word.toNats) = edges.mapM (join width.toNat) := by
  induction edges with
  | nil => exact ⟨[], rfl, rfl⟩
  | cons edge rest ih =>
      obtain ⟨pair, hpair, hnats⟩ := edge.wordEndpoints?_eq width
      obtain ⟨pairs, hpairs, hrest⟩ := ih
      refine ⟨pair :: pairs, ?_, ?_⟩
      · rw [List.mapM_cons, hpair, hpairs]
        rfl
      · -- the words of an edge have the fault that its numbers have
        have hjoin := join_eq_of_toNats hnats
        rw [List.mapM_cons, hjoin, ← hrest]
        cases hfault : wordFault? width pair with
        | some fault =>
            rw [wordAnswer_cons_of_fault hfault]
            rfl
        | none =>
            rw [wordAnswer_cons_of_sound hfault]
            cases wordAnswer width pairs <;> rfl

theorem ring_eq (width : UInt32) : ring width.toNat = (Word.below width).map .vertex := by
  rw [ring, Word.below, List.map_map]
  rfl

/-- On words the graph is resolved without a stop, and as on numbers. -/
theorem wordEdges?_eq (width : UInt32) (edges : Option (List Edge)) :
    (wordEdges? width edges).map (Except.map (List.map Word.toNats)) =
      some (Graph.edges width.toNat edges) := by
  have hgiven : Graph.edges width.toNat edges =
      (edges.getD ((Word.below width).map .vertex)).mapM (join width.toNat) := by
    cases edges with
    | none => rw [Graph.edges, ring_eq, Option.getD_none]
    | some edges => rfl
  obtain ⟨pairs, hpairs, hanswer⟩ := mapM_wordEndpoints? width
    (edges.getD ((Word.below width).map .vertex))
  rw [wordEdges?, hpairs, hgiven, ← hanswer]
  rfl

theorem exists_wordEdges? {edges : Option (List Edge)} {pairs : List (Qubit × Qubit)}
    (h : Graph.edges width.toNat edges = .ok pairs) :
    ∃ words, wordEdges? width edges = some (.ok words) ∧ words.map Word.toNats = pairs := by
  have heq := wordEdges?_eq width edges
  rw [h, Option.map_eq_some_iff] at heq
  obtain ⟨answer, hanswer, hpairs⟩ := heq
  cases answer with
  | error fault => cases hpairs
  | ok words => exact ⟨words, hanswer, Except.ok.inj hpairs⟩

theorem wordEdges?_of_error {edges : Option (List Edge)} {fault : InputFault}
    (h : Graph.edges width.toNat edges = .error fault) :
    wordEdges? width edges = some (.error fault) := by
  have heq := wordEdges?_eq width edges
  rw [h, Option.map_eq_some_iff] at heq
  obtain ⟨answer, hanswer, hfault⟩ := heq
  cases answer with
  | error fault' =>
      rw [hanswer, Except.error.inj hfault]
  | ok words => cases hfault

end Graph

end QCircuit
