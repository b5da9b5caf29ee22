import Mathlib.Algebra.GroupWithZero.Nat
import Mathlib.Data.List.Flatten
import Mathlib.Data.List.Sort
import Mathlib.Data.String.Basic
import QCircuit.Circuit

/-!
# Gates counted by name

A tally is kept in the order of its names, so a name is listed once and one more under it raises its count
alone (`Tally.count_add`). What the tally of a circuit says of a name is therefore how many gates bear it
(`Circuit.count_countOps`), and that is counted row by row (`named`). The names that are listed are those
that some gate bears (`Circuit.mem_countOps`), and together the counts come to the number of gates
(`Circuit.sum_countOps`).
-/

set_option autoImplicit false

namespace QCircuit

/-! ## Tallies -/

namespace Tally

/-- The count under a name. A name that is not listed has none. -/
def count (tally : Tally) (name : String) : Nat := (tally.lookup name).getD 0

/-- The names are listed in ascending order. -/
def Ascending (tally : Tally) : Prop := (tally.map Prod.fst).Pairwise (· < ·)

@[simp] theorem count_nil (name : String) : count [] name = 0 := rfl

theorem count_cons (other : String) (n : Nat) (rest : Tally) (name : String) :
    count ((other, n) :: rest) name = if name = other then n else count rest name := by
  by_cases hname : name = other
  · simp [count, hname]
  · have hne : (name == other) = false := by simpa using hname
    simp [count, List.lookup_cons, hne, hname]

/-- A name below all that are listed has no count. -/
theorem count_eq_zero {tally : Tally} {name : String} (h : ∀ other ∈ tally.map Prod.fst, name < other) :
    tally.count name = 0 := by
  induction tally with
  | nil => rfl
  | cons entry rest ih =>
      obtain ⟨other, n⟩ := entry
      obtain ⟨hother, hrest⟩ := List.forall_mem_cons.mp h
      rw [count_cons, if_neg (ne_of_lt hother)]
      exact ih hrest

theorem mem_names_add {tally : Tally} {name other : String} :
    other ∈ (tally.add name).map Prod.fst ↔ other = name ∨ other ∈ tally.map Prod.fst := by
  induction tally with
  | nil => simp [add]
  | cons entry rest ih =>
      obtain ⟨first, n⟩ := entry
      rw [add]
      split
      · next heq => simp [heq]
      · split
        · simp
        · rw [List.map_cons, List.map_cons, List.mem_cons, List.mem_cons, ih]
          exact or_left_comm

theorem Ascending.add {tally : Tally} (h : tally.Ascending) (name : String) :
    (tally.add name).Ascending := by
  induction tally with
  | nil => exact List.pairwise_singleton _ _
  | cons entry rest ih =>
      obtain ⟨first, n⟩ := entry
      obtain ⟨hfirst, hrest⟩ := List.pairwise_cons.mp h
      rw [Tally.add]
      split
      · exact h
      · split
        · next hlt =>
            refine List.pairwise_cons.mpr ⟨?_, h⟩
            intro other hother
            rcases List.mem_cons.mp hother with rfl | hother
            · exact hlt
            · exact lt_trans hlt (hfirst other hother)
        · next hne hle =>
            -- the name goes behind the first, which is below it and below the rest
            refine List.pairwise_cons.mpr ⟨?_, ih hrest⟩
            intro other hother
            rcases mem_names_add.mp hother with rfl | hother
            · exact lt_of_le_of_ne (not_lt.mp hle) (Ne.symm hne)
            · exact hfirst other hother

/-- One more under a name raises the count of that name and of no other. -/
theorem count_add {tally : Tally} (h : tally.Ascending) (name other : String) :
    (tally.add name).count other = tally.count other + if other = name then 1 else 0 := by
  induction tally with
  | nil => simp [add, count_cons]
  | cons entry rest ih =>
      obtain ⟨first, n⟩ := entry
      obtain ⟨hfirst, hrest⟩ := List.pairwise_cons.mp h
      rw [add]
      split
      · next heq =>
          subst heq
          rw [count_cons, count_cons]
          split <;> rfl
      · next hne =>
          split
          · next hlt =>
              -- a name that goes in front of an ascending list is not listed yet
              have hzero : count ((first, n) :: rest) name = 0 := by
                apply count_eq_zero
                intro other hother
                rcases List.mem_cons.mp hother with rfl | hother
                · exact hlt
                · exact lt_trans hlt (hfirst other hother)
              rw [count_cons]
              split
              · next heq =>
                  subst heq
                  rw [hzero]
              · rfl
          · rw [count_cons, count_cons, ih hrest]
            split
            · next heq =>
                subst heq
                rw [if_neg (Ne.symm hne)]
                rfl
            · rfl

end Tally

namespace Tally

/-- A name is listed with its count, if at all. -/
theorem Ascending.mem_iff {tally : Tally} (h : tally.Ascending) {name : String} {n : Nat} :
    (name, n) ∈ tally ↔ name ∈ tally.map Prod.fst ∧ tally.count name = n := by
  induction tally with
  | nil => simp
  | cons entry rest ih =>
      obtain ⟨first, m⟩ := entry
      obtain ⟨hfirst, hrest⟩ := List.pairwise_cons.mp h
      rw [count_cons, List.map_cons, List.mem_cons, List.mem_cons, ih hrest, Prod.mk.injEq]
      by_cases hname : name = first
      · -- the names behind the first are above it
        have hnot : name ∉ rest.map Prod.fst := fun hmem => lt_irrefl first (hname ▸ hfirst name hmem)
        simp [hname, hname ▸ hnot, eq_comm]
      · simp [hname]

/-- An ascending tally is told by its entries. -/
theorem Ascending.eq_of_mem_iff {tally other : Tally} (h : tally.Ascending) (hother : other.Ascending)
    (hmem : ∀ entry, entry ∈ tally ↔ entry ∈ other) : tally = other :=
  List.Pairwise.eq_of_mem_iff (List.pairwise_map.mp h) (List.pairwise_map.mp hother) hmem

theorem sum_add (tally : Tally) (name : String) :
    ((tally.add name).map Prod.snd).sum = (tally.map Prod.snd).sum + 1 := by
  induction tally with
  | nil => rfl
  | cons entry rest ih =>
      obtain ⟨first, n⟩ := entry
      rw [add]
      split
      · simp only [List.map_cons, List.sum_cons]
        omega
      · split
        · simp only [List.map_cons, List.sum_cons]
          omega
        · simp only [List.map_cons, List.sum_cons, ih]
          omega

end Tally

/-! ## Rows of gates -/

/-- How many gates of a row bear a name. -/
def named (name : String) (gates : List Gate) : Nat := (gates.map Gate.name).count name

variable {name : String}

@[simp] theorem named_nil : named name [] = 0 := rfl

theorem named_eq_countP (gates : List Gate) :
    named name gates = gates.countP fun g => g.name = name := by
  rw [named, List.count_eq_countP, List.countP_map]
  rfl

@[simp] theorem named_cons (g : Gate) (rest : List Gate) :
    named name (g :: rest) = (if g.name = name then 1 else 0) + named name rest := by
  simp [named, List.count_cons, Nat.add_comm]

@[simp] theorem named_append (before after : List Gate) :
    named name (before ++ after) = named name before + named name after := by
  simp [named]

/-- Rows with as many gates of a name. -/
theorem named_flatMap {α : Type} {f : α → List Gate} {count : Nat} (h : ∀ a, named name (f a) = count)
    (row : List α) : named name (row.flatMap f) = row.length * count := by
  induction row with
  | nil => simp
  | cons a rest ih =>
      rw [List.flatMap_cons, named_append, h, ih, List.length_cons, Nat.succ_mul]
      exact Nat.add_comm count _

/-- Gates that all bear one name. -/
theorem named_map {α : Type} {f : α → Gate} {own : String} (h : ∀ a, (f a).name = own)
    (row : List α) : named name (row.map f) = row.length * if own = name then 1 else 0 := by
  rw [List.map_eq_flatMap]
  apply named_flatMap
  intro a
  rw [named_cons, h, named_nil, Nat.add_zero]

/-! ## Circuits -/

namespace Circuit

theorem count_foldl_add (name : String) (gates : List Gate) {tally : Tally} (h : tally.Ascending) :
    (gates.foldl (fun tally g => tally.add g.name) tally).count name =
      tally.count name + named name gates := by
  induction gates generalizing tally with
  | nil => rfl
  | cons g rest ih =>
      rw [List.foldl_cons, ih (h.add g.name), Tally.count_add h, named_cons, Nat.add_assoc]
      simp only [eq_comm]

/-- The tally of a circuit says how many gates bear a name. -/
theorem count_countOps (c : Circuit) (name : String) : c.countOps.count name = named name c.gates := by
  have hascending : Tally.Ascending [] := List.Pairwise.nil
  have hfold := count_foldl_add name c.gates hascending
  rwa [Tally.count_nil, Nat.zero_add] at hfold

theorem ascending_foldl_add (gates : List Gate) {tally : Tally} (h : tally.Ascending) :
    (gates.foldl (fun tally g => tally.add g.name) tally).Ascending := by
  induction gates generalizing tally with
  | nil => exact h
  | cons g rest ih => exact ih (h.add g.name)

theorem ascending_countOps (c : Circuit) : c.countOps.Ascending :=
  ascending_foldl_add c.gates List.Pairwise.nil

theorem mem_names_foldl_add {name : String} {gates : List Gate} {tally : Tally} :
    name ∈ (gates.foldl (fun tally g => tally.add g.name) tally).map Prod.fst ↔
      (∃ g ∈ gates, g.name = name) ∨ name ∈ tally.map Prod.fst := by
  induction gates generalizing tally with
  | nil => simp
  | cons g rest ih =>
      rw [List.foldl_cons, ih, Tally.mem_names_add, List.exists_mem_cons_iff, ← or_assoc,
        eq_comm (a := name), or_comm (a := g.name = name)]

/-- The entries of a circuit's tally: the names that some gate bears, each with how many do. -/
theorem mem_countOps {c : Circuit} {name : String} {n : Nat} :
    (name, n) ∈ c.countOps ↔ (∃ g ∈ c.gates, g.name = name) ∧ named name c.gates = n := by
  have hnames : name ∈ c.countOps.map Prod.fst ↔ ∃ g ∈ c.gates, g.name = name := by
    rw [countOps, mem_names_foldl_add]
    exact or_iff_left List.not_mem_nil
  rw [(ascending_countOps c).mem_iff, hnames, count_countOps]

theorem sum_foldl_add (gates : List Gate) (tally : Tally) :
    ((gates.foldl (fun tally g => tally.add g.name) tally).map Prod.snd).sum =
      (tally.map Prod.snd).sum + gates.length := by
  induction gates generalizing tally with
  | nil => rfl
  | cons g rest ih =>
      rw [List.foldl_cons, ih, Tally.sum_add, List.length_cons]
      omega

/-- Every gate is counted under one name. -/
theorem sum_countOps (c : Circuit) : (c.countOps.map Prod.snd).sum = c.size := by
  rw [countOps, sum_foldl_add]
  exact Nat.zero_add _

end Circuit

end QCircuit
