import Mathlib.Data.List.Induction
import QCircuit.Proofs.Circuit.Building

/-!
# What metadata a run of edits leaves

A key that is set again keeps its place and takes the new value (`Json.Members.keys_put`,
`Json.Members.mem_put_iff`). So the metadata of a run list each key that was set once, in the order in which
the keys were set first, and with the value that the key was set to last (`Recorded`). An edit that sets a
key keeps this (`Recorded.put`), and so does any other edit, which leaves the metadata alone
(`Recorded.pass`); by induction it holds after every run (`Builder.recorded_run`).

Gates and metadata do not meet: the metadata of a run are those of its metadata edits alone, and its gates
those of its other edits alone.
-/

set_option autoImplicit false

namespace QCircuit

/-! ## Setting a key -/

namespace Json.Members

/-- The keys of an object, in order. -/
def keys (members : Members) : List String := members.map Prod.fst

variable {members : Members} {key : String} {value : Json String}

/-- A key that is present keeps its place, a new one comes last. -/
theorem keys_put (key : String) (value : Json String) (members : Members) :
    (members.put key value).keys =
      if key ∈ members.keys then members.keys else members.keys ++ [key] := by
  induction members with
  | nil => rfl
  | cons member rest ih =>
      obtain ⟨k, v⟩ := member
      by_cases h : k = key
      · simp [put, keys, h]
      · -- the first member stays, so the key is new exactly when it is new to the rest
        have hrest : keys ((k, v) :: rest) = k :: keys rest := rfl
        have hput : keys (put key value ((k, v) :: rest)) = k :: keys (put key value rest) := by
          rw [put, if_neg h]
          rfl
        have hmem : key ∈ k :: keys rest ↔ key ∈ keys rest := by
          rw [List.mem_cons, or_iff_right (Ne.symm h)]
        rw [hput, ih, hrest]
        simp only [hmem]
        split <;> rfl

theorem mem_keys_put {k : String} :
    k ∈ (members.put key value).keys ↔ k = key ∨ k ∈ members.keys := by
  rw [keys_put]
  split
  · next h =>
      refine ⟨Or.inr, ?_⟩
      rintro (rfl | hk)
      · exact h
      · exact hk
  · rw [List.mem_append, List.mem_singleton, or_comm]

theorem mem_keys_of_mem {k : String} {v : Json String} (h : (k, v) ∈ members) : k ∈ members.keys :=
  List.mem_map_of_mem h

/-- Where each key is present once, setting one changes its value and no other. -/
theorem mem_put_iff (h : members.keys.Nodup) {k : String} {v : Json String} :
    (k, v) ∈ members.put key value ↔ (k = key ∧ v = value) ∨ (k ≠ key ∧ (k, v) ∈ members) := by
  induction members with
  | nil =>
      rw [put, List.mem_singleton, Prod.mk.injEq]
      simp
  | cons member rest ih =>
      obtain ⟨own, old⟩ := member
      obtain ⟨hnew, hrest⟩ := List.nodup_cons.mp h
      by_cases hown : own = key
      · -- the key is here, so it is nowhere in the rest
        subst hown
        rw [put, if_pos rfl, List.mem_cons, List.mem_cons, Prod.mk.injEq, Prod.mk.injEq]
        constructor
        · rintro (heq | hmem)
          · exact Or.inl heq
          · have hk : k ≠ own := by
              rintro rfl
              exact hnew (mem_keys_of_mem hmem)
            exact Or.inr ⟨hk, Or.inr hmem⟩
        · rintro (heq | ⟨hk, heq | hmem⟩)
          · exact Or.inl heq
          · exact absurd heq.1 hk
          · exact Or.inr hmem
      · -- another key is here, and the rest decides
        rw [put, if_neg hown, List.mem_cons, List.mem_cons, ih hrest, Prod.mk.injEq]
        constructor
        · rintro (⟨rfl, rfl⟩ | heq | ⟨hk, hmem⟩)
          · exact Or.inr ⟨hown, Or.inl ⟨rfl, rfl⟩⟩
          · exact Or.inl heq
          · exact Or.inr ⟨hk, Or.inr hmem⟩
        · rintro (heq | ⟨hk, heq | hmem⟩)
          · exact Or.inr (Or.inl heq)
          · exact Or.inl heq
          · exact Or.inr (Or.inr ⟨hk, hmem⟩)

end Json.Members

/-! ## Keys in a row of edits -/

/-- The key that an edit sets. -/
def Edit.key? (edit : Edit) : Option String := edit.entry?.map Prod.fst

/-- Where a row of edits sets a key first. -/
def firstSet (edits : List Edit) (key : String) : Nat :=
  edits.findIdx fun edit => edit.key? = some key

/-- Some edit sets the key to the value, and no later one sets the key. -/
def LastSet (edits : List Edit) (key : String) (value : Json String) : Prop :=
  ∃ before after, edits = before ++ .describe key value :: after ∧
    ∀ other, .describe key other ∉ after

variable {edits : List Edit} {edit : Edit} {key : String} {value : Json String}

theorem Edit.eq_describe_of_entry? (h : edit.entry? = some (key, value)) :
    edit = .describe key value := by
  cases edit <;> cases h
  rfl

/-- A key that has been set before is not set first by a later edit. -/
theorem firstSet_concat_of_lt (edit : Edit) (h : firstSet edits key < edits.length) :
    firstSet (edits ++ [edit]) key = firstSet edits key := by
  unfold firstSet at h ⊢
  rw [List.findIdx_append, if_pos h]

theorem firstSet_concat_describe (value : Json String) (h : ¬ firstSet edits key < edits.length) :
    firstSet (edits ++ [.describe key value]) key = edits.length := by
  have hlast : List.findIdx (fun edit => edit.key? = some key) [Edit.describe key value] = 0 :=
    List.findIdx_singleton.trans (if_pos (decide_eq_true rfl))
  unfold firstSet at h ⊢
  rw [List.findIdx_append, if_neg h, hlast, Nat.zero_add]

theorem firstSet_concat_lt_iff :
    firstSet (edits ++ [edit]) key < (edits ++ [edit]).length ↔
      edit.key? = some key ∨ firstSet edits key < edits.length := by
  unfold firstSet
  simp only [List.findIdx_lt_length, List.mem_append, List.mem_singleton, decide_eq_true_eq]
  constructor
  · rintro ⟨e, he | rfl, hkey⟩
    · exact Or.inr ⟨e, he, hkey⟩
    · exact Or.inl hkey
  · rintro (hkey | ⟨e, he, hkey⟩)
    · exact ⟨edit, Or.inr rfl, hkey⟩
    · exact ⟨e, Or.inl he, hkey⟩

/-- With one more edit the last value of a key is what that edit sets it to, or what it was, if that edit
does not set it. -/
theorem lastSet_concat_iff :
    LastSet (edits ++ [edit]) key value ↔
      edit = .describe key value ∨ (edit.key? ≠ some key ∧ LastSet edits key value) := by
  constructor
  · rintro ⟨before, after, heq, hlast⟩
    -- what sets the key last is the new edit itself, or the new edit stands behind it
    rcases after.eq_nil_or_concat with rfl | ⟨front, last, rfl⟩
    · obtain ⟨-, hedit⟩ := List.append_inj' heq rfl
      exact Or.inl (List.singleton_inj.mp hedit)
    · rw [List.concat_eq_append] at heq hlast
      rw [← List.cons_append, ← List.append_assoc] at heq
      obtain ⟨hedits, hedit⟩ := List.append_inj' heq rfl
      obtain rfl : edit = last := List.singleton_inj.mp hedit
      refine Or.inr ⟨?_, before, front, hedits, ?_⟩
      · intro hkey
        obtain ⟨⟨k, other⟩, hentry, rfl⟩ := Option.map_eq_some_iff.mp hkey
        rw [Edit.eq_describe_of_entry? hentry] at hlast
        exact hlast other (List.mem_append_right _ (List.mem_singleton_self _))
      · intro other hmem
        exact hlast other (List.mem_append_left _ hmem)
  · rintro (rfl | ⟨hkey, before, after, rfl, hlast⟩)
    · exact ⟨edits, [], rfl, fun other => List.not_mem_nil⟩
    · refine ⟨before, after ++ [edit], by simp, ?_⟩
      intro other hmem
      rcases List.mem_append.mp hmem with hmem | hmem
      · exact hlast other hmem
      · rw [← List.mem_singleton.mp hmem] at hkey
        exact hkey rfl

/-! ## What is recorded -/

/-- The metadata that a row of edits leaves: the keys that were set, in the order in which they were set
first, each with the value that it was set to last. -/
structure Recorded (edits : List Edit) (members : Json.Members) : Prop where
  ordered : members.keys.Pairwise fun j k => firstSet edits j < firstSet edits k
  mem_keys_iff : ∀ key, key ∈ members.keys ↔ firstSet edits key < edits.length
  mem_iff : ∀ key value, (key, value) ∈ members ↔ LastSet edits key value

namespace Recorded

variable {members : Json.Members}

theorem empty : Recorded [] [] where
  ordered := List.Pairwise.nil
  mem_keys_iff _ := ⟨fun h => absurd h List.not_mem_nil, fun h => absurd h (Nat.not_lt_zero _)⟩
  mem_iff key value := by
    refine ⟨fun h => absurd h List.not_mem_nil, ?_⟩
    rintro ⟨before, after, heq, -⟩
    exact absurd heq.symm (List.append_ne_nil_of_right_ne_nil _ (List.cons_ne_nil _ _))

theorem nodup_keys (h : Recorded edits members) : members.keys.Nodup :=
  h.ordered.imp fun hlt heq => Nat.ne_of_lt hlt (congrArg _ heq)

/-- The keys that are there stay in their order, whatever is edited next. -/
theorem ordered_concat (h : Recorded edits members) (edit : Edit) :
    members.keys.Pairwise fun j k =>
      firstSet (edits ++ [edit]) j < firstSet (edits ++ [edit]) k := by
  refine h.ordered.imp_of_mem ?_
  intro j k hj hk hlt
  rw [firstSet_concat_of_lt edit ((h.mem_keys_iff j).mp hj),
    firstSet_concat_of_lt edit ((h.mem_keys_iff k).mp hk)]
  exact hlt

/-- An edit that sets no key leaves nothing to record. -/
theorem pass (h : Recorded edits members) (hedit : edit.key? = none) :
    Recorded (edits ++ [edit]) members where
  ordered := h.ordered_concat edit
  mem_keys_iff key := by
    rw [firstSet_concat_lt_iff, h.mem_keys_iff, hedit]
    simp
  mem_iff key value := by
    rw [lastSet_concat_iff, h.mem_iff, hedit]
    constructor
    · exact fun hlast => Or.inr ⟨Option.some_ne_none key |>.symm, hlast⟩
    · rintro (rfl | ⟨-, hlast⟩)
      · cases hedit
      · exact hlast

/-- An edit that sets a key is recorded by setting the key. -/
theorem put (h : Recorded edits members) (key : String) (value : Json String) :
    Recorded (edits ++ [.describe key value]) (members.put key value) where
  ordered := by
    rw [Json.Members.keys_put]
    split
    · exact h.ordered_concat _
    · -- a new key comes last, and it was set first by the new edit
      next hnew =>
        rw [h.mem_keys_iff] at hnew
        refine List.pairwise_append.mpr ⟨h.ordered_concat _, List.pairwise_singleton _ _, ?_⟩
        intro j hj k hk
        rw [h.mem_keys_iff] at hj
        rw [List.mem_singleton.mp hk, firstSet_concat_of_lt _ hj, firstSet_concat_describe value hnew]
        exact hj
  mem_keys_iff k := by
    have hkey : (Edit.describe key value).key? = some k ↔ k = key := by
      rw [eq_comm (a := k)]
      exact Option.some_inj
    rw [Json.Members.mem_keys_put, firstSet_concat_lt_iff, h.mem_keys_iff, hkey]
  mem_iff k v := by
    have hkey : (Edit.describe key value).key? ≠ some k ↔ k ≠ key := by
      rw [ne_comm (a := k)]
      exact not_congr Option.some_inj
    rw [Json.Members.mem_put_iff h.nodup_keys, lastSet_concat_iff, h.mem_iff, hkey,
      Edit.describe.injEq, eq_comm (a := k), eq_comm (a := v)]

end Recorded

namespace Builder

/-- One more edit sets its key, if it has one, and otherwise leaves the metadata alone. -/
theorem metadata_run_concat (b : Builder) (edits : List Edit) (edit : Edit) :
    (b.run (edits ++ [edit])).metadata = match edit.entry? with
      | some (key, value) => (b.run edits).metadata.put key value
      | none => (b.run edits).metadata := by
  rw [run_append, metadata_run (b.run edits)]
  cases h : edit.entry? with
  | none => rw [List.filterMap_cons_none h, List.filterMap_nil, List.foldl_nil]
  | some entry => rw [List.filterMap_cons_some h, List.filterMap_nil, List.foldl_cons, List.foldl_nil]

/-- A run on a builder without metadata leaves just what its edits record. -/
theorem recorded_run {b : Builder} (hb : b.metadata = []) (edits : List Edit) :
    Recorded edits (b.run edits).metadata := by
  induction edits using List.reverseRecOn with
  | nil =>
      have hrun : (b.run []).metadata = [] := hb
      rw [hrun]
      exact .empty
  | append_singleton edits edit ih =>
      rw [metadata_run_concat]
      cases hentry : edit.entry? with
      | none => exact ih.pass (by rw [Edit.key?, hentry]; rfl)
      | some entry =>
          obtain ⟨key, value⟩ := entry
          rw [Edit.eq_describe_of_entry? hentry]
          exact ih.put key value

/-- The edits that set no key have no part in the metadata. -/
theorem metadata_run_filter (b : Builder) (edits : List Edit) :
    (b.run (edits.filter fun edit => edit.entry?.isSome)).metadata = (b.run edits).metadata := by
  have hentry (edit : Edit) : (if edit.entry?.isSome then edit.entry? else none) = edit.entry? := by
    cases edit.entry? <;> rfl
  rw [metadata_run, metadata_run, List.filterMap_filter]
  simp only [hentry]

/-- The edits that set a key have no part in the gates. -/
theorem gates_run_filter (b : Builder) (edits : List Edit) :
    (b.run (edits.filter fun edit => edit.entry?.isNone)).gates = (b.run edits).gates := by
  have hattempt (edit : Edit) :
      (if edit.entry?.isNone then edit.attempt? b.width else none) = edit.attempt? b.width := by
    cases edit <;> rfl
  apply Array.toList_inj.mp
  rw [gates_run, gates_run, appended, appended, List.filterMap_filter]
  simp only [hattempt]

/-- **A finished circuit lists each metadata key once, in the order in which the keys were set first, with
the value it was set to last**, however the edits that set keys are mixed with others, taken or refused. Its
metadata are those of the edits that set keys, and its gates those of the others. -/
theorem metadata_run_of_start (algorithm : String) {width : Nat} (hw : 0 < width)
    (edits : List Edit) :
    ∃ b, start algorithm width = .ok b ∧
      ((b.run edits).finish.metadata.map Prod.fst).Nodup ∧
      ((b.run edits).finish.metadata.map Prod.fst).Pairwise
        (fun j k => firstSet edits j < firstSet edits k) ∧
      (∀ key, key ∈ (b.run edits).finish.metadata.map Prod.fst ↔
        ∃ value, .describe key value ∈ edits) ∧
      (∀ key value, (key, value) ∈ (b.run edits).finish.metadata ↔
        ∃ before after, edits = before ++ .describe key value :: after ∧
          ∀ other, .describe key other ∉ after) ∧
      (b.run (edits.filter fun edit => edit.entry?.isSome)).finish.metadata =
        (b.run edits).finish.metadata ∧
      (b.run (edits.filter fun edit => edit.entry?.isNone)).finish.gates =
        (b.run edits).finish.gates := by
  have hrecorded := recorded_run (b := ⟨algorithm, width, #[], []⟩) rfl edits
  refine ⟨_, start_of_pos algorithm hw, hrecorded.nodup_keys, hrecorded.ordered, ?_,
    hrecorded.mem_iff, metadata_run_filter _ edits, congrArg Array.toList (gates_run_filter _ edits)⟩
  -- a key is in the metadata when some edit of the row sets it
  intro key
  refine (hrecorded.mem_keys_iff key).trans ?_
  rw [firstSet, List.findIdx_lt_length]
  simp only [decide_eq_true_eq]
  constructor
  · rintro ⟨edit, hmem, hkey⟩
    obtain ⟨⟨k, value⟩, hentry, rfl⟩ := Option.map_eq_some_iff.mp hkey
    exact ⟨value, Edit.eq_describe_of_entry? hentry ▸ hmem⟩
  · rintro ⟨value, hmem⟩
    exact ⟨_, hmem, rfl⟩

/-- Control: between two gates, one of them refused, a key is set to a new value after another key has come
in; it has its new value and stays in front. -/
theorem metadata_run_of_start_again :
    0 < 2 ∧ ∃ b edits, start "demo" 2 = .ok b ∧
      edits = [.describe "type" (.str "search"), .h 0, .describe "layers" (.nat 2), .cx 1 1,
        .describe "type" .null] ∧
      ("type", .null) ∈ (b.run edits).finish.metadata ∧
      ("layers", .nat 2) ∈ (b.run edits).finish.metadata ∧
      "edges" ∉ (b.run edits).finish.metadata.map Prod.fst ∧
      ((b.run edits).finish.metadata.map Prod.fst).Nodup ∧
      ((b.run edits).finish.metadata.map Prod.fst).Pairwise
        (fun j k => firstSet edits j < firstSet edits k) ∧
      firstSet edits "type" < firstSet edits "layers" := by
  obtain ⟨b, hb, hnodup, hordered, hkeys, hlast, -⟩ :=
    metadata_run_of_start "demo" (show 0 < 2 by decide)
      [.describe "type" (.str "search"), .h 0, .describe "layers" (.nat 2), .cx 1 1,
        .describe "type" .null]
  refine ⟨by decide, b, _, hb, rfl, (hlast _ _).mpr ?_, (hlast _ _).mpr ?_, mt (hkeys _).mp ?_, hnodup,
    hordered, by decide⟩
  · exact ⟨[.describe "type" (.str "search"), .h 0, .describe "layers" (.nat 2), .cx 1 1], [], rfl,
      fun other => List.not_mem_nil⟩
  · refine ⟨[.describe "type" (.str "search"), .h 0], [.cx 1 1, .describe "type" .null], rfl, ?_⟩
    simp
  · simp

end Builder

end QCircuit
