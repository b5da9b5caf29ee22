import Mathlib.Data.List.Forall2
import QCircuit.Json.Record
import QCircuit.Proofs.Json.Reader

/-!
# What is read of a record

The readers of whole numbers and of keyed members are exact: what they return tells what they were given
(`Record.uint32?_eq_some_iff`, `Record.int64?_eq_some_iff`, `Record.keyed?_eq_some_iff`), and a row whose
items are read exactly is read exactly (`mapM_eq_some_iff`).

The fields of an object go by the strings that its keys denote (`Json.Keyed`), however the keys are
spelled. What is read of an object depends on the values that stand under the name of a field alone
(`Record.optional?_iff`, `Record.default?_iff`), so members under other names may stand anywhere.
-/

set_option autoImplicit false

namespace QCircuit.Json

/-- Where each item is read exactly, so is the row of them. -/
theorem mapM_eq_some_iff {α β : Type} {read : α → Option β} {write : β → α}
    (h : ∀ a b, read a = some b ↔ a = write b) (row : List α) (values : List β) :
    row.mapM read = some values ↔ row = values.map write := by
  induction row generalizing values with
  | nil =>
      cases values with
      | nil => simp
      | cons b rest => simp
  | cons a row ih =>
      cases values with
      | nil => simp [Option.bind_eq_some_iff]
      | cons b rest => simp [Option.bind_eq_some_iff, h, ih]

/-! ## Forms of a tree -/

theorem Tree.reading_eq_null_iff {tree : Tree} : tree.reading = .null ↔ tree = .null := by
  cases tree with
  | number literal =>
      rw [Tree.reading, Literal.value]
      cases literal.wholeNumber? <;> simp
  | _ => simp [Tree.reading]

theorem Tree.reading_eq_int_iff {tree : Tree} {z : Int} :
    tree.reading = .int z ↔ tree.IsWhole z ∧ -(2 ^ 63) ≤ z ∧ z < 2 ^ 64 := by
  cases tree with
  | number literal => exact Literal.value_eq_int_iff
  | _ =>
      -- nothing but a number is written as one
      refine iff_of_false (fun h => ?_) (fun h => ?_)
      · cases h
      · cases h.1

theorem Tree.reading_eq_arr_iff {tree : Tree} {items : List Reading} :
    tree.reading = .arr items ↔ ∃ trees, tree = .array trees ∧ trees.map reading = items := by
  cases tree with
  | number literal =>
      rw [Tree.reading, Literal.value]
      cases literal.wholeNumber? <;> simp
  | array trees => simp [Tree.reading, Tree.itemReadings_eq]
  | _ => simp [Tree.reading]

/-- A value written as a whole number of 32 bits. -/
def Tree.IsUInt32 (tree : Tree) (n : UInt32) : Prop := tree.IsWhole n.toNat

/-- A value written as a signed whole number of 64 bits. -/
def Tree.IsInt64 (tree : Tree) (n : Int64) : Prop := tree.IsWhole n.toInt

theorem Tree.reading_eq_uint32_iff {tree : Tree} {n : UInt32} :
    tree.reading = .int n.toNat ↔ tree.IsUInt32 n := by
  have hlt := n.toNat_lt
  rw [reading_eq_int_iff, IsUInt32]
  exact and_iff_left ⟨by omega, by omega⟩

theorem Tree.reading_eq_int64_iff {tree : Tree} {n : Int64} :
    tree.reading = .int n.toInt ↔ tree.IsInt64 n := by
  have hlow := n.le_toInt
  have hhigh := n.toInt_lt
  rw [reading_eq_int_iff, IsInt64]
  exact and_iff_left ⟨hlow, by omega⟩

/-! ## Members and their names -/

/-- The members of an object with the strings that their keys denote. -/
def Keyed (members : List (List Piece × Tree)) (named : List (String × Tree)) : Prop :=
  List.Forall₂ (fun member entry => Denotes member.1 entry.1.toList ∧ member.2 = entry.2)
    members named

/-- The values under a name. -/
def under {α : Type} (named : List (String × α)) (name : String) : List α :=
  (named.filter (·.1 = name)).map Prod.snd

/-- What stands under the name of a field that may be absent or `null`. -/
inductive OptionalField {α : Type} (Is : Tree → α → Prop) : List Tree → Option α → Prop
  | absent : OptionalField Is [] none
  | null : OptionalField Is [.null] none
  | value {tree : Tree} {a : α} : Is tree a → OptionalField Is [tree] (some a)

/-- What stands under the name of a field that may be absent, and then has a value of its own. -/
inductive DefaultField {α : Type} (Is : Tree → α → Prop) (usual : α) : List Tree → α → Prop
  | absent : DefaultField Is usual [] usual
  | value {tree : Tree} {a : α} : Is tree a → DefaultField Is usual [tree] a

/-- Such a field has a value if nothing stands under its name, or one thing that is written as a value. -/
theorem exists_defaultField_iff {α : Type} {Is : Tree → α → Prop} {usual : α} {trees : List Tree} :
    (∃ a, DefaultField Is usual trees a) ↔ trees = [] ∨ ∃ tree a, trees = [tree] ∧ Is tree a := by
  constructor
  · rintro ⟨a, h⟩
    cases h with
    | absent => exact Or.inl rfl
    | value hvalue => exact Or.inr ⟨_, _, rfl, hvalue⟩
  · rintro (rfl | ⟨tree, a, rfl, hvalue⟩)
    · exact ⟨usual, .absent⟩
    · exact ⟨a, .value hvalue⟩

/-- The keys of an object that is written down are string literals. -/
theorem sound_of_elementText {members : List (List Piece × Tree)} {text : List Char}
    (h : ElementText (.object members) text) :
    ∀ member ∈ members, ∀ piece ∈ member.1, piece.Sound := by
  cases h with
  | mk _ hvalue _ =>
      cases hvalue with
      | emptyObject _ => simp
      | object hmembers =>
          -- the induction is on the row of members, so it may not be held fast by the object
          generalize hkeys : members = row at hmembers
          clear hkeys
          induction hmembers with
          | last hmember =>
              cases hmember with
              | mk _ hkey _ _ => exact List.forall_mem_singleton.mpr hkey
          | cons hmember _ ih =>
              cases hmember with
              | mk _ hkey _ _ => exact List.forall_mem_cons.mpr ⟨hkey, ih⟩

theorem denoted?_of_denotes {pieces : List Piece} {name : String}
    (hsound : ∀ piece ∈ pieces, piece.Sound) (h : Denotes pieces name.toList) :
    denoted? pieces = some name := by
  rw [denoted?, Quoted.unescape_of_denotes hsound h, String.ofList_toList]
  rfl

namespace Record

/-! ## Numbers -/

theorem uint32?_eq_some_iff {value : Reading} {n : UInt32} :
    uint32? value = some n ↔ value = .int n.toNat := by
  cases value with
  | int z =>
      have hlt := n.toNat_lt
      simp only [uint32?, Option.ite_none_right_eq_some, Option.some.injEq, Json.int.injEq]
      constructor
      · rintro ⟨⟨hlow, hhigh⟩, rfl⟩
        rw [UInt32.toNat_ofNat_of_lt' (by simp [UInt32.size]; omega)]
        omega
      · rintro rfl
        exact ⟨by omega, by simp⟩
  | _ => simp [uint32?]

theorem int64?_eq_some_iff {value : Reading} {n : Int64} :
    int64? value = some n ↔ value = .int n.toInt := by
  cases value with
  | int z =>
      have hlow := n.le_toInt
      have hhigh := n.toInt_lt
      simp only [int64?, Option.ite_none_right_eq_some, Option.some.injEq, Json.int.injEq]
      constructor
      · rintro ⟨⟨hz, hz'⟩, rfl⟩
        exact (Int64.toInt_ofInt_of_le hz hz').symm
      · rintro rfl
        exact ⟨⟨hlow, hhigh⟩, Int64.ofInt_toInt n⟩
  | _ => simp [int64?]

/-- A tree is read as a number of 32 bits exactly if it is written as one. -/
theorem uint32?_reading_iff {tree : Tree} {n : UInt32} :
    uint32? tree.reading = some n ↔ tree.IsUInt32 n := by
  rw [uint32?_eq_some_iff, Tree.reading_eq_uint32_iff]

theorem int64?_reading_iff {tree : Tree} {n : Int64} :
    int64? tree.reading = some n ↔ tree.IsInt64 n := by
  rw [int64?_eq_some_iff, Tree.reading_eq_int64_iff]

/-! ## Fields -/

theorem keyed?_eq_some_iff {members : List (Option String × Reading)}
    {entries : List (String × Reading)} :
    keyed? members = some entries ↔ members = entries.map (Prod.map some id) := by
  apply mapM_eq_some_iff
  rintro ⟨key, value⟩ ⟨name, entry⟩
  cases key <;> simp

/-- Where every key denotes a string, the members are read under these strings. -/
theorem keyed?_of_keyed {members : List (List Piece × Tree)} {named : List (String × Tree)}
    (hsound : ∀ member ∈ members, ∀ piece ∈ member.1, piece.Sound) (h : Keyed members named) :
    keyed? (members.map memberReading) = some (named.map (Prod.map id Tree.reading)) := by
  rw [keyed?_eq_some_iff]
  induction h with
  | nil => rfl
  | cons hentry _ ih =>
      obtain ⟨hmember, hrest⟩ := List.forall_mem_cons.mp hsound
      obtain ⟨hkey, hvalue⟩ := hentry
      rw [List.map_cons, List.map_cons, List.map_cons, ← ih hrest, memberReading,
        denoted?_of_denotes hmember hkey, hvalue]
      rfl

/-- What is read under a name is read of what stands under it. -/
theorem under_map {α β : Type} (f : α → β) (named : List (String × α)) (name : String) :
    under (named.map (Prod.map id f)) name = (under named name).map f := by
  simp [under, List.filter_map, Function.comp_def]

/-- A field has the value under its name, if there is any, and there may be no second one. -/
theorem field?_eq_some_iff {members : List (String × Reading)} {name : String}
    {field : Option Reading} :
    field? members name = some field ↔ under members name = field.toList := by
  rw [field?, under]
  generalize members.filter (·.1 = name) = row
  rcases row with _ | ⟨first, _ | ⟨second, rest⟩⟩ <;> cases field <;> simp

theorem optional?_some_eq_some_iff {α : Type} {read : Reading → Option α} {value : Reading}
    {a : Option α} (hnull : read .null = none) :
    optional? read (some value) = some a ↔
      value = .null ∧ a = none ∨ ∃ b, read value = some b ∧ a = some b := by
  cases value with
  -- the reader is not asked about `null`, and would have refused it
  | null => simp [optional?, hnull, @eq_comm _ a]
  | _ => simp [optional?, @eq_comm _ a]

/-- The fields of an object are looked up one by one. -/
theorem fields?_obj_eq_some_iff {members : List (Option String × Reading)}
    {entries : List (String × Reading)} (h : keyed? members = some entries) {names : List String}
    {fields : List (Option Reading)} :
    fields? names (.obj members) = some fields ↔
      List.Forall₂ (fun name field => field? entries name = some field) names fields := by
  rw [fields?, h, Option.bind_eq_bind, Option.bind_some]
  induction names generalizing fields with
  | nil => cases fields <;> simp
  | cons name names ih =>
      cases fields with
      | nil => simp [Option.bind_eq_some_iff]
      | cons field fields => simp [Option.bind_eq_some_iff, ih]

/-- A field is looked up by its name: there is no value under it, or one that is read. -/
theorem exists_field?_iff {named : List (String × Tree)} {name : String}
    {P : Option Reading → Prop} :
    (∃ field, field? (named.map (Prod.map id Tree.reading)) name = some field ∧ P field) ↔
      under named name = [] ∧ P none ∨ ∃ tree, under named name = [tree] ∧ P (some tree.reading) := by
  simp only [field?_eq_some_iff, under_map]
  constructor
  · rintro ⟨field, hunder, hfield⟩
    cases field with
    | none => exact Or.inl ⟨List.map_eq_nil_iff.mp hunder, hfield⟩
    | some value =>
        obtain ⟨tree, htree, rfl⟩ := List.map_eq_singleton_iff.mp hunder
        exact Or.inr ⟨tree, htree, hfield⟩
  · rintro (⟨hunder, hfield⟩ | ⟨tree, hunder, hfield⟩)
    · exact ⟨none, by rw [hunder]; rfl, hfield⟩
    · exact ⟨some tree.reading, by rw [hunder]; rfl, hfield⟩

/-- A field that may be absent or `null` is read exactly if one is written under its name, whatever
else the object holds. -/
theorem optional?_iff {α : Type} {read : Reading → Option α} {Is : Tree → α → Prop}
    (hnull : read .null = none) (hread : ∀ tree a, read tree.reading = some a ↔ Is tree a)
    {named : List (String × Tree)} {name : String} {a : Option α} :
    (∃ field, field? (named.map (Prod.map id Tree.reading)) name = some field ∧
        optional? read field = some a) ↔
      OptionalField Is (under named name) a := by
  rw [exists_field?_iff]
  generalize under named name = trees
  constructor
  · rintro (⟨rfl, hfield⟩ | ⟨tree, rfl, hfield⟩)
    · obtain rfl : none = a := Option.some.inj hfield
      exact .absent
    · rcases (optional?_some_eq_some_iff hnull).mp hfield with ⟨htree, rfl⟩ | ⟨b, hb, rfl⟩
      · rw [Tree.reading_eq_null_iff.mp htree]
        exact .null
      · exact .value ((hread _ _).mp hb)
  · intro h
    cases h with
    | absent => exact Or.inl ⟨rfl, rfl⟩
    | null => exact Or.inr ⟨.null, rfl, rfl⟩
    | @value tree b hvalue =>
        -- a value that is written as one is not `null`, so the reader is asked about it
        refine Or.inr ⟨tree, rfl, (optional?_some_eq_some_iff hnull).mpr ?_⟩
        exact Or.inr ⟨b, (hread tree b).mpr hvalue, rfl⟩

/-- A field that may be absent is read exactly if one is written under its name. Under the name of a
field that has a value of its own, `null` is none. -/
theorem default?_iff {α : Type} {read : Reading → Option α} {Is : Tree → α → Prop} {usual : α}
    (hread : ∀ tree a, read tree.reading = some a ↔ Is tree a) {named : List (String × Tree)}
    {name : String} {a : α} :
    (∃ field, field? (named.map (Prod.map id Tree.reading)) name = some field ∧
        default? read usual field = some a) ↔
      DefaultField Is usual (under named name) a := by
  rw [exists_field?_iff]
  generalize under named name = trees
  constructor
  · rintro (⟨rfl, hfield⟩ | ⟨tree, rfl, hfield⟩)
    · obtain rfl : usual = a := Option.some.inj hfield
      exact .absent
    · exact .value ((hread _ _).mp hfield)
  · intro h
    cases h with
    | absent => exact Or.inl ⟨rfl, rfl⟩
    | @value tree _ hvalue => exact Or.inr ⟨tree, rfl, (hread _ _).mpr hvalue⟩

end Record

end QCircuit.Json
