import QCircuit.Json.Printer
import QCircuit.Proofs.Json.Reader
import QCircuit.Proofs.Json.Real

/-!
# Reading what is written

What is written down for a value is a tree (`Json.tree`), and the printer writes texts of this tree,
whatever blanks its spacing has (`valueText_tree`). So both written forms of a value are read, and alike:
as the tree reads (`read?_compact`, `read?_indented`).

A value whose words are finite and whose whole numbers fit into 64 bits is read as it was
(`read?_written`): each string denotes itself and each number has its value.
-/

set_option autoImplicit false

namespace QCircuit.Json

/-- What holds of a value once it holds of its items and of the values of its members holds of every
value. -/
@[induction_eliminator]
theorem induction {τ : Type} {motive : Json τ → Prop} (null : motive .null)
    (bool : ∀ value, motive (.bool value)) (int : ∀ z, motive (.int z)) (real : ∀ x, motive (.real x))
    (str : ∀ text, motive (.str text))
    (arr : ∀ items, (∀ item ∈ items, motive item) → motive (.arr items))
    (obj : ∀ members, (∀ member ∈ members, motive member.2) → motive (.obj members)) :
    ∀ value, motive value
  | .null => null
  | .bool value => bool value
  | .int z => int z
  | .real x => real x
  | .str text => str text
  | .arr items => arr items fun item _ => induction null bool int real str arr obj item
  | .obj members => obj members fun member _ => induction null bool int real str arr obj member.2
termination_by value => sizeOf value
decreasing_by
  · decreasing_tactic
  · have hmember := List.sizeOf_lt_of_mem ‹member ∈ members›
    have hvalue : sizeOf member.2 < sizeOf member := by
      cases member
      simp only [Prod.mk.sizeOf_spec]
      omega
    simp only [Json.obj.sizeOf_spec]
    omega

mutual

/-- A value with all its strings in their place, as it is read. -/
def asReading : Json String → Reading
  | .null => .null
  | .bool value => .bool value
  | .int z => .int z
  | .real x => .real x
  | .str text => .str (some text)
  | .arr items => .arr (itemsAsReading items)
  | .obj members => .obj (membersAsReading members)

/-- `asReading` of every item. -/
def itemsAsReading : List (Json String) → List Reading
  | [] => []
  | item :: rest => item.asReading :: itemsAsReading rest

/-- `asReading` of every member. -/
def membersAsReading : List (String × Json String) → List (Option String × Reading)
  | [] => []
  | (key, value) :: rest => (some key, value.asReading) :: membersAsReading rest

end

/-- `asReading` of a member. -/
def memberAsReading (member : String × Json String) : Option String × Reading :=
  (some member.1, member.2.asReading)

theorem itemsAsReading_eq (items : List (Json String)) :
    itemsAsReading items = items.map asReading := by
  induction items with
  | nil => rfl
  | cons item rest ih => rw [itemsAsReading, ih, List.map_cons]

theorem membersAsReading_eq (members : List (String × Json String)) :
    membersAsReading members = members.map memberAsReading := by
  induction members with
  | nil => rfl
  | cons member rest ih =>
      rw [membersAsReading, ih, List.map_cons]
      rfl

/-- The words in the value are finite, and its whole numbers lie in a range. -/
inductive Within (range : Int → Prop) : Json String → Prop
  | null : Within range .null
  | bool (value : Bool) : Within range (.bool value)
  | int {z : Int} : range z → Within range (.int z)
  | real {x : Binary64} : x.isFinite → Within range (.real x)
  | str (text : String) : Within range (.str text)
  | arr {items : List (Json String)} : (∀ item ∈ items, Within range item) → Within range (.arr items)
  | obj {members : List (String × Json String)} : (∀ member ∈ members, Within range member.2) →
      Within range (.obj members)

/-- The words in the value are finite, and its whole numbers fit into 64 bits. -/
abbrev Plain : Json String → Prop := Within Fits

theorem plain_uint32 (n : UInt32) : Plain (.nat n.toNat) := by
  have hlt := n.toNat_lt
  exact .int ⟨by omega, by omega⟩

/-- The words in the value are finite. -/
abbrev FiniteReals : Json String → Prop := Within fun _ => True

/-! ## Trees of values -/

/-- The tree of a number as it is written; what is not finite is written as `null`. -/
def numberTree (text : List Char) : Tree :=
  match Literal.read? text with
  | some literal => .number literal
  | none => .null

mutual

/-- What is written down for a value. -/
def tree : Json String → Tree
  | .null => .null
  | .bool value => .bool value
  | .int z => numberTree (intText z)
  | .real x => numberTree (realText x)
  | .str text => .string (Quoted.pieces text.toList)
  | .arr items => .array (itemTrees items)
  | .obj members => .object (memberTrees members)

/-- What is written down for every item. -/
def itemTrees : List (Json String) → List Tree
  | [] => []
  | item :: rest => item.tree :: itemTrees rest

/-- What is written down for every member. -/
def memberTrees : List (String × Json String) → List (List Piece × Tree)
  | [] => []
  | (key, value) :: rest => (Quoted.pieces key.toList, value.tree) :: memberTrees rest

end

/-- What is written down for a member. -/
def memberTree (member : String × Json String) : List Piece × Tree :=
  (Quoted.pieces member.1.toList, member.2.tree)

theorem itemTrees_eq (items : List (Json String)) : itemTrees items = items.map tree := by
  induction items with
  | nil => rfl
  | cons item rest ih => rw [itemTrees, ih, List.map_cons]

theorem memberTrees_eq (members : List (String × Json String)) :
    memberTrees members = members.map memberTree := by
  induction members with
  | nil => rfl
  | cons member rest ih =>
      rw [memberTrees, ih, List.map_cons]
      rfl

theorem numberTree_of_numberText {literal : Literal} {text : List Char} (h : NumberText literal text) :
    numberTree text = .number literal := by
  rw [numberTree, Literal.read?_of_numberText h]

theorem valueText_int (z : Int) : ValueText (numberTree (intText z)) (intText z) := by
  obtain ⟨literal, htext, -⟩ := numberText_intText z
  rw [numberTree_of_numberText htext]
  exact .number htext

theorem valueText_real (x : Binary64) : ValueText (numberTree (realText x)) (realText x) := by
  cases hx : x.isFinite with
  | true =>
      obtain ⟨literal, htext, -⟩ := exists_literal_realText hx
      rw [numberTree_of_numberText htext]
      exact .number htext
  | false =>
      have htext : realText x = ['n', 'u', 'l', 'l'] := by simp [realText, hx]
      rw [htext]
      exact .null

theorem quoted_pieces (text : String) : quoted (Quoted.pieces text.toList) = quote text := by
  rw [quoted, (Quoted.pieces_written text.toList).2.1, quote]

/-! ## Written values -/

/-- The spacing has blanks only. -/
structure Spacing.Blank (spacing : Spacing) : Prop where
  lineBreak : ∀ depth, Blanks (spacing.lineBreak depth)
  afterColon : Blanks spacing.afterColon

theorem Spacing.blank_compact : Spacing.compact.Blank := ⟨fun _ => blanks_nil, blanks_nil⟩

theorem Spacing.blank_indented : Spacing.indented.Blank where
  lineBreak _ :=
    List.forall_mem_cons.mpr ⟨.inr (.inr (.inl rfl)), fun _ hc => .inl (List.eq_of_mem_replicate hc)⟩
  afterColon := List.forall_mem_singleton.mpr (.inl rfl)

theorem ElementText.append_blanks {tree : Tree} {text gap : List Char} (h : ElementText tree text)
    (hgap : Blanks gap) : ElementText tree (text ++ gap) := by
  cases h with
  | mk hbefore hvalue hafter =>
      rw [List.append_assoc]
      exact .mk hbefore hvalue (blanks_append hafter hgap)

theorem MemberText.append_blanks {member : List Piece × Tree} {text gap : List Char}
    (h : MemberText member text) (hgap : Blanks gap) : MemberText member (text ++ gap) := by
  cases h with
  | mk hbefore hkey hafter helement =>
      rw [List.append_assoc, List.cons_append]
      exact .mk hbefore hkey hafter (helement.append_blanks hgap)

/-- A first text, texts behind commas, and blanks at the end are a row of texts. -/
theorem separated_flatMap {α β : Type} {IsText : β → List Char → Prop}
    (hpad : ∀ {b : β} {text gap : List Char}, IsText b text → Blanks gap → IsText b (text ++ gap))
    {write : α → List Char} {treeOf : α → β} {rest : List α}
    (h : ∀ a ∈ rest, IsText (treeOf a) (write a)) {first : β} {text gap : List Char}
    (hfirst : IsText first text) (hgap : Blanks gap) :
    Separated IsText (first :: rest.map treeOf)
      (text ++ rest.flatMap (fun a => ',' :: write a) ++ gap) := by
  -- over the texts behind commas; the first text is whatever stands in front of the next comma
  induction rest generalizing first text with
  | nil => simpa using Separated.last (hpad hfirst hgap)
  | cons a rest ih =>
      obtain ⟨hnext, hmore⟩ := List.forall_mem_cons.mp h
      simpa using Separated.cons hfirst (ih hmore hnext)

variable {spacing : Spacing}

/-- A row of things and its closing bracket, which has a gap in front of it if there are any things. -/
def enclosed {α : Type} (write : α → List Char) (gap : List Char) (bracket : Char) :
    List α → List Char
  | [] => [bracket]
  | first :: rest => write first ++ rest.flatMap (fun a => ',' :: write a) ++ gap ++ [bracket]

/-- An item as it is written. -/
def writeItem (spacing : Spacing) (depth : Nat) (item : Json String) : List Char :=
  spacing.lineBreak depth ++ write spacing depth item

/-- A member as it is written. -/
def writeMember (spacing : Spacing) (depth : Nat) (member : String × Json String) : List Char :=
  spacing.lineBreak depth ++ (quote member.1 ++ ':' :: (spacing.afterColon ++
    write spacing depth member.2))

theorem writeItems_eq (depth : Nat) (items : List (Json String)) :
    writeItems spacing depth true items =
      items.flatMap (fun item => ',' :: writeItem spacing (depth + 1) item) ++
        spacing.lineBreak depth ++ [']'] := by
  induction items with
  | nil => simp [writeItems]
  | cons item rest ih => simp [writeItems, writeItem, ih]

theorem writeMembers_eq (depth : Nat) (members : List (String × Json String)) :
    writeMembers spacing depth true members =
      members.flatMap (fun member => ',' :: writeMember spacing (depth + 1) member) ++
        spacing.lineBreak depth ++ ['\x7d'] := by
  induction members with
  | nil => simp [writeMembers]
  | cons member rest ih => simp [writeMembers, writeMember, ih]

theorem write_arr (depth : Nat) (items : List (Json String)) :
    write spacing depth (.arr items) =
      '[' :: enclosed (writeItem spacing (depth + 1)) (spacing.lineBreak depth) ']' items := by
  cases items with
  | nil => rfl
  | cons first rest => simp [write, writeItems, writeItems_eq, enclosed, writeItem]

theorem write_obj (depth : Nat) (members : List (String × Json String)) :
    write spacing depth (.obj members) =
      '\x7b' :: enclosed (writeMember spacing (depth + 1)) (spacing.lineBreak depth) '\x7d' members := by
  cases members with
  | nil => rfl
  | cons first rest => simp [write, writeMembers, writeMembers_eq, enclosed, writeMember]

/-- A written item is a text of its tree, blanks in front included. -/
theorem elementText_writeItem (hblank : spacing.Blank) {depth : Nat} {item : Json String}
    (h : ValueText item.tree (write spacing depth item)) :
    ElementText item.tree (writeItem spacing depth item) := by
  simpa [writeItem] using ElementText.mk (hblank.lineBreak depth) h blanks_nil

/-- A written member is a text of a key with its tree, blanks in front included. -/
theorem memberText_writeMember (hblank : spacing.Blank) {depth : Nat} {member : String × Json String}
    (h : ValueText member.2.tree (write spacing depth member.2)) :
    MemberText (memberTree member) (writeMember spacing depth member) := by
  -- the blanks behind the colon belong to the value
  have hvalue := ElementText.mk hblank.afterColon h blanks_nil
  have hsound := (Quoted.pieces_written member.1.toList).1
  simpa [memberTree, writeMember, quoted_pieces] using
    MemberText.mk (hblank.lineBreak depth) hsound blanks_nil hvalue

theorem valueText_arr (hblank : spacing.Blank) (depth : Nat) {items : List (Json String)}
    (h : ∀ item ∈ items, ValueText item.tree (write spacing (depth + 1) item)) :
    ValueText (Json.arr items).tree (write spacing depth (.arr items)) := by
  rw [tree, itemTrees_eq, write_arr]
  cases items with
  | nil => exact .emptyArray blanks_nil
  | cons first rest =>
      obtain ⟨hfirst, hrest⟩ := List.forall_mem_cons.mp h
      -- no comma stands in front of the first item, and the closing bracket's blanks end the last one
      exact .array (separated_flatMap ElementText.append_blanks
        (fun item hitem => elementText_writeItem hblank (hrest item hitem))
        (elementText_writeItem hblank hfirst) (hblank.lineBreak depth))

theorem valueText_obj (hblank : spacing.Blank) (depth : Nat) {members : List (String × Json String)}
    (h : ∀ member ∈ members, ValueText member.2.tree (write spacing (depth + 1) member.2)) :
    ValueText (Json.obj members).tree (write spacing depth (.obj members)) := by
  rw [tree, memberTrees_eq, write_obj]
  cases members with
  | nil => exact .emptyObject blanks_nil
  | cons first rest =>
      obtain ⟨hfirst, hrest⟩ := List.forall_mem_cons.mp h
      exact .object (separated_flatMap MemberText.append_blanks
        (fun member hmember => memberText_writeMember hblank (hrest member hmember))
        (memberText_writeMember hblank hfirst) (hblank.lineBreak depth))

/-- Every value is written as a text of its tree. -/
theorem valueText_tree (hblank : spacing.Blank) (value : Json String) (depth : Nat) :
    ValueText value.tree (write spacing depth value) := by
  -- the items and members of a value are written one level deeper than the value
  induction value generalizing depth with
  | null => exact .null
  | bool value =>
      cases value with
      | true => exact .true
      | false => exact .false
  | int z => exact valueText_int z
  | real x => exact valueText_real x
  | str text =>
      have htext := ValueText.string (Quoted.pieces_written text.toList).1
      rwa [quoted_pieces] at htext
  | arr items ih => exact valueText_arr hblank depth fun item hitem => ih item hitem (depth + 1)
  | obj members ih =>
      exact valueText_obj hblank depth fun member hmember => ih member hmember (depth + 1)

/-! ## Readings -/

/-- Both written forms of a value are read as its tree reads. -/
theorem read?_compact (value : Json String) : read? (compact value) = some value.tree.reading := by
  rw [read?, compact, String.toList_ofList]
  exact readChars?_of_elementText (valueText_tree Spacing.blank_compact value 0).element

theorem read?_indented (value : Json String) : read? (indented value) = some value.tree.reading := by
  rw [read?, indented, String.toList_ofList]
  exact readChars?_of_elementText (valueText_tree Spacing.blank_indented value 0).element

/-- A natural number is written as its numeral. -/
theorem compact_nat (n : Nat) : compact (.nat n) = toString n := by
  have hnot : ¬ ((n : Int) < 0) := Int.not_lt.mpr (Int.natCast_nonneg n)
  rw [compact, nat, write, intText, if_neg hnot]
  rfl

theorem reading_str (text : String) : (Json.str text).tree.reading = .str (some text) := by
  obtain ⟨hsound, -, hdenotes⟩ := Quoted.pieces_written text.toList
  rw [tree, Tree.reading, denoted?, Quoted.unescape_of_denotes hsound hdenotes, String.ofList_toList]
  rfl

theorem reading_arr (items : List (Json String)) :
    (Json.arr items).tree.reading = .arr (items.map fun item => item.tree.reading) := by
  simp [tree, itemTrees_eq, Tree.reading, Tree.itemReadings_eq]

/-- A member as it is read. -/
theorem reading_memberTree (member : String × Json String) :
    memberReading (memberTree member) = (some member.1, member.2.tree.reading) := by
  have hkey := reading_str member.1
  rw [tree, Tree.reading] at hkey
  rw [memberReading, memberTree, Json.str.inj hkey]

theorem reading_obj (members : List (String × Json String)) :
    (Json.obj members).tree.reading =
      .obj (members.map fun member => (some member.1, member.2.tree.reading)) := by
  simp [tree, memberTrees_eq, Tree.reading, Tree.memberReadings_eq, reading_memberTree]

/-- A plain value is read as it is. -/
theorem reading_tree {value : Json String} (h : Plain value) :
    value.tree.reading = value.asReading := by
  induction h with
  | null => rfl
  | bool value => rfl
  | @int z hfits =>
      -- a whole number is read back as one only within the bounds of the two word sizes
      obtain ⟨literal, htext, hwhole⟩ := numberText_intText z
      rw [tree, numberTree_of_numberText htext]
      exact Literal.value_eq_int_iff.mpr ⟨hwhole, hfits⟩
  | @real x hx =>
      obtain ⟨literal, htext, -, hvalue⟩ := exists_literal_realText hx
      rw [tree, numberTree_of_numberText htext]
      exact hvalue
  | str text => exact reading_str text
  | arr _ ih =>
      rw [reading_arr, asReading, itemsAsReading_eq]
      exact congrArg Json.arr (List.map_congr_left ih)
  | obj _ ih =>
      rw [reading_obj, asReading, membersAsReading_eq]
      refine congrArg Json.obj (List.map_congr_left fun member hmember => ?_)
      rw [ih member hmember, memberAsReading]

theorem itemTexts?_asReading {items : List (Json String)}
    (h : ∀ item ∈ items, texts? item.asReading = some item) :
    itemTexts? (itemsAsReading items) = some items := by
  induction items with
  | nil => rfl
  | cons item rest ih =>
      obtain ⟨hitem, hrest⟩ := List.forall_mem_cons.mp h
      simp [itemsAsReading, itemTexts?, hitem, ih hrest]

theorem memberTexts?_asReading {members : List (String × Json String)}
    (h : ∀ member ∈ members, texts? member.2.asReading = some member.2) :
    memberTexts? (membersAsReading members) = some members := by
  induction members with
  | nil => rfl
  | cons member rest ih =>
      obtain ⟨hmember, hrest⟩ := List.forall_mem_cons.mp h
      simp [membersAsReading, memberTexts?, hmember, ih hrest]

/-- All strings of a reading of a value are there, and with them the value. -/
theorem texts?_asReading (value : Json String) : texts? value.asReading = some value := by
  induction value with
  | arr items ih => simp [asReading, texts?, itemTexts?_asReading ih]
  | obj members ih => simp [asReading, texts?, memberTexts?_asReading ih]
  | _ => rfl

/-- Either written form of a plain value is read as the value. -/
theorem read?_written {value : Json String} (h : Plain value) :
    read? (compact value) = some value.asReading ∧ read? (indented value) = some value.asReading := by
  rw [read?_compact, read?_indented, reading_tree h]
  exact ⟨rfl, rfl⟩

end QCircuit.Json
