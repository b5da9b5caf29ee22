import Mathlib.Tactic.MkIffOfInductiveProp
import QCircuit.Problem.Fault
import QCircuit.Proofs.Json.Printer
import QCircuit.Proofs.Json.Record

/-!
# Problem data as texts

The readers of edges and of lists of edges are exact (`Edge.ofJson?_eq_some_iff`,
`Problem.edges?_eq_some_iff`), so problem data are read back from what is written of them
(`Problem.parse_written`).

Which objects are problem data, and which data they are, is said on what stands under the two field names
(`Problem.Describes`). The text of an object is read as the data that its members describe, and is
malformed if they describe none (`Problem.parse_object`).
-/

set_option autoImplicit false

namespace QCircuit

open Json (Blanks ElementText Keyed MemberText OptionalField Piece Plain Reading Tree ValueText under)
open Json.Record

/-! ## Edges -/

namespace Edge

theorem plain_toJson (e : Edge) : Plain e.toJson := by
  cases e with
  | pair i j => exact .arr (by simp [Json.plain_uint32])
  | vertex v => exact Json.plain_uint32 v

theorem asReading_pair (i j : UInt32) :
    (pair i j).toJson.asReading = .arr [.int i.toNat, .int j.toNat] := rfl

theorem asReading_vertex (v : UInt32) : (vertex v).toJson.asReading = .int v.toNat := rfl

/-- An edge is read from its own JSON value and from no other one. -/
theorem ofJson?_eq_some_iff {value : Reading} {e : Edge} :
    ofJson? value = some e ↔ value = e.toJson.asReading := by
  unfold ofJson?
  split
  · next i j =>
      cases e with
      | pair i' j' => simp [Option.bind_eq_some_iff, uint32?_eq_some_iff, asReading_pair]
      | vertex v => simp [Option.bind_eq_some_iff, asReading_vertex]
  · next hpair =>
      -- whatever is no array of two is a vertex or nothing
      rw [Option.map_eq_some_iff]
      cases e with
      | pair i j =>
          refine iff_of_false (by simp) ?_
          rintro rfl
          exact hpair _ _ rfl
      | vertex v => simp [uint32?_eq_some_iff, asReading_vertex]

/-- An edge as it may be written: a whole number of 32 bits for a vertex, an array of two for a pair. -/
inductive IsWritten : Tree → Edge → Prop
  | vertex {tree : Tree} {v : UInt32} : tree.IsUInt32 v → IsWritten tree (.vertex v)
  | pair {first second : Tree} {i j : UInt32} : first.IsUInt32 i → second.IsUInt32 j →
      IsWritten (.array [first, second]) (.pair i j)

/-- A tree is read as an edge exactly if it is written as one. -/
theorem reading_eq_iff {tree : Tree} {e : Edge} :
    tree.reading = e.toJson.asReading ↔ IsWritten tree e := by
  cases e with
  | vertex v =>
      rw [asReading_vertex, Tree.reading_eq_uint32_iff]
      constructor
      · exact .vertex
      · rintro ⟨hv⟩
        exact hv
  | pair i j =>
      rw [asReading_pair, Tree.reading_eq_arr_iff]
      constructor
      · rintro ⟨trees, rfl, hmap⟩
        obtain ⟨first, rest, rfl, hi, hrest⟩ := List.map_eq_cons_iff.mp hmap
        obtain ⟨second, rfl, hj⟩ := List.map_eq_singleton_iff.mp hrest
        exact .pair (Tree.reading_eq_uint32_iff.mp hi) (Tree.reading_eq_uint32_iff.mp hj)
      · intro h
        cases h with
        | @pair first second _ _ hi hj =>
            refine ⟨[first, second], rfl, ?_⟩
            rw [List.map_cons, List.map_singleton, Tree.reading_eq_uint32_iff.mpr hi,
              Tree.reading_eq_uint32_iff.mpr hj]

end Edge

namespace Problem

/-- A list of edges as it is read. -/
def edgesReading (edges : List Edge) : Reading := .arr (edges.map fun e => e.toJson.asReading)

theorem edges?_eq_some_iff {value : Reading} {edges : List Edge} :
    edges? value = some edges ↔ value = edgesReading edges := by
  cases value with
  | arr items =>
      rw [edges?, Json.mapM_eq_some_iff fun _ _ => Edge.ofJson?_eq_some_iff, edgesReading]
      simp
  | _ => simp [edges?, edgesReading]

/-- A list of edges as it may be written: an array of edges in their order. -/
inductive AreWritten : Tree → List Edge → Prop
  | array {items : List Tree} {edges : List Edge} : List.Forall₂ Edge.IsWritten items edges →
      AreWritten (.array items) edges

theorem edges?_reading_iff {tree : Tree} {edges : List Edge} :
    edges? tree.reading = some edges ↔ AreWritten tree edges := by
  rw [edges?_eq_some_iff, edgesReading, Tree.reading_eq_arr_iff]
  have hrow : ∀ items : List Tree,
      items.map Tree.reading = edges.map (fun e => e.toJson.asReading) ↔
        List.Forall₂ Edge.IsWritten items edges := by
    intro items
    rw [← List.forall₂_eq_eq_eq, List.forall₂_map_left_iff, List.forall₂_map_right_iff]
    simp only [Edge.reading_eq_iff]
  constructor
  · rintro ⟨items, rfl, hitems⟩
    exact .array ((hrow items).mp hitems)
  · rintro ⟨hitems⟩
    exact ⟨_, rfl, (hrow _).mpr hitems⟩

/-! ## Records -/

/-- An object is read field by field. -/
theorem ofJson?_obj_iff {members : List (Option String × Reading)} {entries : List (String × Reading)}
    (h : keyed? members = some entries) {p : Problem} :
    ofJson? (.obj members) = some p ↔
      (∃ field, field? entries "num_items" = some field ∧
        optional? int64? field = some p.numItems) ∧
      ∃ field, field? entries "edges" = some field ∧ optional? edges? field = some p.edges := by
  obtain ⟨numItems, edges⟩ := p
  rw [ofJson?, Option.bind_eq_bind, Option.bind_eq_some_iff]
  simp only [fields?_obj_eq_some_iff h, Option.bind_eq_bind]
  -- both fields are looked up before either is read, so a field that stands twice outweighs the rest
  constructor
  · rintro ⟨fields, hfields, hread⟩
    obtain _ | ⟨hitems, _ | ⟨hedges, _ | _⟩⟩ := hfields
    simp only [Option.bind_eq_some_iff, Option.some.injEq, Problem.mk.injEq] at hread
    obtain ⟨_, hitems', _, hedges', rfl, rfl⟩ := hread
    exact ⟨⟨_, hitems, hitems'⟩, ⟨_, hedges, hedges'⟩⟩
  · rintro ⟨⟨_, hitems, hitems'⟩, ⟨_, hedges, hedges'⟩⟩
    refine ⟨_, .cons hitems (.cons hedges .nil), ?_⟩
    simp [hitems', hedges']

theorem parse_eq_ok_iff {text : String} {p : Problem} :
    parse text = .ok p ↔ read? text = some p := by
  rw [parse]
  cases read? text <;> simp

/-! ## Written problem data -/

theorem plain_toJson (p : Problem) : Plain p.toJson := by
  obtain ⟨numItems, edges⟩ := p
  refine .obj (List.forall_mem_append.mpr ⟨?_, ?_⟩)
  · cases numItems with
    | none => simp
    | some n =>
        have hlow := n.le_toInt
        have hhigh := n.toInt_lt
        exact List.forall_mem_singleton.mpr (.int ⟨hlow, by omega⟩)
  · cases edges with
    | none => simp
    | some edges =>
        have hedges : ∀ item ∈ edges.map Edge.toJson, Plain item :=
          List.forall_mem_map.mpr fun e _ => e.plain_toJson
        exact List.forall_mem_singleton.mpr (.arr hedges)

/-- The fields that are written, as they are read. -/
def entries (p : Problem) : List (String × Reading) :=
  (p.numItems.map fun n => ("num_items", .int n.toInt)).toList ++
    (p.edges.map fun edges => ("edges", edgesReading edges)).toList

theorem asReading_toJson (p : Problem) :
    p.toJson.asReading = .obj (p.entries.map (Prod.map some id)) := by
  obtain ⟨numItems, edges⟩ := p
  cases numItems <;> cases edges <;>
    simp [toJson, entries, Json.asReading, Json.membersAsReading, Json.itemsAsReading_eq,
      edgesReading]

/-- Problem data are read from their own JSON value: what is missing is not written, and what is not
written is missing. -/
theorem ofJson?_asReading (p : Problem) : ofJson? p.toJson.asReading = some p := by
  rw [asReading_toJson, ofJson?_obj_iff (keyed?_eq_some_iff.mpr rfl)]
  simp only [field?_eq_some_iff]
  obtain ⟨numItems, edges⟩ := p
  -- neither field is in the way of the other one: their names differ
  refine ⟨⟨numItems.map fun n => .int n.toInt, ?_, ?_⟩, ⟨edges.map edgesReading, ?_, ?_⟩⟩
  · cases numItems <;> cases edges <;> rfl
  · cases numItems with
    | none => rfl
    | some n => exact congrArg (Option.map some) (int64?_eq_some_iff.mpr rfl)
  · cases numItems <;> cases edges <;> rfl
  · cases edges with
    | none => rfl
    | some edges => exact congrArg (Option.map some) (edges?_eq_some_iff.mpr rfl)

theorem parse_of_read? {text : String} {p : Problem}
    (h : Json.read? text = some p.toJson.asReading) : parse text = .ok p := by
  rw [parse_eq_ok_iff, read?, h, Option.bind_some, ofJson?_asReading]

/-- **Problem data are read back from what is written of them**, on one line or on several. So all texts
that are read as the same data have one written form in common, which is read like each of them and is the
written form of no other data. -/
theorem parse_written (p : Problem) :
    parse (Json.compact p.toJson) = .ok p ∧ parse (Json.indented p.toJson) = .ok p ∧
    ∀ text, parse text = .ok p → parse (Json.compact p.toJson) = parse text ∧
      ∀ q : Problem, Json.compact q.toJson = Json.compact p.toJson ↔ q = p := by
  obtain ⟨hcompact, hindented⟩ := Json.read?_written p.plain_toJson
  have hparse := parse_of_read? hcompact
  refine ⟨hparse, parse_of_read? hindented, ?_⟩
  intro text htext
  refine ⟨by rw [hparse, htext], ?_⟩
  intro q
  constructor
  · intro heq
    -- one text is read as one value
    have hq := parse_of_read? (Json.read?_written q.plain_toJson).1
    rw [heq, hparse] at hq
    exact (Except.ok.inj hq).symm
  · rintro rfl
    rfl

/-- Control: an absent number and an empty list of edges, from a text that has the number as `null`. -/
theorem parse_written_null :
    parse "\x7b\"num_items\": null, \"edges\": []\x7d" = .ok ⟨none, some []⟩ ∧
      parse (Json.compact (toJson ⟨none, some []⟩)) = .ok ⟨none, some []⟩ := by
  have htext : parse "\x7b\"num_items\": null, \"edges\": []\x7d" = .ok ⟨none, some []⟩ := rfl
  exact ⟨htext, ((parse_written ⟨none, some []⟩).2.2 _ htext).1.trans htext⟩

/-! ## Objects -/

/-- The members of an object, by their names, describe problem data: each field is absent, `null` or
written with its value, and no field stands twice. -/
@[mk_iff]
structure Describes (named : List (String × Tree)) (p : Problem) : Prop where
  numItems : OptionalField Tree.IsInt64 (under named "num_items") p.numItems
  edges : OptionalField AreWritten (under named "edges") p.edges

/-- What stands under the names of the fields is all that matters. -/
theorem describes_congr {named named' : List (String × Tree)}
    (h : ∀ key ∈ keys, under named' key = under named key) (p : Problem) :
    Describes named' p ↔ Describes named p := by
  rw [describes_iff, describes_iff, h "num_items" (by simp [keys]), h "edges" (by simp [keys])]

theorem ofJson?_reading_iff {members : List (List Piece × Tree)} {named : List (String × Tree)}
    (hsound : ∀ member ∈ members, ∀ piece ∈ member.1, piece.Sound) (h : Keyed members named)
    {p : Problem} : ofJson? (Tree.object members).reading = some p ↔ Describes named p := by
  rw [Tree.reading, Tree.memberReadings_eq, ofJson?_obj_iff (keyed?_of_keyed hsound h),
    optional?_iff rfl fun _ _ => int64?_reading_iff, optional?_iff rfl fun _ _ => edges?_reading_iff,
    describes_iff]

theorem parse_eq_ok_iff_describes {members : List (List Piece × Tree)}
    {named : List (String × Tree)} {text : String}
    (htext : ElementText (.object members) text.toList) (hnamed : Keyed members named)
    (p : Problem) : parse text = .ok p ↔ Describes named p := by
  rw [parse_eq_ok_iff, read?, Json.read?_of_elementText htext, Option.bind_some,
    ofJson?_reading_iff (Json.sound_of_elementText htext) hnamed]

/-- A text that is no problem data is malformed, whatever is wrong with it. -/
theorem parse_eq_malformed {text : String} (h : ∀ p, parse text ≠ .ok p) :
    parse text = .error .malformed := by
  rw [parse] at h ⊢
  cases hread : read? text with
  | none => rfl
  | some p =>
      rw [hread] at h
      exact absurd rfl (h p)

theorem parse_congr {text text' : String} (h : ∀ p, parse text' = .ok p ↔ parse text = .ok p) :
    parse text' = parse text := by
  by_cases hok : ∃ p, parse text = .ok p
  · obtain ⟨p, hp⟩ := hok
    rw [hp, (h p).mpr hp]
  · have hnone : ∀ p, parse text ≠ .ok p := fun p hp => hok ⟨p, hp⟩
    rw [parse_eq_malformed hnone, parse_eq_malformed fun p hp => hnone p ((h p).mp hp)]

/-- **The text of an object is read as the problem data that its members describe**, and is malformed if
they describe none. Members under other names may stand anywhere: another object with the same values under
the names of the fields is read alike. -/
theorem parse_object {members : List (List Piece × Tree)} {named : List (String × Tree)}
    {text : String} (htext : ElementText (.object members) text.toList)
    (hnamed : Keyed members named) :
    (∀ p, parse text = .ok p ↔ Describes named p) ∧
    ((¬ ∃ p, Describes named p) → parse text = .error .malformed) ∧
    ∀ (members' : List (List Piece × Tree)) (named' : List (String × Tree)) (text' : String),
      ElementText (.object members') text'.toList → Keyed members' named' →
      (∀ key ∈ keys, under named' key = under named key) → parse text' = parse text := by
  have hparse := parse_eq_ok_iff_describes htext hnamed
  refine ⟨hparse, ?_, ?_⟩
  · intro hnone
    apply parse_eq_malformed
    intro p hp
    exact hnone ⟨p, (hparse p).mp hp⟩
  · intro members' named' text' htext' hnamed' hunder
    apply parse_congr
    intro p
    rw [hparse, parse_eq_ok_iff_describes htext' hnamed', describes_congr hunder]

/-! ## Control: an object with an escape in a key, blanks, and a nested member to pass over -/

/-- A number of one digit. -/
def digit (c : Char) : Tree := .number ⟨false, [c], [], none⟩

/-- The values of the three members. -/
def mixedValues : List Tree :=
  [.object [("edges".toList.map .plain, .array [])], .number ⟨true, ['3'], [], none⟩,
    .array [.array [digit '0', digit '2'], digit '7']]

/-- The members. The second key is `num_items`, with the number of the underscore in its place. -/
def mixedMembers : List (List Piece × Tree) :=
  ["label".toList.map .plain,
    "num".toList.map .plain ++ .hex '0' '0' '5' 'f' :: "items".toList.map .plain,
    "edges".toList.map .plain].zip mixedValues

theorem elementText_digit (c : Char) (hc : Decimal.isDigit c) : ElementText (digit c) [c] := by
  have hdigits : Decimal.Digits [c] := ⟨by simp, by simpa using hc⟩
  exact Json.elementText_unsigned hdigits (by simp)

theorem elementText_mixed :
    ElementText (.object mixedMembers)
      "\x7b \"label\":\x7b\"edges\":[]\x7d,\"num\\u005fitems\" : -3,\"edges\":[[0,2],7]\x7d".toList := by
  have hname : ∀ name : String, name.toList.all Piece.isPlain →
      ∀ piece ∈ name.toList.map Piece.plain, piece.Sound := fun _ => Piece.sound_plain
  have hkey := List.forall_mem_append.mpr ⟨hname "num" rfl,
    List.forall_mem_cons.mpr ⟨.hex Json.hexCode_underscore, hname "items" rfl⟩⟩
  have hgap : Blanks [' '] := List.forall_mem_singleton.mpr (.inl rfl)
  have hthree : Decimal.Digits ['3'] := by decide
  have hlabel := MemberText.mk hgap (hname "label" rfl) Json.blanks_nil
    (ValueText.object (.last (.mk Json.blanks_nil (hname "edges" rfl) Json.blanks_nil
      (ValueText.emptyArray Json.blanks_nil).element))).element
  have hitems := MemberText.mk Json.blanks_nil hkey hgap
    (.mk hgap (.number (.mk true hthree (by decide) .none .none)) Json.blanks_nil)
  have hpair := ValueText.array (.cons (elementText_digit '0' rfl) (.last (elementText_digit '2' rfl)))
  have hedges := MemberText.mk Json.blanks_nil (hname "edges" rfl) Json.blanks_nil
    (ValueText.array (.cons hpair.element (.last (elementText_digit '7' rfl)))).element
  exact (ValueText.object (.cons hlabel (.cons hitems (.last hedges)))).element

theorem keyed_mixed : Keyed mixedMembers (["label", "num_items", "edges"].zip mixedValues) := by
  refine .cons ⟨Json.denotes_plain _, rfl⟩ (.cons ⟨?_, rfl⟩ (.cons ⟨Json.denotes_plain _, rfl⟩ .nil))
  exact .plain (.plain (.plain (.hex Json.hexCode_underscore (Json.denotes_plain _))))

theorem describes_mixed :
    Describes (["label", "num_items", "edges"].zip mixedValues)
      ⟨some (-3), some [.pair 0 2, .vertex 7]⟩ where
  numItems := .value (.negative (by decide))
  edges := .value (.array (.cons (.pair .unsigned .unsigned) (.cons (.vertex .unsigned) .nil)))

theorem parse_object_mixed :
    parse "\x7b \"label\":\x7b\"edges\":[]\x7d,\"num\\u005fitems\" : -3,\"edges\":[[0,2],7]\x7d" =
      .ok ⟨some (-3), some [.pair 0 2, .vertex 7]⟩ :=
  ((parse_object elementText_mixed keyed_mixed).1 _).mpr describes_mixed

end Problem

end QCircuit
