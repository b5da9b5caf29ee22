import Mathlib.Tactic.MkIffOfInductiveProp
import QCircuit.Proofs.CommandLine.Stages
import QCircuit.Proofs.Json.Printer
import QCircuit.Proofs.Json.Record

/-!
# Generator settings as texts

A knob that is absent keeps its usual value, and one that is present has the whole number of 32 bits that
is written for it (`Settings.Describes`). A settings record is read from the text of an object exactly if
its members describe it, and from a file under a path exactly if its knobs are within their bounds as well
(`Settings.read?_object`).

Every settings record is read back from what is written of it, whether or not its knobs are within their
bounds (`Settings.read?_written`).
-/

set_option autoImplicit false

namespace QCircuit.Settings

open Json (Blanks DefaultField ElementText Keyed MemberText Piece Plain Reading Tree ValueText
  exists_defaultField_iff under)
open Json.Record

/-! ## Records -/

/-- A knob is read under its name, or keeps its usual value. -/
def Reads (entries : List (String × Reading)) (name : String) (usual knob : UInt32) : Prop :=
  ∃ field, field? entries name = some field ∧ default? uint32? usual field = some knob

/-- An object is read knob by knob. -/
theorem ofJson?_obj_iff {members : List (Option String × Reading)} {entries : List (String × Reading)}
    (h : keyed? members = some entries) {s : Settings} :
    ofJson? (.obj members) = some s ↔
      Reads entries "grover_max_iterations" usual.groverMaxIterations s.groverMaxIterations ∧
      Reads entries "shor_min_qubits" usual.shorMinQubits s.shorMinQubits ∧
      Reads entries "vqe_layers" usual.vqeLayers s.vqeLayers ∧
      Reads entries "qaoa_layers" usual.qaoaLayers s.qaoaLayers := by
  obtain ⟨grover, shor, vqe, qaoa⟩ := s
  rw [ofJson?, Option.bind_eq_bind, Option.bind_eq_some_iff]
  simp only [fields?_obj_eq_some_iff h, Option.bind_eq_bind]
  -- all knobs are looked up before the first is read, so one that stands twice outweighs the rest
  constructor
  · rintro ⟨fields, hfields, hread⟩
    obtain _ | ⟨hgrover, _ | ⟨hshor, _ | ⟨hvqe, _ | ⟨hqaoa, _ | _⟩⟩⟩⟩ := hfields
    simp only [Option.bind_eq_some_iff, Option.some.injEq, Settings.mk.injEq] at hread
    obtain ⟨_, hgrover', _, hshor', _, hvqe', _, hqaoa', rfl, rfl, rfl, rfl⟩ := hread
    exact ⟨⟨_, hgrover, hgrover'⟩, ⟨_, hshor, hshor'⟩, ⟨_, hvqe, hvqe'⟩, ⟨_, hqaoa, hqaoa'⟩⟩
  · rintro ⟨⟨_, hgrover, hgrover'⟩, ⟨_, hshor, hshor'⟩, ⟨_, hvqe, hvqe'⟩, ⟨_, hqaoa, hqaoa'⟩⟩
    refine ⟨_, .cons hgrover (.cons hshor (.cons hvqe (.cons hqaoa .nil))), ?_⟩
    simp [hgrover', hshor', hvqe', hqaoa']

/-! ## Written settings -/

theorem plain_toJson (s : Settings) : Plain s.toJson := .obj (by simp [knobs, Json.plain_uint32])

/-- The knobs that are written, as they are read. -/
def entries (s : Settings) : List (String × Reading) :=
  s.knobs.map fun knob => (knob.name, .int knob.value)

theorem asReading_toJson (s : Settings) :
    s.toJson.asReading = .obj (s.entries.map (Prod.map some id)) := by
  simp [toJson, entries, knobs, Json.nat, Json.asReading, Json.membersAsReading]

/-- Settings are read from their own JSON value. -/
theorem ofJson?_asReading (s : Settings) : ofJson? s.toJson.asReading = some s := by
  have hreads : ∀ (name : String) (usual knob : UInt32),
      field? s.entries name = some (some (.int knob.toNat)) → Reads s.entries name usual knob := by
    intro name usual knob hfield
    refine ⟨_, hfield, ?_⟩
    rw [default?, uint32?_eq_some_iff]
  rw [asReading_toJson, ofJson?_obj_iff (keyed?_eq_some_iff.mpr rfl)]
  refine ⟨hreads _ _ _ ?_, hreads _ _ _ ?_, hreads _ _ _ ?_, hreads _ _ _ ?_⟩ <;>
    simp [field?, entries, knobs]

/-- Settings are read back from what is written of them, on one line or on several. -/
theorem read?_written (s : Settings) :
    read? (Json.compact s.toJson) = some s ∧ read? (Json.indented s.toJson) = some s := by
  obtain ⟨hcompact, hindented⟩ := Json.read?_written s.plain_toJson
  rw [read?, read?, hcompact, hindented, Option.bind_some, ofJson?_asReading]
  exact ⟨rfl, rfl⟩

/-! ## Objects -/

/-- The members of an object, by their names, describe settings: each knob is absent and has its usual
value, or is written once with its own. -/
@[mk_iff]
structure Describes (named : List (String × Tree)) (s : Settings) : Prop where
  grover : DefaultField Tree.IsUInt32 usual.groverMaxIterations
    (under named "grover_max_iterations") s.groverMaxIterations
  shor : DefaultField Tree.IsUInt32 usual.shorMinQubits (under named "shor_min_qubits") s.shorMinQubits
  vqe : DefaultField Tree.IsUInt32 usual.vqeLayers (under named "vqe_layers") s.vqeLayers
  qaoa : DefaultField Tree.IsUInt32 usual.qaoaLayers (under named "qaoa_layers") s.qaoaLayers

/-- What stands under the names of the knobs is all that matters. -/
theorem describes_congr {named named' : List (String × Tree)}
    (h : ∀ key ∈ keys, under named' key = under named key) (s : Settings) :
    Describes named' s ↔ Describes named s := by
  simp only [keys, List.forall_mem_cons] at h
  obtain ⟨hgrover, hshor, hvqe, hqaoa, -⟩ := h
  rw [describes_iff, describes_iff, hgrover, hshor, hvqe, hqaoa]

/-- A knob stands under its name at most once, as a whole number of 32 bits. -/
def Sound (named : List (String × Tree)) (key : String) : Prop :=
  under named key = [] ∨ ∃ (tree : Tree) (n : UInt32), under named key = [tree] ∧ tree.IsUInt32 n

/-- Each knob is sound by itself. -/
theorem exists_describes_iff {named : List (String × Tree)} :
    (∃ s, Describes named s) ↔ ∀ key ∈ keys, Sound named key := by
  simp only [keys, List.forall_mem_cons, List.not_mem_nil, false_implies, implies_true, and_true]
  constructor
  · rintro ⟨s, hgrover, hshor, hvqe, hqaoa⟩
    exact ⟨exists_defaultField_iff.mp ⟨_, hgrover⟩, exists_defaultField_iff.mp ⟨_, hshor⟩,
      exists_defaultField_iff.mp ⟨_, hvqe⟩, exists_defaultField_iff.mp ⟨_, hqaoa⟩⟩
  · rintro ⟨hgrover, hshor, hvqe, hqaoa⟩
    obtain ⟨grover, hgrover⟩ := exists_defaultField_iff.mpr hgrover
    obtain ⟨shor, hshor⟩ := exists_defaultField_iff.mpr hshor
    obtain ⟨vqe, hvqe⟩ := exists_defaultField_iff.mpr hvqe
    obtain ⟨qaoa, hqaoa⟩ := exists_defaultField_iff.mpr hqaoa
    exact ⟨⟨grover, shor, vqe, qaoa⟩, hgrover, hshor, hvqe, hqaoa⟩

theorem ofJson?_reading_iff {members : List (List Piece × Tree)} {named : List (String × Tree)}
    (hsound : ∀ member ∈ members, ∀ piece ∈ member.1, piece.Sound) (h : Keyed members named)
    {s : Settings} : ofJson? (Tree.object members).reading = some s ↔ Describes named s := by
  rw [Tree.reading, Tree.memberReadings_eq, ofJson?_obj_iff (keyed?_of_keyed hsound h), describes_iff]
  simp only [Reads, default?_iff fun _ _ => uint32?_reading_iff]

theorem read?_eq_some_iff_describes {members : List (List Piece × Tree)}
    {named : List (String × Tree)} {text : String}
    (htext : ElementText (.object members) text.toList) (hnamed : Keyed members named)
    (s : Settings) : read? text = some s ↔ Describes named s := by
  rw [read?, Json.read?_of_elementText htext, Option.bind_some,
    ofJson?_reading_iff (Json.sound_of_elementText htext) hnamed]

/-- A command is given the settings in a file if they are read and within their bounds. -/
theorem settingsOf_file_iff {files : CommandLine.Files} {path text : String}
    (h : files.find path = .holds text) {s : Settings} :
    CommandLine.settingsOf files (some path) = .ok s ↔ read? text = some s ∧ s.Bounded := by
  rw [CommandLine.settingsOf_eq_ok_iff]
  constructor
  · intro hgives
    cases hgives with
    | file hfile hread hbounded =>
        rw [h] at hfile
        cases hfile
        exact ⟨hread, hbounded⟩
  · rintro ⟨hread, hbounded⟩
    exact .file h hread hbounded

/-- **The text of an object is read as the settings that its members describe**, and there are some
exactly if every knob stands at most once, as a whole number of 32 bits. Another object with the same
values under the names of the knobs is read alike. A file with such a text gives a command these settings,
if they are within their bounds, and no other ones. Whatever settings are written are read back. -/
theorem read?_object {members : List (List Piece × Tree)} {named : List (String × Tree)}
    {text : String} (htext : ElementText (.object members) text.toList)
    (hnamed : Keyed members named) :
    (∀ s, read? text = some s ↔ Describes named s) ∧
    ((∃ s, read? text = some s) ↔ ∀ key ∈ keys, Sound named key) ∧
    (∀ (members' : List (List Piece × Tree)) (named' : List (String × Tree)) (text' : String),
      ElementText (.object members') text'.toList → Keyed members' named' →
      (∀ key ∈ keys, under named' key = under named key) → read? text' = read? text) ∧
    (∀ (files : CommandLine.Files) (path : String), files.find path = .holds text →
      ∀ s, CommandLine.settingsOf files (some path) = .ok s ↔ Describes named s ∧ s.Bounded) ∧
    ∀ s : Settings, read? (Json.compact s.toJson) = some s ∧
      read? (Json.indented s.toJson) = some s := by
  have hread := read?_eq_some_iff_describes htext hnamed
  refine ⟨hread, ?_, ?_, ?_, read?_written⟩
  · rw [← exists_describes_iff]
    exact exists_congr hread
  · intro members' named' text' htext' hnamed' hunder
    apply Option.ext
    intro s
    rw [hread, read?_eq_some_iff_describes htext' hnamed', describes_congr hunder]
  · intro files path hfile s
    rw [settingsOf_file_iff hfile, hread]

/-! ## Control: two knobs, one with an escape in its key, and a nested member to pass over -/

/-- The text. -/
def mixedText : String :=
  "\x7b\"vqe\\u005flayers\" : 64,\n\"note\":\x7b\"qaoa_layers\":[null]\x7d,\"shor_min_qubits\":20\x7d"

/-- The values of the three members. -/
def mixedValues : List Tree :=
  [.number ⟨false, ['6', '4'], [], none⟩,
    .object [("qaoa_layers".toList.map .plain, .array [.null])],
    .number ⟨false, ['2', '0'], [], none⟩]

/-- The members. The first key is `vqe_layers`, with the number of the underscore in its place. -/
def mixedMembers : List (List Piece × Tree) :=
  ["vqe".toList.map .plain ++ .hex '0' '0' '5' 'f' :: "layers".toList.map .plain,
    "note".toList.map .plain, "shor_min_qubits".toList.map .plain].zip mixedValues

theorem elementText_mixed : ElementText (.object mixedMembers) mixedText.toList := by
  have hname : ∀ name : String, name.toList.all Piece.isPlain →
      ∀ piece ∈ name.toList.map Piece.plain, piece.Sound := fun _ => Piece.sound_plain
  have hkey := List.forall_mem_append.mpr ⟨hname "vqe" rfl,
    List.forall_mem_cons.mpr ⟨.hex Json.hexCode_underscore, hname "layers" rfl⟩⟩
  have hgap : Blanks [' '] := List.forall_mem_singleton.mpr (.inl rfl)
  have hline : Blanks ['\n'] := List.forall_mem_singleton.mpr (.inr (.inr (.inl rfl)))
  have hsixtyFour : Decimal.Digits ['6', '4'] := by decide
  have htwenty : Decimal.Digits ['2', '0'] := by decide
  have hvqe := MemberText.mk Json.blanks_nil hkey hgap
    (.mk hgap (.number (.mk false hsixtyFour (by decide) .none .none)) Json.blanks_nil)
  have hnote := MemberText.mk hline (hname "note" rfl) Json.blanks_nil
    (ValueText.object (.last (.mk Json.blanks_nil (hname "qaoa_layers" rfl) Json.blanks_nil
      (ValueText.array (.last ValueText.null.element)).element))).element
  have hshor := MemberText.mk Json.blanks_nil (hname "shor_min_qubits" rfl) Json.blanks_nil
    (Json.elementText_unsigned htwenty (by decide))
  exact (ValueText.object (.cons hvqe (.cons hnote (.last hshor)))).element

theorem keyed_mixed :
    Keyed mixedMembers (["vqe_layers", "note", "shor_min_qubits"].zip mixedValues) := by
  refine .cons ⟨?_, rfl⟩ (.cons ⟨Json.denotes_plain _, rfl⟩ (.cons ⟨Json.denotes_plain _, rfl⟩ .nil))
  exact .plain (.plain (.plain (.hex Json.hexCode_underscore (Json.denotes_plain _))))

theorem describes_mixed :
    Describes (["vqe_layers", "note", "shor_min_qubits"].zip mixedValues) ⟨3, 20, 64, 2⟩ where
  grover := .absent
  shor := .value .unsigned
  vqe := .value .unsigned
  qaoa := .absent

theorem read?_object_mixed :
    read? mixedText = some ⟨3, 20, 64, 2⟩ ∧
      CommandLine.settingsOf ⟨fun _ => .holds mixedText, fun _ => true, true⟩ (some "knobs.json") =
        .ok ⟨3, 20, 64, 2⟩ := by
  obtain ⟨hread, -, -, hfile, -⟩ := read?_object elementText_mixed keyed_mixed
  have hbounded : Bounded ⟨3, 20, 64, 2⟩ := ⟨by decide, by decide, by decide, by decide⟩
  exact ⟨(hread _).mpr describes_mixed, (hfile _ _ rfl _).mpr ⟨describes_mixed, hbounded⟩⟩

end QCircuit.Settings
