import QCircuit.Proofs.Qasm.Text

/-!
# Reading programs

A reader (`Qasm.read?`) takes the width of the register from the head of a document and one entry from
every line of its body. From the program of a finished circuit it recovers the width and the entries
(`Qasm.read?_document`), so two finished circuits have one program exactly where their widths and entries
agree. Nothing else of a circuit shows in its program: neither its name nor its metadata nor the names
of its angles (`Qasm.program_congr`).
-/

set_option autoImplicit false

namespace QCircuit

/-- The gate with its angle under another name. -/
def Gate.renamed (name : AngleName) : Gate → Gate
  | .rotation axis angle targets => .rotation axis ⟨name, angle.value⟩ targets
  | g => g

namespace Qasm

open Decimal

/-! ## The reader -/

/-- Reads a line of a body. -/
def readLine? (line : List Char) : Option Entry :=
  match words line with
  | [name, ['q'], a] => some ⟨String.ofList name, none, [ofNumeral a]⟩
  | [name, angle, ['q'], a] =>
      (readLiteral? angle).map fun x => ⟨String.ofList name, some x, [ofNumeral a]⟩
  | [name, ['q'], a, ['q'], b] => some ⟨String.ofList name, none, [ofNumeral a, ofNumeral b]⟩
  | [name, angle, ['q'], a, ['q'], b] =>
      (readLiteral? angle).map fun x => ⟨String.ofList name, some x, [ofNumeral a, ofNumeral b]⟩
  | [name, ['q'], a, ['-', '>'], ['c'], b] =>
      if a = b then some ⟨String.ofList name, none, [ofNumeral a]⟩ else none
  | _ => none

/-- Reads the width off the line that declares the register. -/
def readWidth? (line : List Char) : Option Nat :=
  match words line with
  | [_, _, width] => some (ofNumeral width)
  | _ => none

/-- Reads a program: the head for the width that it declares, then the lines of the body. -/
def read? (text : String) : Option (Nat × List Entry) := do
  let declaration ← (rows text)[3]?
  let width ← readWidth? declaration
  if (rows text).take 6 = (header width).map String.toList then
    let entries ← ((rows text).drop 6).mapM readLine?
    return (width, entries)
  else none

/-! ## What it recovers -/

theorem readLine?_text {width : Nat} {s : Statement} (h : s.Sound width) :
    readLine? s.text.toList = some s.entry := by
  rw [readLine?, words_text h]
  cases s with
  | fixed kind q => simp [Statement.chunks, Statement.entry]
  | rotation axis radians q =>
      simp [Statement.chunks, Statement.entry, Angle.readLiteral?_radiansText h.1]
  | cx control target => simp [Statement.chunks, Statement.entry, GateKind.name]
  | cp radians control target =>
      simp [Statement.chunks, Statement.entry, GateKind.name, Angle.readLiteral?_radiansText h.1]
  | swap a b => simp [Statement.chunks, Statement.entry, GateKind.name]
  | measure q => simp [Statement.chunks, Statement.entry, GateKind.name]

theorem mapM_readLine? {width : Nat} {body : List Statement} (h : ∀ s ∈ body, s.Sound width) :
    (body.map fun s => s.text.toList).mapM readLine? = some (body.map Statement.entry) := by
  induction body with
  | nil => rfl
  | cons s rest ih =>
      have hs := readLine?_text (h s List.mem_cons_self)
      have hrest := ih fun t ht => h t (List.mem_cons_of_mem _ ht)
      rw [List.map_cons, List.mapM_cons, hs, hrest]
      rfl

/-- The fourth line declares the quantum register, and its last word is the width. -/
theorem readWidth?_declaration (width : Nat) :
    readWidth? s!"qreg q[{width}];".toList = some width := by
  have hsound : ∀ p ∈ [⟨"qreg".toList, [' ']⟩, ⟨['q'], ['[']⟩, ⟨numeral width, [']', ';']⟩],
      Chunk.Sound p := by
    have hend : AreMarks [']', ';'] := by decide
    simp only [List.forall_mem_cons]
    exact ⟨⟨by decide, by decide⟩, ⟨by decide, by decide⟩, ⟨isWord_numeral width, hend⟩, by simp⟩
  have hspell : s!"qreg q[{width}];".toList =
      spell [⟨"qreg".toList, [' ']⟩, ⟨['q'], ['[']⟩, ⟨numeral width, [']', ';']⟩] := by
    simp [spell, numeral, toString]
  rw [readWidth?, hspell, words_spell hsound]
  simp

/-- The document of a finished circuit is read as its width and what its body says. -/
theorem read?_document {c : Circuit} (hc : c.Finished) :
    read? (document c) = some (c.width, (body c.gates).map Statement.entry) := by
  have hrows : rows (document c) =
      (header c.width).map String.toList ++ (body c.gates).map fun s => s.text.toList := by
    rw [rows_document hc, lines, List.map_append, List.map_map]
    rfl
  have hhead : ((header c.width).map String.toList).length = 6 := rfl
  have hdeclaration : (rows (document c))[3]? = some s!"qreg q[{c.width}];".toList := by
    rw [hrows]
    rfl
  have hbody := mapM_readLine? fun s => sound_of_mem_body hc (s := s)
  rw [read?, hdeclaration, hrows, List.take_left' hhead, List.drop_left' hhead]
  simp only [Option.bind_eq_bind, Option.bind_some, readWidth?_declaration, if_true, hbody]
  rfl

/-! ## What shows in a program -/

theorem statements_renamed (name : AngleName) (g : Gate) :
    statements (g.renamed name) = statements g := by
  cases g <;> rfl

theorem firstUnsupported?_renamed (name : AngleName) (position : Nat) (gates : List Gate) :
    firstUnsupported? position (gates.map (Gate.renamed name)) = firstUnsupported? position gates := by
  induction gates generalizing position with
  | nil => rfl
  | cons g rest ih =>
      cases g with
      | custom name' qubits params => rfl
      | fixed kind targets => exact ih (position + 1)
      | rotation axis angle targets => exact ih (position + 1)
      | cx control target => exact ih (position + 1)
      | cp theta control target => exact ih (position + 1)
      | swap a b => exact ih (position + 1)
      | measure targets => exact ih (position + 1)

theorem body_renamed (name : AngleName) (gates : List Gate) :
    body (gates.map (Gate.renamed name)) = body gates := by
  simp only [body, List.flatMap_map, statements_renamed]

/-- Circuits of one width whose gates differ in the names of angles only have one program, or the same
refusal. -/
theorem program_congr {c e : Circuit} (hwidth : e.width = c.width)
    (hgates : e.gates.map (Gate.renamed .theta) = c.gates.map (Gate.renamed .theta)) :
    program e = program c := by
  have hbody : body e.gates = body c.gates := by
    rw [← body_renamed .theta e.gates, hgates, body_renamed]
  have hrefusal : firstUnsupported? 0 e.gates = firstUnsupported? 0 c.gates := by
    rw [← firstUnsupported?_renamed .theta 0 e.gates, hgates, firstUnsupported?_renamed]
  rw [program, program, lines, lines, hrefusal, hwidth, hbody]

/-- Finished circuits have one document exactly where they have one width and say the same. -/
theorem document_eq_iff {c d : Circuit} (hc : c.Finished) (hd : d.Finished) :
    document c = document d ↔ c.width = d.width ∧
      (body c.gates).map Statement.entry = (body d.gates).map Statement.entry := by
  constructor
  · -- one document is read in one way
    intro h
    have hread := read?_document hc
    rw [h, read?_document hd] at hread
    obtain ⟨hwidth, hentries⟩ := Prod.mk.inj (Option.some.inj hread)
    exact ⟨hwidth.symm, hentries.symm⟩
  · -- what the statements say determines them, and they determine the lines
    rintro ⟨hwidth, hentries⟩
    have hbody : body c.gates = body d.gates :=
      (List.map_inj_right fun _ _ => Statement.entry_inj).mp hentries
    rw [document, document, lines, lines, hwidth, hbody]

/-- Two finished circuits of gates of known kinds have programs. They are one text exactly where the
widths and the entries agree, each is read back as the width and the entries of its circuit, and a
circuit that differs in its name, its metadata and the names of its angles only has the same program. -/
theorem program_eq_iff_entries {c d : Circuit} (hc : c.Finished) (hd : d.Finished)
    (hck : ∀ g ∈ c.gates, g.kind? ≠ none) (hdk : ∀ g ∈ d.gates, g.kind? ≠ none) :
    ∃ s t, program c = .ok s ∧ program d = .ok t ∧
      (s = t ↔ c.width = d.width ∧ c.entries = d.entries) ∧
      read? s = some (c.width, c.entries) ∧ read? t = some (d.width, d.entries) ∧
      ∀ e : Circuit, e.width = c.width →
        e.gates.map (Gate.renamed .theta) = c.gates.map (Gate.renamed .theta) →
        program e = .ok s := by
  have hcs : program c = .ok (document c) := program_eq_ok_iff.mpr ⟨hck, rfl⟩
  have hdt : program d = .ok (document d) := program_eq_ok_iff.mpr ⟨hdk, rfl⟩
  have hentries : ∀ {e : Circuit}, (∀ g ∈ e.gates, g.kind? ≠ none) →
      (body e.gates).map Statement.entry = e.entries := fun he => map_entry_body he
  refine ⟨document c, document d, hcs, hdt, ?_, ?_, ?_, ?_⟩
  · -- equal documents are read alike, and the entries are all that a document is made of
    rw [document_eq_iff hc hd, hentries hck, hentries hdk]
  · rw [read?_document hc, hentries hck]
  · rw [read?_document hd, hentries hdk]
  · intro e hwidth hgates
    exact (program_congr hwidth hgates).trans hcs

/-- Control: a broadcast gate and the same gate on its targets one by one have one program, under other
names of the circuit and of the angle. -/
theorem program_eq_iff_entries_broadcast :
    ∃ c d : Circuit, c.Finished ∧ d.Finished ∧ (∀ g ∈ c.gates, g.kind? ≠ none) ∧
      (∀ g ∈ d.gates, g.kind? ≠ none) ∧ c.gates ≠ d.gates ∧ ∃ text,
        program c = .ok text ∧ program d = .ok text ∧ read? text = some (2, c.entries) := by
  let c : Circuit := ⟨"pair", 2, [.fixed .h [0, 1], .rotation .x ⟨.theta, .pi⟩ [1]], []⟩
  let d : Circuit := ⟨"apart", 2, [.fixed .h [0], .fixed .h [1], .rotation .x ⟨.phi, .pi⟩ [1]], []⟩
  have hc : c.Finished := ⟨_, [.push (.fixed .h [0, 1]), .rx ⟨.theta, .pi⟩ 1], rfl, rfl⟩
  have hd : d.Finished := ⟨_, [.h 0, .h 1, .rx ⟨.phi, .pi⟩ 1], rfl, rfl⟩
  have hck : ∀ g ∈ c.gates, g.kind? ≠ none := by decide
  have hdk : ∀ g ∈ d.gates, g.kind? ≠ none := by decide
  obtain ⟨s, t, hs, ht, hiff, hread, -, -⟩ := program_eq_iff_entries hc hd hck hdk
  have hst : s = t := hiff.mpr (by decide)
  exact ⟨c, d, hc, hd, hck, hdk, by decide, s, hs, hst ▸ ht, hread⟩

end Qasm

end QCircuit
