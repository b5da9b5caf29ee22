import QCircuit.Proofs.Qasm.Statement

/-!
# Words of a line

A line is a row of chunks, each a word and the marks behind it (`Qasm.spell`). Words hold no mark and
every chunk ends in one, so the words of a line are found again by cutting at marks
(`Qasm.words_spell`). The text of a sound statement is such a row (`Qasm.toList_text`), and it holds no
line feed, so the lines of a document are found again as well (`Qasm.rows_join`).
-/

set_option autoImplicit false

namespace QCircuit.Qasm

open Decimal

/-! ## Chunks -/

/-- The characters that end a word. -/
def isMark (c : Char) : Bool := [' ', '(', ')', '[', ']', ',', ';', '\n'].contains c

/-- A word: some characters, none of them a mark. -/
def IsWord (w : List Char) : Prop := w ≠ [] ∧ ∀ c ∈ w, isMark c = false

instance (w : List Char) : Decidable (IsWord w) :=
  decidable_of_iff (w ≠ [] ∧ w.all fun c => !isMark c) (by simp [IsWord])

/-- Marks that may stand behind a word on its line. -/
def AreMarks (marks : List Char) : Prop := marks ≠ [] ∧ (∀ c ∈ marks, isMark c) ∧ '\n' ∉ marks

instance (marks : List Char) : Decidable (AreMarks marks) :=
  decidable_of_iff (marks ≠ [] ∧ marks.all isMark ∧ '\n' ∉ marks) (by simp [AreMarks])

/-- A word and the marks behind it. -/
structure Chunk where
  word : List Char
  marks : List Char

/-- A chunk that can be cut off again. -/
structure Chunk.Sound (p : Chunk) : Prop where
  word : IsWord p.word
  marks : AreMarks p.marks

/-- The characters of a row of chunks. -/
def spell (chunks : List Chunk) : List Char := chunks.flatMap fun p => p.word ++ p.marks

/-- The words of a line: what stands between its marks. -/
def words (line : List Char) : List (List Char) := (line.splitOnP isMark).filter (· ≠ [])

/-- A word ends at the first mark behind it. -/
theorem words_append {w : List Char} (hw : IsWord w) {mark : Char} (hm : isMark mark)
    (rest : List Char) : words (w ++ mark :: rest) = w :: words rest := by
  simp [words, List.splitOnP_append_cons_of_forall_mem hw.2 mark hm, hw.1]

/-- Marks in front of a word are passed over. -/
theorem words_marks {marks : List Char} (h : ∀ c ∈ marks, isMark c) (rest : List Char) :
    words (marks ++ rest) = words rest := by
  induction marks with
  | nil => rfl
  | cons mark more ih =>
      have hm := h mark List.mem_cons_self
      have hmore := ih fun c hc => h c (List.mem_cons_of_mem _ hc)
      rw [← hmore]
      simp [words, List.splitOnP_cons_eq_if_modifyHead, hm]

/-- The words of a row of sound chunks are theirs, in order. -/
theorem words_spell {chunks : List Chunk} (h : ∀ p ∈ chunks, p.Sound) :
    words (spell chunks) = chunks.map Chunk.word := by
  induction chunks with
  | nil => rfl
  | cons p rest ih =>
      obtain ⟨word, marks⟩ := p
      obtain ⟨hword, hne, hmarks, -⟩ := h ⟨word, marks⟩ List.mem_cons_self
      have hrest := ih fun q hq => h q (List.mem_cons_of_mem _ hq)
      cases marks with
      | nil => exact absurd rfl hne
      | cons mark more =>
          -- the first mark ends the word, the others are passed over
          have hmark := hmarks mark List.mem_cons_self
          have hmore := words_marks (fun c hc => hmarks c (List.mem_cons_of_mem _ hc)) (spell rest)
          rw [spell, List.flatMap_cons, List.append_assoc, List.cons_append,
            words_append hword hmark]
          exact congrArg (word :: ·) (hmore.trans hrest)

/-- A row of sound chunks stays on its line. -/
theorem newline_not_mem_spell {chunks : List Chunk} (h : ∀ p ∈ chunks, p.Sound) :
    '\n' ∉ spell chunks := by
  intro hmem
  obtain ⟨p, hp, hc⟩ := List.mem_flatMap.mp hmem
  cases List.mem_append.mp hc with
  | inl hword => exact absurd ((h p hp).word.2 _ hword) (by decide)
  | inr hmarks => exact (h p hp).marks.2.2 hmarks

/-! ## Statements in chunks -/

/-- The chunks of a statement. -/
def Statement.chunks : Statement → List Chunk
  | .fixed kind q =>
      [⟨kind.kind.name.toList, [' ']⟩, ⟨['q'], ['[']⟩, ⟨numeral q, [']', ';']⟩]
  | .rotation axis radians q =>
      [⟨axis.kind.name.toList, ['(']⟩, ⟨(Angle.radiansText radians).toList, [')', ' ']⟩,
        ⟨['q'], ['[']⟩, ⟨numeral q, [']', ';']⟩]
  | .cx control target =>
      [⟨"cx".toList, [' ']⟩, ⟨['q'], ['[']⟩, ⟨numeral control, [']', ',']⟩, ⟨['q'], ['[']⟩,
        ⟨numeral target, [']', ';']⟩]
  | .cp radians control target =>
      [⟨"cp".toList, ['(']⟩, ⟨(Angle.radiansText radians).toList, [')', ' ']⟩, ⟨['q'], ['[']⟩,
        ⟨numeral control, [']', ',']⟩, ⟨['q'], ['[']⟩, ⟨numeral target, [']', ';']⟩]
  | .swap a b =>
      [⟨"swap".toList, [' ']⟩, ⟨['q'], ['[']⟩, ⟨numeral a, [']', ',']⟩, ⟨['q'], ['[']⟩,
        ⟨numeral b, [']', ';']⟩]
  | .measure q =>
      [⟨"measure".toList, [' ']⟩, ⟨['q'], ['[']⟩, ⟨numeral q, [']', ' ']⟩, ⟨['-', '>'], [' ']⟩,
        ⟨['c'], ['[']⟩, ⟨numeral q, [']', ';']⟩]

/-- The text of a statement is the row of its chunks. -/
theorem toList_text (s : Statement) : s.text.toList = spell s.chunks := by
  cases s <;> simp [Statement.text, Statement.chunks, spell, numeral, toString]

theorem isMark_of_isDigit {c : Char} (h : isDigit c) : isMark c = false := by
  cases hm : isMark c with
  | false => rfl
  | true =>
      have hnone : [' ', '(', ')', '[', ']', ',', ';', '\n'].all fun mark => !isDigit mark := by decide
      have hc := List.all_eq_true.mp hnone c (List.contains_iff_mem.mp hm)
      rw [h] at hc
      cases hc

theorem isWord_digits {w : List Char} (h : Digits w) : IsWord w :=
  ⟨h.1, fun c hc => isMark_of_isDigit (h.2 c hc)⟩

theorem isWord_unsigned {w : List Char} (h : Unsigned w) : IsWord w := by
  obtain ⟨whole, fraction, hwhole, hfraction, rfl⟩ := h
  refine ⟨by simp, ?_⟩
  intro c hc
  rcases List.mem_append.mp hc with hw | hp
  · exact isMark_of_isDigit (hwhole.2 c hw)
  · rcases List.mem_cons.mp hp with rfl | hf
    · decide
    · exact isMark_of_isDigit (hfraction.2 c hf)

theorem isWord_literal {w : List Char} (h : Literal w) : IsWord w := by
  rcases h with hunsigned | ⟨rest, hunsigned, rfl⟩
  · exact isWord_unsigned hunsigned
  · refine ⟨List.cons_ne_nil _ _, ?_⟩
    intro c hc
    rcases List.mem_cons.mp hc with rfl | hr
    · decide
    · exact (isWord_unsigned hunsigned).2 c hr

theorem isWord_name (kind : GateKind) : IsWord kind.name.toList := by cases kind <;> decide

theorem isWord_numeral (n : Nat) : IsWord (numeral n) := isWord_digits (digits_numeral n)

theorem isWord_radiansText {x : Binary64} (h : x.isFinite) : IsWord (Angle.radiansText x).toList :=
  isWord_literal (Angle.literal_radiansText h)

/-- The chunks of a sound statement are sound: the words are names, registers, numerals and literals,
which hold no mark. -/
theorem sound_of_mem_chunks {width : Nat} {s : Statement} (h : s.Sound width) {p : Chunk}
    (hp : p ∈ s.chunks) : p.Sound := by
  -- the marks that stand after the words of a line
  have hspace : AreMarks [' '] := by decide
  have hopen : AreMarks ['('] := by decide
  have hclose : AreMarks [')', ' '] := by decide
  have hcomma : AreMarks [']', ','] := by decide
  have hgap : AreMarks [']', ' '] := by decide
  have hend : AreMarks [']', ';'] := by decide
  have hq : (⟨['q'], ['[']⟩ : Chunk).Sound := ⟨by decide, by decide⟩
  revert p
  cases s with
  | fixed kind q =>
      simp only [Statement.chunks, List.forall_mem_cons]
      exact ⟨⟨isWord_name _, hspace⟩, hq, ⟨isWord_numeral q, hend⟩, by simp⟩
  | rotation axis radians q =>
      simp only [Statement.chunks, List.forall_mem_cons]
      exact ⟨⟨isWord_name _, hopen⟩, ⟨isWord_radiansText h.1, hclose⟩, hq, ⟨isWord_numeral q, hend⟩,
        by simp⟩
  | cx control target =>
      simp only [Statement.chunks, List.forall_mem_cons]
      exact ⟨⟨isWord_name .cx, hspace⟩, hq, ⟨isWord_numeral control, hcomma⟩, hq,
        ⟨isWord_numeral target, hend⟩, by simp⟩
  | cp radians control target =>
      simp only [Statement.chunks, List.forall_mem_cons]
      exact ⟨⟨isWord_name .cp, hopen⟩, ⟨isWord_radiansText h.1, hclose⟩, hq,
        ⟨isWord_numeral control, hcomma⟩, hq, ⟨isWord_numeral target, hend⟩, by simp⟩
  | swap a b =>
      simp only [Statement.chunks, List.forall_mem_cons]
      exact ⟨⟨isWord_name .swap, hspace⟩, hq, ⟨isWord_numeral a, hcomma⟩, hq, ⟨isWord_numeral b, hend⟩,
        by simp⟩
  | measure q =>
      have hc : (⟨['c'], ['[']⟩ : Chunk).Sound := ⟨by decide, by decide⟩
      have harrow : (⟨['-', '>'], [' ']⟩ : Chunk).Sound := ⟨by decide, by decide⟩
      simp only [Statement.chunks, List.forall_mem_cons]
      exact ⟨⟨isWord_name .measure, hspace⟩, hq, ⟨isWord_numeral q, hgap⟩, harrow, hc,
        ⟨isWord_numeral q, hend⟩, by simp⟩

theorem words_text {width : Nat} {s : Statement} (h : s.Sound width) :
    words s.text.toList = s.chunks.map Chunk.word := by
  rw [toList_text, words_spell fun _ => sound_of_mem_chunks h]

theorem newline_not_mem_text {width : Nat} {s : Statement} (h : s.Sound width) :
    '\n' ∉ s.text.toList := by
  rw [toList_text]
  exact newline_not_mem_spell fun _ => sound_of_mem_chunks h

/-! ## Lines -/

/-- The lines of a text in which every line is ended by a line feed. -/
def rows (text : String) : List (List Char) := (text.toList.splitOn '\n').dropLast

/-- Lines without a line feed are found again. -/
theorem rows_join {ls : List String} (h : ∀ line ∈ ls, '\n' ∉ line.toList) :
    rows (String.join (ls.map fun line => line ++ "\n")) = ls.map String.toList := by
  induction ls with
  | nil => rfl
  | cons line rest ih =>
      have hline := h line List.mem_cons_self
      have hrest := ih fun l hl => h l (List.mem_cons_of_mem _ hl)
      rw [rows] at hrest
      have hbreak : (line ++ "\n").toList = line.toList ++ ['\n'] := by simp
      rw [rows, List.map_cons, String.join_cons, String.toList_append, hbreak, List.append_assoc,
        List.singleton_append, List.splitOn_append_cons_self_of_not_mem hline,
        List.dropLast_cons_of_ne_nil (List.splitOn_ne_nil _ _), hrest, List.map_cons]

/-- The lines in front of a body hold no line feed. -/
theorem newline_not_mem_header {width : Nat} {line : String} (h : line ∈ header width) :
    '\n' ∉ line.toList := by
  have hnumeral : '\n' ∉ Nat.toDigits 10 width := (digits_numeral width).not_mem (by decide)
  revert line
  simp [header, toString, hnumeral]

/-- The lines of the document of a finished circuit are found again. -/
theorem rows_document {c : Circuit} (hc : c.Finished) :
    rows (document c) = (lines c).map String.toList := by
  refine rows_join ?_
  intro line hline
  rcases List.mem_append.mp hline with hhead | hbody
  · exact newline_not_mem_header hhead
  · obtain ⟨s, hs, rfl⟩ := List.mem_map.mp hbody
    exact newline_not_mem_text (sound_of_mem_body hc hs)

end QCircuit.Qasm
