import QCircuit.Proofs.Json.Grammar

/-!
# What string literals denote

Reading goes through a literal piece by piece (`Quoted.codes?_piece`), so every row of sound pieces is a
literal (`Quoted.exists_unescape`), and where the pieces denote characters these are what is read
(`Quoted.unescape_of_denotes`). Writing turns every character into one sound piece (`Quoted.piece`), and the
pieces of a text denote it (`Quoted.pieces_written`).
-/

set_option autoImplicit false

namespace QCircuit.Json.Quoted

/-! ## Hexadecimal digits -/

theorem hexValue?_of_hexDigit {c : Char} {value : Nat} (h : HexDigit c value) :
    hexValue? c = some value := by
  have hall : ∀ value, value < 16 → hexValue? (Nat.digitChar value) = some value ∧
      hexValue? (Nat.digitChar value).toUpper = some value := by decide
  obtain ⟨hlt, rfl | rfl⟩ := h
  · exact (hall value hlt).1
  · exact (hall value hlt).2

/-- Hexadecimal digits stand for themselves in a literal. -/
theorem sound_of_hexDigit {c : Char} {value : Nat} (h : HexDigit c value) :
    ' ' ≤ c ∧ c ≠ '"' ∧ c ≠ '\\' := by
  have hall : ∀ value, value < 16 →
      (' ' ≤ Nat.digitChar value ∧ Nat.digitChar value ≠ '"' ∧ Nat.digitChar value ≠ '\\') ∧
      (' ' ≤ (Nat.digitChar value).toUpper ∧ (Nat.digitChar value).toUpper ≠ '"' ∧
        (Nat.digitChar value).toUpper ≠ '\\') := by decide
  obtain ⟨hlt, rfl | rfl⟩ := h
  · exact (hall value hlt).1
  · exact (hall value hlt).2

theorem hexCode?_of_hexCode {a b c d : Char} {code : Nat} (h : HexCode a b c d code) :
    hexCode? a b c d =
      some (if 0xD800 ≤ code ∧ code < 0xE000 then .half code else .char (Char.ofNat code)) := by
  obtain ⟨w, x, y, z, ha, hb, hc, hd, rfl⟩ := h
  simp only [hexCode?, hexValue?_of_hexDigit ha, hexValue?_of_hexDigit hb, hexValue?_of_hexDigit hc,
    hexValue?_of_hexDigit hd]
  rfl

/-! ## Codes -/

variable {read : List Code} {rest : List Char}

theorem codes?_plain {c : Char} (h : c ≠ '\\') :
    codes? read (c :: rest) = codes? (.char c :: read) rest := by
  rw [codes?]
  · intro a b c' d rest' hc
    exact absurd hc h
  · intro letter rest' hc
    exact absurd hc h
  · intro hc
    exact absurd hc h

theorem codes?_letter {x letter : Char} (h : (x, letter) ∈ letterEscapes) :
    codes? read ('\\' :: letter :: rest) = codes? (.char x :: read) rest := by
  simp only [letterEscapes, List.mem_cons, Prod.mk.injEq, List.not_mem_nil, or_false] at h
  rcases h with ⟨rfl, rfl⟩ | ⟨rfl, rfl⟩ | ⟨rfl, rfl⟩ | ⟨rfl, rfl⟩ | ⟨rfl, rfl⟩ | ⟨rfl, rfl⟩ |
    ⟨rfl, rfl⟩ | ⟨rfl, rfl⟩ <;> rfl

theorem codes?_hex {a b c d : Char} {code : Code} (h : hexCode? a b c d = some code) :
    codes? read ('\\' :: 'u' :: a :: b :: c :: d :: rest) = codes? (code :: read) rest := by
  rw [codes?, h]
  rfl

/-- A sound piece gives one code. -/
theorem codes?_piece {piece : Piece} (h : piece.Sound) :
    ∃ code, ∀ read rest, codes? read (piece.text ++ rest) = codes? (code :: read) rest := by
  cases h with
  | plain _ _ hbackslash => exact ⟨_, fun _ _ => codes?_plain hbackslash⟩
  | letter hletter => exact ⟨_, fun _ _ => codes?_letter hletter⟩
  | hex hcode => exact ⟨_, fun _ _ => codes?_hex (hexCode?_of_hexCode hcode)⟩

/-- The code of a piece comes before those of the pieces behind it. -/
theorem codes?_cons (piece : Piece) {code : Code} {pieces : List Piece} {codes : List Code}
    (hpiece : ∀ read rest, codes? read (piece.text ++ rest) = codes? (code :: read) rest)
    (hcodes : ∀ read, codes? read (spell pieces) = some (read.reverse ++ codes))
    (read : List Code) :
    codes? read (spell (piece :: pieces)) = some (read.reverse ++ code :: codes) := by
  have hfirst := hpiece read (spell pieces)
  rw [hcodes] at hfirst
  simpa [spell] using hfirst

theorem codes?_spell {pieces : List Piece} (h : ∀ piece ∈ pieces, piece.Sound) :
    ∃ codes, ∀ read, codes? read (spell pieces) = some (read.reverse ++ codes) := by
  induction pieces with
  | nil => exact ⟨[], fun read => by simp [spell, codes?]⟩
  | cons piece rest ih =>
      obtain ⟨code, hcode⟩ := codes?_piece (h piece List.mem_cons_self)
      obtain ⟨codes, hcodes⟩ := ih fun p hp => h p (List.mem_cons_of_mem _ hp)
      exact ⟨code :: codes, codes?_cons piece hcode hcodes⟩

/-- Sound pieces make a literal, whether or not it denotes a string. -/
theorem exists_unescape {pieces : List Piece} (h : ∀ piece ∈ pieces, piece.Sound) :
    ∃ text, unescape (spell pieces) = some text := by
  obtain ⟨codes, hcodes⟩ := codes?_spell h
  exact ⟨_, by rw [unescape, hcodes, Option.map_some]⟩

/-! ## Characters -/

theorem ofNat_eq_of_toNat_eq {x : Char} {n : Nat} (h : x.toNat = n) : Char.ofNat n = x := by
  rw [← h, Char.ofNat_toNat]

/-- The number of a character is that of no surrogate. -/
theorem not_surrogate (x : Char) : ¬ (0xD800 ≤ x.toNat ∧ x.toNat < 0xE000) := by
  have h := x.valid
  simp only [UInt32.isValidChar, Nat.isValidChar] at h
  have hval : x.val.toNat = x.toNat := rfl
  omega

/-- The codes of pieces that denote characters, which are joined to these characters. -/
theorem codes?_of_denotes {pieces : List Piece} {text : List Char}
    (hsound : ∀ piece ∈ pieces, piece.Sound) (h : Denotes pieces text) :
    ∃ codes, (∀ read, codes? read (spell pieces) = some (read.reverse ++ codes)) ∧
      ∀ joined, join? joined codes = some (joined.reverse ++ text) := by
  induction h with
  | nil => exact ⟨[], fun read => by simp [spell, codes?], fun joined => by simp [join?]⟩
  | @plain c rest text _ ih =>
      obtain ⟨hfirst, hrest⟩ := List.forall_mem_cons.mp hsound
      obtain ⟨codes, hcodes, hjoin⟩ := ih hrest
      cases hfirst with
      | plain _ _ hbackslash =>
          refine ⟨.char c :: codes, codes?_cons _ (fun _ _ => codes?_plain hbackslash) hcodes, ?_⟩
          intro joined
          simpa [join?] using hjoin (c :: joined)
  | @letter x letter rest text hletter _ ih =>
      obtain ⟨codes, hcodes, hjoin⟩ := ih (List.forall_mem_cons.mp hsound).2
      refine ⟨.char x :: codes, codes?_cons _ (fun _ _ => codes?_letter hletter) hcodes, ?_⟩
      intro joined
      simpa [join?] using hjoin (x :: joined)
  | @hex a b c d x rest text hcode _ ih =>
      obtain ⟨codes, hcodes, hjoin⟩ := ih (List.forall_mem_cons.mp hsound).2
      have hread := hexCode?_of_hexCode hcode
      rw [if_neg (not_surrogate x), Char.ofNat_toNat] at hread
      refine ⟨.char x :: codes, codes?_cons _ (fun _ _ => codes?_hex hread) hcodes, ?_⟩
      intro joined
      simpa [join?] using hjoin (x :: joined)
  | @pair a b c d a' b' c' d' x high low rest text hhigh hlow h1 h2 h3 h4 hx _ ih =>
      obtain ⟨codes, hcodes, hjoin⟩ :=
        ih (List.forall_mem_cons.mp (List.forall_mem_cons.mp hsound).2).2
      have hreadHigh := hexCode?_of_hexCode hhigh
      rw [if_pos ⟨h1, by omega⟩] at hreadHigh
      have hreadLow := hexCode?_of_hexCode hlow
      rw [if_pos ⟨by omega, h4⟩] at hreadLow
      -- the halves are two codes, and join to one character
      refine ⟨.half high :: .half low :: codes, ?_, ?_⟩
      · have hsecond := codes?_cons (.hex a' b' c' d') (fun _ _ => codes?_hex hreadLow) hcodes
        exact codes?_cons _ (fun _ _ => codes?_hex hreadHigh) hsecond
      · intro joined
        have hpair : joinHalves? high low = some x := by
          rw [joinHalves?, if_pos ⟨h2, h3⟩, ofNat_eq_of_toNat_eq hx]
        rw [join?, hpair]
        simpa using hjoin (x :: joined)

/-- A literal whose pieces denote characters denotes the string of them. -/
theorem unescape_of_denotes {pieces : List Piece} {text : List Char}
    (hsound : ∀ piece ∈ pieces, piece.Sound) (h : Denotes pieces text) :
    unescape (spell pieces) = some (some (String.ofList text)) := by
  obtain ⟨codes, hcodes, hjoin⟩ := codes?_of_denotes hsound h
  rw [unescape, hcodes, Option.map_some]
  simp [hjoin]

/-! ## Written literals -/

/-- The piece that a character is written as. -/
def piece (c : Char) : Piece :=
  match shortEscapes.lookup c with
  | some letter => .letter letter
  | none =>
      if c < ' ' then .hex '0' '0' (Nat.digitChar (c.toNat / 16)) (Nat.digitChar (c.toNat % 16))
      else .plain c

/-- The pieces that a text is written as. -/
def pieces (text : List Char) : List Piece := text.map piece

/-- The piece of a character is sound, is what the character is written as, and denotes it. -/
theorem piece_written (c : Char) :
    (piece c).Sound ∧ (piece c).text = escapeChar c ∧
      ∀ rest text, Denotes rest text → Denotes (piece c :: rest) (c :: text) := by
  unfold escapeChar piece
  cases hletter : shortEscapes.lookup c with
  | some letter =>
      obtain ⟨before, after, hsplit, -⟩ := List.lookup_eq_some_iff.mp hletter
      have hmem : (c, letter) ∈ shortEscapes := by
        rw [hsplit]
        simp
      have hsubset : ∀ pair ∈ shortEscapes, pair ∈ letterEscapes := by decide
      exact ⟨.letter (hsubset _ hmem), rfl, fun _ _ => .letter (hsubset _ hmem)⟩
  | none =>
      dsimp only
      split
      · -- a control character has a number of at most two hexadecimal digits
        next hcontrol =>
          have hlt : c.toNat < 32 := hcontrol
          have hcode : HexCode '0' '0' (Nat.digitChar (c.toNat / 16)) (Nat.digitChar (c.toNat % 16))
              c.toNat := by
            refine ⟨0, 0, c.toNat / 16, c.toNat % 16, ⟨by decide, Or.inl rfl⟩, ⟨by decide, Or.inl rfl⟩,
              ⟨by omega, Or.inl rfl⟩, ⟨by omega, Or.inl rfl⟩, by omega⟩
          exact ⟨.hex hcode, rfl, fun _ _ => .hex hcode⟩
      · next hcontrol =>
          -- quotes and backslashes have letters of their own, so they are not among what is left
          have hne : ∀ pair ∈ shortEscapes, c ≠ pair.1 := by simpa using hletter
          have hquote : c ≠ '"' := hne ('"', '"') (by decide)
          have hbackslash : c ≠ '\\' := hne ('\\', '\\') (by decide)
          exact ⟨.plain (Char.not_lt.mp hcontrol) hquote hbackslash, rfl, fun _ _ => .plain⟩

/-- The pieces of a text are sound, are what the text is written as, and denote it. -/
theorem pieces_written (text : List Char) :
    (∀ piece ∈ pieces text, piece.Sound) ∧ spell (pieces text) = escape text ∧
      Denotes (pieces text) text := by
  induction text with
  | nil => exact ⟨by simp [pieces], rfl, .nil⟩
  | cons c rest ih =>
      obtain ⟨hsound, htext, hdenotes⟩ := piece_written c
      obtain ⟨hrest, hspell, hih⟩ := ih
      refine ⟨List.forall_mem_cons.mpr ⟨hsound, hrest⟩, ?_, hdenotes _ _ hih⟩
      show spell (piece c :: pieces rest) = escape (c :: rest)
      rw [spell, List.flatMap_cons, htext, escape, List.flatMap_cons]
      exact congrArg (escapeChar c ++ ·) hspell

end QCircuit.Json.Quoted
