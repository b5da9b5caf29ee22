import QCircuit.Json.Token
import QCircuit.Proofs.Json.Number
import QCircuit.Proofs.Json.Quoted

/-!
# The tokens of a text

The scanner finds the tokens of every text of the grammar (`Token.scan?_of_elementText`). What it does at
the front of a text is said for each kind of token: blanks are skipped, punctuation and string literals
end by themselves, and a bare run ends where the rest of the text does not go on with it.
-/

set_option autoImplicit false

namespace QCircuit.Json

/-! ## The tokens of a tree -/

/-- What a string literal denotes, if it denotes a string. -/
def denoted? (pieces : List Piece) : Option String := (Quoted.unescape (spell pieces)).join

/-- Rows of tokens with commas between them. -/
def joined : List (List Token) → List Token
  | [] => []
  | [row] => row
  | row :: next :: rest => row ++ .comma :: joined (next :: rest)

mutual

/-- The tokens of a value. -/
def Tree.tokens : Tree → List Token
  | .null => [.scalar .null]
  | .bool value => [.scalar (.bool value)]
  | .number literal => [.scalar literal.value]
  | .string pieces => [.string (denoted? pieces)]
  | .array items => .openArray :: joined (Tree.itemTokens items) ++ [.closeArray]
  | .object members => .openObject :: joined (Tree.memberTokens members) ++ [.closeObject]

/-- The tokens of each item. -/
def Tree.itemTokens : List Tree → List (List Token)
  | [] => []
  | item :: rest => item.tokens :: Tree.itemTokens rest

/-- The tokens of each member. -/
def Tree.memberTokens : List (List Piece × Tree) → List (List Token)
  | [] => []
  | (key, value) :: rest =>
      (.string (denoted? key) :: .colon :: value.tokens) :: Tree.memberTokens rest

end

/-- The tokens of a key with its value. -/
def memberTokens (member : List Piece × Tree) : List Token :=
  .string (denoted? member.1) :: .colon :: member.2.tokens

theorem Tree.itemTokens_eq (items : List Tree) : itemTokens items = items.map tokens := by
  induction items with
  | nil => rfl
  | cons item rest ih => rw [itemTokens, ih, List.map_cons]

theorem Tree.memberTokens_eq (members : List (List Piece × Tree)) :
    Tree.memberTokens members = members.map Json.memberTokens := by
  induction members with
  | nil => rfl
  | cons member rest ih =>
      rw [Tree.memberTokens, ih, List.map_cons]
      rfl

namespace Token

/-- The scanner finds the tokens. -/
def Scans (text : List Char) (tokens : List Token) : Prop :=
  ∀ found, scanFrom? found .between text = some (found.reverse ++ tokens)

theorem scans_nil : Scans [] [] := fun found => by simp [scanFrom?, finish?]

variable {text : List Char} {tokens : List Token}

/-! ## Blanks and punctuation -/

theorem isBlank_of_blanks {gap : List Char} (h : Blanks gap) {c : Char} (hc : c ∈ gap) :
    isBlank c = true := by
  rcases h c hc with rfl | rfl | rfl | rfl <;> rfl

theorem Scans.blanks (h : Scans text tokens) {gap : List Char} (hgap : Blanks gap) :
    Scans (gap ++ text) tokens := by
  induction gap with
  | nil => exact h
  | cons c gap ih =>
      intro found
      have hc := isBlank_of_blanks hgap List.mem_cons_self
      have hrest := ih (fun d hd => hgap d (List.mem_cons_of_mem _ hd)) found
      simpa [scanFrom?, step?, startAt?, hc] using hrest

/-- Punctuation is a token by itself. -/
theorem Scans.punctuation (h : Scans text tokens) (c : Char) {token : Token}
    (hc : startAt? c = some ([token], .between)) : Scans (c :: text) (token :: tokens) := by
  intro found
  have hrest := h (token :: found)
  simpa [scanFrom?, step?, hc] using hrest

/-! ## Bare runs -/

theorem scanFrom?_bare {run : List Char} (h : ∀ c ∈ run, isBare c) (found : List Token)
    (read text : List Char) :
    scanFrom? found (.bare read) (run ++ text) =
      scanFrom? found (.bare (run.reverse ++ read)) text := by
  induction run generalizing read with
  | nil => rfl
  | cons c run ih =>
      have hc := h c List.mem_cons_self
      have hrest := ih (fun d hd => h d (List.mem_cons_of_mem _ hd)) (c :: read)
      simpa [scanFrom?, step?, hc] using hrest

/-- Where the text does not go on with it, a run is finished and the text is scanned as it stands. -/
theorem scanFrom?_finish {run : List Char} {token : Token} (hrun : ofBare? run.reverse = some token)
    (htext : Stops isBare text) (found : List Token) :
    scanFrom? found (.bare run) text = scanFrom? (token :: found) .between text := by
  cases text with
  | nil => simp [scanFrom?, finish?, hrun]
  | cons c rest =>
      have hc := htext c rfl
      cases hstart : startAt? c with
      | none => simp [scanFrom?, step?, hc, hstart, hrun]
      | some next =>
          obtain ⟨tokens, mode⟩ := next
          simp [scanFrom?, step?, hc, hstart, hrun]

/-- A bare character starts a run. -/
theorem startAt?_of_isBare {c : Char} (h : isBare c) : startAt? c = some ([], .bare [c]) := by
  have hblank : isBlank c = false := by
    cases hc : isBlank c with
    | false => rfl
    | true =>
        -- none of the four blanks is bare
        simp only [isBlank, Bool.or_eq_true, decide_eq_true_eq] at hc
        rcases hc with ((rfl | rfl) | rfl) | rfl <;> cases h
  have hquote : c ≠ '"' := by
    rintro rfl
    cases h
  simp [startAt?, hblank, hquote, h]

theorem Scans.bare (h : Scans text tokens) (run : List Char) (hrun : ∀ c ∈ run, isBare c)
    (hne : run ≠ []) {token : Token} (htoken : ofBare? run = some token)
    (htext : Stops isBare text) : Scans (run ++ text) (token :: tokens) := by
  intro found
  cases run with
  | nil => exact absurd rfl hne
  | cons c run =>
      obtain ⟨hc, hrest⟩ := List.forall_mem_cons.mp hrun
      have hread : scanFrom? found .between (c :: run ++ text) =
          scanFrom? found (.bare [c]) (run ++ text) := by
        simp [scanFrom?, step?, startAt?_of_isBare hc]
      have hdone := h (token :: found)
      rw [hread, scanFrom?_bare hrest, scanFrom?_finish (by simpa using htoken) htext, hdone]
      simp

/-! ## String literals -/

theorem scanFrom?_plain {c : Char} (hlow : ' ' ≤ c) (hquote : c ≠ '"') (hbackslash : c ≠ '\\')
    (found : List Token) (read text : List Char) :
    scanFrom? found (.quoted read) (c :: text) = scanFrom? found (.quoted (c :: read)) text := by
  have hnot : ¬ c < ' ' := Char.not_lt.mpr hlow
  simp [scanFrom?, step?, hquote, hbackslash, hnot]

/-- A character behind a backslash belongs to the literal, whatever it is. -/
theorem scanFrom?_escape {c : Char} (hlow : ' ' ≤ c) (found : List Token) (read text : List Char) :
    scanFrom? found (.quoted read) ('\\' :: c :: text) =
      scanFrom? found (.quoted (c :: '\\' :: read)) text := by
  have hnot : ¬ c < ' ' := Char.not_lt.mpr hlow
  simp [scanFrom?, step?, hnot]

theorem scanFrom?_piece {piece : Piece} (h : piece.Sound) (found : List Token)
    (read text : List Char) :
    scanFrom? found (.quoted read) (piece.text ++ text) =
      scanFrom? found (.quoted (piece.text.reverse ++ read)) text := by
  cases h with
  | plain hlow hquote hbackslash => exact scanFrom?_plain hlow hquote hbackslash found read text
  | @letter c letter hletter =>
      have hall : ∀ pair ∈ letterEscapes, ' ' ≤ pair.2 := by decide
      exact scanFrom?_escape (hall _ hletter) found read text
  | @hex a b c d code hcode =>
      -- after the escape come four digits, which are plain characters to the scanner
      obtain ⟨w, x, y, z, ha, hb, hc, hd, -⟩ := hcode
      obtain ⟨ha1, ha2, ha3⟩ := Quoted.sound_of_hexDigit ha
      obtain ⟨hb1, hb2, hb3⟩ := Quoted.sound_of_hexDigit hb
      obtain ⟨hc1, hc2, hc3⟩ := Quoted.sound_of_hexDigit hc
      obtain ⟨hd1, hd2, hd3⟩ := Quoted.sound_of_hexDigit hd
      show scanFrom? found (.quoted read) ('\\' :: 'u' :: a :: b :: c :: d :: text) = _
      rw [scanFrom?_escape (by decide), scanFrom?_plain ha1 ha2 ha3, scanFrom?_plain hb1 hb2 hb3,
        scanFrom?_plain hc1 hc2 hc3, scanFrom?_plain hd1 hd2 hd3]
      rfl

theorem scanFrom?_spell {pieces : List Piece} (h : ∀ piece ∈ pieces, piece.Sound)
    (found : List Token) (read text : List Char) :
    scanFrom? found (.quoted read) (spell pieces ++ text) =
      scanFrom? found (.quoted ((spell pieces).reverse ++ read)) text := by
  induction pieces generalizing read with
  | nil => rfl
  | cons piece rest ih =>
      obtain ⟨hpiece, hrest⟩ := List.forall_mem_cons.mp h
      have hspell : spell (piece :: rest) = piece.text ++ spell rest := List.flatMap_cons
      rw [hspell, List.append_assoc, scanFrom?_piece hpiece, ih hrest, List.reverse_append,
        List.append_assoc]

theorem Scans.quoted (h : Scans text tokens) {pieces : List Piece}
    (hpieces : ∀ piece ∈ pieces, piece.Sound) :
    Scans (quoted pieces ++ text) (.string (denoted? pieces) :: tokens) := by
  intro found
  obtain ⟨denoted, hdenoted⟩ := Quoted.exists_unescape hpieces
  have hstart : scanFrom? found .between (Json.quoted pieces ++ text) =
      scanFrom? found (.quoted []) (spell pieces ++ '"' :: text) := by
    simp [Json.quoted, scanFrom?, step?, startAt?, isBlank]
  have hdone := h (.string (denoted? pieces) :: found)
  rw [hstart, scanFrom?_spell hpieces]
  simpa [scanFrom?, step?, denoted?, hdenoted] using hdone

/-! ## Number literals -/

theorem isBare_of_isDigit {c : Char} (h : Decimal.isDigit c) : isBare c := by
  have hdigit : c.isDigit = true := by
    simpa [Decimal.isDigit, Char.isDigit, Char.le_def] using h
  simp [isBare, Char.isAlphanum, hdigit]

theorem isBare_of_fractionText {fraction text : List Char} (h : FractionText fraction text) :
    ∀ c ∈ text, isBare c := by
  cases h with
  | none => simp
  | some hdigits =>
      exact List.forall_mem_cons.mpr ⟨by decide, fun c hc => isBare_of_isDigit (hdigits.2 c hc)⟩

theorem isBare_of_exponentText {exponent : Option Int} {text : List Char}
    (h : ExponentText exponent text) : ∀ c ∈ text, isBare c := by
  have hdigits : ∀ {digits : List Char}, Decimal.Digits digits → ∀ c ∈ digits, isBare c :=
    fun hdigits c hc => isBare_of_isDigit (hdigits.2 c hc)
  have hmark : ∀ {mark : Char}, mark = 'e' ∨ mark = 'E' → isBare mark := by
    rintro mark (rfl | rfl) <;> rfl
  cases h with
  | none => simp
  | unsigned hm hd => exact List.forall_mem_cons.mpr ⟨hmark hm, hdigits hd⟩
  | plus hm hd =>
      exact List.forall_mem_cons.mpr
        ⟨hmark hm, List.forall_mem_cons.mpr ⟨by decide, hdigits hd⟩⟩
  | minus hm hd =>
      exact List.forall_mem_cons.mpr
        ⟨hmark hm, List.forall_mem_cons.mpr ⟨by decide, hdigits hd⟩⟩

/-- A number literal is a bare run. -/
theorem isBare_of_numberText {literal : Literal} {text : List Char} (h : NumberText literal text) :
    ∀ c ∈ text, isBare c := by
  cases h with
  | mk negative hwhole _ hfraction hexponent =>
      simp only [List.forall_mem_append]
      refine ⟨⟨⟨?_, fun c hc => isBare_of_isDigit (hwhole.2 c hc)⟩,
        isBare_of_fractionText hfraction⟩, isBare_of_exponentText hexponent⟩
      cases negative <;> simp [isBare]

/-- A number literal starts with a minus sign or a digit. -/
theorem head_of_numberText {literal : Literal} {text : List Char} (h : NumberText literal text) :
    ∃ c rest, text = c :: rest ∧ (c = '-' ∨ Decimal.isDigit c) := by
  cases h with
  | @mk negative whole _ _ _ _ hwhole _ _ _ =>
      cases negative with
      | true => exact ⟨_, _, rfl, Or.inl rfl⟩
      | false =>
          cases whole with
          | nil => exact absurd rfl hwhole.1
          | cons c rest => exact ⟨_, _, rfl, Or.inr (hwhole.2 c List.mem_cons_self)⟩

theorem ne_nil_of_numberText {literal : Literal} {text : List Char} (h : NumberText literal text) :
    text ≠ [] := by
  obtain ⟨c, rest, rfl, -⟩ := head_of_numberText h
  exact List.cons_ne_nil c rest

/-- A number literal is none of the three words. -/
theorem not_word_of_numberText {literal : Literal} {text : List Char} (h : NumberText literal text) :
    text ≠ ['n', 'u', 'l', 'l'] ∧ text ≠ ['t', 'r', 'u', 'e'] ∧ text ≠ ['f', 'a', 'l', 's', 'e'] := by
  obtain ⟨c, rest, rfl, hc⟩ := head_of_numberText h
  -- a word starts with a letter, which is no minus sign and no digit
  refine ⟨?_, ?_, ?_⟩ <;>
  · intro hword
    rw [(List.cons.inj hword).1] at hc
    rcases hc with hc | hc <;> cases hc

theorem ofBare?_of_numberText {literal : Literal} {text : List Char} (h : NumberText literal text) :
    ofBare? text = some (.scalar literal.value) := by
  obtain ⟨hnull, htrue, hfalse⟩ := not_word_of_numberText h
  rw [ofBare?, if_neg hnull, if_neg htrue, if_neg hfalse, Literal.read?_of_numberText h]
  rfl

/-! ## Values -/

theorem stops_of_blanks {gap : List Char} (h : Blanks gap) (htext : Stops isBare text) :
    Stops isBare (gap ++ text) := by
  cases gap with
  | nil => exact htext
  | cons c gap =>
      apply stops_cons
      rcases h c List.mem_cons_self with rfl | rfl | rfl | rfl <;> rfl

/-- The texts of a thing, put in front of a text that does not go on with a bare run, add the tokens of
the thing. -/
def Adds {α : Type} (IsText : α → List Char → Prop) (tokensOf : α → List Token) (a : α) : Prop :=
  ∀ front, IsText a front → ∀ text tokens, Stops isBare text → Scans text tokens →
    Scans (front ++ text) (tokensOf a ++ tokens)

/-- Between things that add their tokens the commas add theirs. -/
theorem Scans.joined {α : Type} {IsText : α → List Char → Prop} {tokensOf : α → List Token}
    {row : List α} {front : List Char} (h : Separated IsText row front)
    (hadds : ∀ a ∈ row, Adds IsText tokensOf a) (htext : Stops isBare text)
    (hscans : Scans text tokens) :
    Scans (front ++ text) (joined (row.map tokensOf) ++ tokens) := by
  -- what stands behind a thing is a comma or the text, and neither goes on with a bare run
  induction h with
  | last ha => exact hadds _ List.mem_cons_self _ ha text tokens htext hscans
  | @cons a rest first more ha hmore ih =>
      obtain ⟨hfirst, hrest⟩ := List.forall_mem_cons.mp hadds
      have hcomma := (ih hrest).punctuation ',' rfl
      have hrow := hfirst _ ha _ _ (stops_cons rfl _) hcomma
      cases hmore <;> simpa [Json.joined] using hrow

theorem Adds.element {tree : Tree} (h : Adds ValueText Tree.tokens tree) :
    Adds ElementText Tree.tokens tree := by
  intro front hfront text tokens htext hscans
  cases hfront with
  | @mk _ before value after hbefore hvalue hafter =>
      have hrest := h _ hvalue _ _ (stops_of_blanks hafter htext) (hscans.blanks hafter)
      simpa using hrest.blanks hbefore

theorem Adds.member {member : List Piece × Tree} (h : Adds ValueText Tree.tokens member.2) :
    Adds MemberText memberTokens member := by
  intro front hfront text tokens htext hscans
  cases hfront with
  | @mk key value before after element hbefore hkey hafter helement =>
      have hvalue := h.element _ helement _ _ htext hscans
      have hcolon := hvalue.punctuation ':' rfl
      simpa [memberTokens] using ((hcolon.blanks hafter).quoted hkey).blanks hbefore

/-- Every text of a value adds the tokens of the value. -/
theorem adds_value (tree : Tree) : Adds ValueText Tree.tokens tree := by
  -- over the tree, with the text behind it left open: inside brackets it is the rest of the row
  induction tree with
  | null =>
      intro front hfront text tokens htext hscans
      cases hfront
      exact hscans.bare ['n', 'u', 'l', 'l'] (List.all_eq_true.mp rfl) (by decide) rfl htext
  | bool value =>
      intro front hfront text tokens htext hscans
      cases hfront with
      | true => exact hscans.bare ['t', 'r', 'u', 'e'] (List.all_eq_true.mp rfl) (by decide) rfl htext
      | false =>
          exact hscans.bare ['f', 'a', 'l', 's', 'e'] (List.all_eq_true.mp rfl) (by decide) rfl htext
  | number literal =>
      intro front hfront text tokens htext hscans
      cases hfront with
      | number hnumber =>
          exact hscans.bare _ (isBare_of_numberText hnumber) (ne_nil_of_numberText hnumber)
            (ofBare?_of_numberText hnumber) htext
  | string pieces =>
      intro front hfront text tokens htext hscans
      cases hfront with
      | string hpieces => exact hscans.quoted hpieces
  | array items ih =>
      intro front hfront text tokens htext hscans
      have hclose := hscans.punctuation ']' rfl
      cases hfront with
      | emptyArray hgap =>
          have hopen := (hclose.blanks hgap).punctuation '[' rfl
          simpa [Tree.tokens, Tree.itemTokens, Json.joined] using hopen
      | array hitems =>
          have hrow := Scans.joined hitems (fun item hitem => (ih item hitem).element)
            (stops_cons rfl _) hclose
          have hopen := hrow.punctuation '[' rfl
          simpa [Tree.tokens, Tree.itemTokens_eq] using hopen
  | object members ih =>
      intro front hfront text tokens htext hscans
      have hclose := hscans.punctuation '\x7d' rfl
      cases hfront with
      | emptyObject hgap =>
          have hopen := (hclose.blanks hgap).punctuation '\x7b' rfl
          simpa [Tree.tokens, Tree.memberTokens, Json.joined] using hopen
      | object hmembers =>
          have hrow := Scans.joined hmembers (fun member hmember => (ih member hmember).member)
            (stops_cons rfl _) hclose
          have hopen := hrow.punctuation '\x7b' rfl
          simpa [Tree.tokens, Tree.memberTokens_eq] using hopen

/-- The scanner finds the tokens of every text. -/
theorem scan?_of_elementText {tree : Tree} {text : List Char} (h : ElementText tree text) :
    scan? text = some tree.tokens := by
  have hscans := (adds_value tree).element text h [] [] (stops_nil _) scans_nil []
  simpa [scan?] using hscans

end Token

end QCircuit.Json
