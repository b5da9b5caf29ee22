import QCircuit.Proofs.Qasm.Text

/-!
# Well-formed documents

Every line of a body has one of six forms (`Qasm.Form.Fits`): its name and punctuation are fixed, its
indices are numerals on the register and its angle is a literal. A sound statement is written in its
form (`Qasm.fits_text`), and no line has two, since the letters in front of a line are names of one form
only (`Qasm.Form.eq_of_fits`). The program of a finished circuit is a head followed by such lines, one for
each target of a broadcast gate and one for every other gate.
-/

set_option autoImplicit false

namespace QCircuit.Qasm

open Decimal

/-! ## Forms -/

/-- The forms of a line. -/
inductive Form where
  | fixed
  | rotation
  | cx
  | cp
  | swap
  | measure
deriving DecidableEq

/-- The names that start a line of a form. -/
def Form.names : Form → List String
  | .fixed => ["h", "x", "y", "z"]
  | .rotation => ["rx", "ry", "rz"]
  | .cx => ["cx"]
  | .cp => ["cp"]
  | .swap => ["swap"]
  | .measure => ["measure"]

/-- A numeral without a leading zero, of a qubit on the register. -/
def Index (width : Nat) (text : String) (q : Qubit) : Prop := Writes text.toList q ∧ q < width

/-- A line in one of the forms. -/
def Form.Fits (width : Nat) : Form → String → Prop
  | .fixed, line => ∃ name ∈ Form.fixed.names, ∃ i q, Index width i q ∧
      line = name ++ " q[" ++ i ++ "];"
  | .rotation, line => ∃ name ∈ Form.rotation.names, ∃ angle : String, Literal angle.toList ∧
      ∃ i q, Index width i q ∧ line = name ++ "(" ++ angle ++ ") q[" ++ i ++ "];"
  | .cx, line => ∃ i j q r, Index width i q ∧ Index width j r ∧ q ≠ r ∧
      line = "cx q[" ++ i ++ "],q[" ++ j ++ "];"
  | .cp, line => ∃ angle : String, Literal angle.toList ∧
      ∃ i j q r, Index width i q ∧ Index width j r ∧ q ≠ r ∧
        line = "cp(" ++ angle ++ ") q[" ++ i ++ "],q[" ++ j ++ "];"
  | .swap, line => ∃ i j q r, Index width i q ∧ Index width j r ∧ q ≠ r ∧
      line = "swap q[" ++ i ++ "],q[" ++ j ++ "];"
  | .measure, line => ∃ i q, Index width i q ∧ line = "measure q[" ++ i ++ "] -> c[" ++ i ++ "];"

/-! ## No line has two forms -/

/-- The letters in front of the first other character. -/
theorem takeWhile_letters {name : List Char} (hname : ∀ c ∈ name, c.isAlpha) {stop : Char}
    (hstop : stop.isAlpha = false) (rest : List Char) :
    (name ++ stop :: rest).takeWhile Char.isAlpha = name := by
  rw [List.takeWhile_append_of_pos hname, List.takeWhile_cons, hstop]
  simp

theorem letters_of_mem_names {form : Form} {name : String} (h : name ∈ form.names) :
    ∀ c ∈ name.toList, c.isAlpha := by
  have hall : form.names.all fun n => n.toList.all Char.isAlpha := by cases form <;> decide
  exact List.all_eq_true.mp (List.all_eq_true.mp hall name h)

/-- A line in a form starts with one of the names of the form, and then comes no letter. -/
theorem Form.letters_of_fits {width : Nat} {form : Form} {line : String} (h : form.Fits width line) :
    ∃ name ∈ form.names, line.toList.takeWhile Char.isAlpha = name.toList := by
  have hspace : ' '.isAlpha = false := by decide
  have hopen : '('.isAlpha = false := by decide
  cases form with
  | fixed =>
      -- the name varies here, so the letters end only at the blank behind it
      obtain ⟨name, hname, i, q, -, rfl⟩ := h
      refine ⟨name, hname, ?_⟩
      simpa using takeWhile_letters (letters_of_mem_names hname) hspace
        ('q' :: '[' :: (i ++ "];").toList)
  | rotation =>
      obtain ⟨name, hname, angle, -, i, q, -, rfl⟩ := h
      refine ⟨name, hname, ?_⟩
      simpa using takeWhile_letters (letters_of_mem_names hname) hopen
        (angle ++ ") q[" ++ i ++ "];").toList
  | cx =>
      obtain ⟨i, j, q, r, -, -, -, rfl⟩ := h
      exact ⟨"cx", by decide, by simp⟩
  | cp =>
      obtain ⟨angle, -, i, j, q, r, -, -, -, rfl⟩ := h
      exact ⟨"cp", by decide, by simp⟩
  | swap =>
      obtain ⟨i, j, q, r, -, -, -, rfl⟩ := h
      exact ⟨"swap", by decide, by simp⟩
  | measure =>
      obtain ⟨i, q, -, rfl⟩ := h
      exact ⟨"measure", by decide, by simp⟩

/-- Two forms have no name in common. -/
theorem Form.eq_of_names {form other : Form} {name : String} (h : name ∈ form.names)
    (h' : name ∈ other.names) : other = form := by
  revert name
  cases form <;> cases other <;> decide

theorem Form.eq_of_fits {width : Nat} {form other : Form} {line : String} (h : form.Fits width line)
    (h' : other.Fits width line) : other = form := by
  obtain ⟨name, hname, hletters⟩ := letters_of_fits h
  obtain ⟨name', hname', hletters'⟩ := letters_of_fits h'
  have heq : name' = name := String.toList_inj.mp (hletters'.symm.trans hletters)
  exact eq_of_names hname (heq ▸ hname')

/-! ## Every statement is written in a form -/

/-- The form of a statement. -/
def Statement.form : Statement → Form
  | .fixed _ _ => .fixed
  | .rotation _ _ _ => .rotation
  | .cx _ _ => .cx
  | .cp _ _ _ => .cp
  | .swap _ _ => .swap
  | .measure _ => .measure

theorem index_repr {width q : Nat} (h : q < width) : Index width q.repr q := by
  refine ⟨?_, h⟩
  rw [Nat.toList_repr]
  exact writes_numeral q

theorem fits_text {width : Nat} {s : Statement} (h : s.Sound width) : s.form.Fits width s.text := by
  cases s with
  | fixed kind q =>
      refine ⟨kind.kind.name, by cases kind <;> decide, q.repr, q, index_repr h, ?_⟩
      simp [Statement.text, toString, String.append_assoc]
  | rotation axis radians q =>
      refine ⟨axis.kind.name, by cases axis <;> decide, Angle.radiansText radians,
        Angle.literal_radiansText h.1, q.repr, q, index_repr h.2, ?_⟩
      simp [Statement.text, toString, String.append_assoc]
  | cx control target =>
      refine ⟨control.repr, target.repr, control, target, index_repr h.2.1, index_repr h.2.2, h.1, ?_⟩
      simp [Statement.text, toString, String.append_assoc]
  | cp radians control target =>
      refine ⟨Angle.radiansText radians, Angle.literal_radiansText h.1, control.repr, target.repr,
        control, target, index_repr h.2.2.1, index_repr h.2.2.2, h.2.1, ?_⟩
      simp [Statement.text, toString, String.append_assoc]
  | swap a b =>
      refine ⟨a.repr, b.repr, a, b, index_repr h.2.1, index_repr h.2.2, h.1, ?_⟩
      simp [Statement.text, toString, String.append_assoc]
  | measure q =>
      refine ⟨q.repr, q, index_repr h, ?_⟩
      simp [Statement.text, toString, String.append_assoc]

/-! ## How many lines a body has -/

/-- A broadcast gate has a statement for each target, any other gate of a known kind has one. -/
theorem length_statements {g : Gate} (h : g.kind? ≠ none) :
    (statements g).length = if g.isBroadcast then g.targets.length else 1 := by
  cases g with
  | custom name qubits params => exact absurd rfl h
  | fixed kind targets => simp [statements, Gate.isBroadcast, Gate.targets]
  | rotation axis angle targets => simp [statements, Gate.isBroadcast, Gate.targets]
  | cx control target => rfl
  | cp theta control target => rfl
  | swap a b => rfl
  | measure targets => simp [statements, Gate.isBroadcast, Gate.targets]

theorem length_body {gates : List Gate} (h : ∀ g ∈ gates, g.kind? ≠ none) :
    (body gates).length =
      ((gates.filter Gate.isBroadcast).flatMap Gate.targets).length +
        (gates.filter fun g => !g.isBroadcast).length := by
  induction gates with
  | nil => rfl
  | cons g rest ih =>
      have hg := length_statements (h g List.mem_cons_self)
      have hrest := ih fun g' hg' => h g' (List.mem_cons_of_mem _ hg')
      rw [body] at hrest
      rw [body, List.flatMap_cons, List.length_append, hg, hrest]
      -- the first gate counts on one of the two sides only
      cases hb : g.isBroadcast with
      | true =>
          simp only [hb, List.filter_cons, List.flatMap_cons, List.length_append, if_true, Bool.not_true,
            Bool.false_eq_true, if_false]
          omega
      | false =>
          simp only [hb, List.filter_cons, List.length_cons, if_true, Bool.not_false,
            Bool.false_eq_true, if_false]
          omega

/-! ## Programs -/

/-- The program of a finished circuit declares two registers of its width and goes on with lines of one
form each, as many as the broadcast gates have targets and one for every other gate. -/
theorem program_wellFormed {c : Circuit} {text : String} (hc : c.Finished)
    (h : program c = .ok text) :
    ∃ rest : List String,
      text = String.join ((["OPENQASM 2.0;", "include \"qelib1.inc\";", "", s!"qreg q[{c.width}];",
        s!"creg c[{c.width}];", ""] ++ rest).map fun line => line ++ "\n") ∧
      (∀ line ∈ rest, '\n' ∉ line.toList ∧
        ∃ form : Form, form.Fits c.width line ∧
          ∀ other : Form, other.Fits c.width line → other = form) ∧
      rest.length = ((c.gates.filter Gate.isBroadcast).flatMap Gate.targets).length +
        (c.gates.filter fun g => !g.isBroadcast).length := by
  obtain ⟨hkinds, rfl⟩ := program_eq_ok_iff.mp h
  refine ⟨(body c.gates).map Statement.text, rfl, ?_, ?_⟩
  · intro line hline
    obtain ⟨s, hs, rfl⟩ := List.mem_map.mp hline
    have hsound := sound_of_mem_body hc hs
    -- the form of a line is told by its first word, so no other one fits
    refine ⟨newline_not_mem_text hsound, s.form, fits_text hsound, ?_⟩
    intro other hother
    exact Form.eq_of_fits (fits_text hsound) hother
  · rw [List.length_map]
    exact length_body hkinds

/-- Control: two Hadamard gates, a controlled phase and three measurements on three qubits are six
lines. -/
theorem program_wellFormed_six :
    ∃ (c : Circuit) (text : String) (rest : List String), c.Finished ∧ program c = .ok text ∧
      text = String.join ((header 3 ++ rest).map fun line => line ++ "\n") ∧
      (∀ line ∈ rest, ∃ form : Form, form.Fits 3 line) ∧ rest.length = 6 := by
  let c : Circuit := ⟨"demo", 3, [.fixed .h [0, 1], .cp .quarterPi 0 2, .measure [0, 1, 2]], []⟩
  have hc : c.Finished := ⟨_, [.push (.fixed .h [0, 1]), .cp .quarterPi 0 2, .measureAll], rfl, rfl⟩
  have htext : program c = .ok (document c) := program_eq_ok_iff.mpr ⟨by decide, rfl⟩
  obtain ⟨rest, hrest, hfits, hlength⟩ := program_wellFormed hc htext
  refine ⟨c, document c, rest, hc, htext, hrest, ?_, hlength⟩
  intro line hline
  obtain ⟨-, form, hform, -⟩ := hfits line hline
  exact ⟨form, hform⟩

end QCircuit.Qasm
