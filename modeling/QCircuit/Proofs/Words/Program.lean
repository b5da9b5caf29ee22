import QCircuit.Draw
import QCircuit.Generate.Error
import QCircuit.Proofs.Generate.Gates
import QCircuit.Proofs.Words.Checked

/-!
# Programs that compute on words

A program appends gates to a circuit under construction, draws angles and computes on words as it goes
along (`Word.Program`). It gets stuck where an operation on words is without a result, and nothing comes
of it then; a gate that is refused ends it with an error.

What is proved of a program is which gates it lays out (`Word.Program.Lays`): if all of these are acceptable
on the register, it comes to its end, having appended just them. There is one rule for each thing that a
program does, and two for loops. A circuit that such a program makes is the one that is built of the gates,
be the last one acceptable or not (`Word.Program.make_eq`).
-/

set_option autoImplicit false

namespace QCircuit.Word

/-- A program on a circuit under construction and a source with states of type `σ`. -/
abbrev Program (σ : Type) : Type → Type := StateT Builder (ExceptT GenerationError (StateT σ Option))

namespace Program

variable {σ α β ι : Type}

/-- The result of an operation on words; without one the program is stuck. -/
def checked (result : Option α) : Program σ α := fun b s => result.map fun a => (.ok (a, b), s)

/-- What comes of an input that is judged on words. -/
def judged (answer : Option (Except InputFault α)) : Program σ α :=
  fun b s => answer.map fun answer => ((answer.mapError .invalidInput).map fun a => (a, b), s)

/-- Appends a gate. -/
def append (g : Gate) : Program σ Unit :=
  fun b s => some (((b.push g).1.mapError .circuit).map fun _ => ((), (b.push g).2), s)

/-- Draws an angle. -/
def draw (source : AngleSource σ) : Program σ Binary64 :=
  fun b s => some (.ok ((source.draw s).1, b), (source.draw s).2)

/-- The circuit that a program makes on a register, with the metadata that it ends with. -/
def make (title : String) (width : Nat) (program : Program σ Json.Members) (s : σ) :
    Option (Except GenerationError Circuit × σ) :=
  match Builder.start title width with
  | .error e => some (.error (.circuit e), s)
  | .ok b => (program b s).map fun (answer, s) =>
      (answer.map fun (entries, b) => (b.describeAll entries).finish, s)

theorem bind_apply (p : Program σ α) (f : α → Program σ β) (b : Builder) (s : σ) :
    (p >>= f) b s = (p b s).bind fun
      | (.ok (a, b), s) => f a b s
      | (.error e, s) => some (.error e, s) := by
  have hbind : (p >>= f) b s =
      (p b s).bind fun r => ExceptT.bindCont (fun (a, b) => f a b) r.1 r.2 := rfl
  rw [hbind]
  congr 1
  funext r
  obtain ⟨answer, s⟩ := r
  cases answer <;> rfl

/-! ## What a program lays out -/

/-- From a state of the source on, the program appends just these gates, gives the value and leaves the
source in the other state, provided that all of the gates are acceptable. -/
def Lays (program : Program σ α) (s : σ) (gates : List Gate) (a : α) (s' : σ) : Prop :=
  ∀ b : Builder, AllAcceptable b.width gates →
    program b s = some (.ok (a, { b with gates := b.gates ++ gates.toArray }), s')

variable {p : Program σ α} {s t u : σ} {a : α} {c : β} {before after gates : List Gate}

theorem lays_pure (a : α) (s : σ) : Lays (pure a : Program σ α) s [] a s := by
  intro b _
  rw [Array.append_empty]
  rfl

theorem lays_append (g : Gate) (s : σ) : Lays (append g) s [g] () s := by
  intro b hall
  rw [append, Builder.push_of_acceptable (List.forall_mem_singleton.mp hall)]
  rfl

theorem lays_draw (source : AngleSource σ) (s : σ) :
    Lays (draw source) s [] (source.draw s).1 (source.draw s).2 := by
  intro b _
  rw [Array.append_empty]
  rfl

/-- One program after another lays out the gates of both. -/
theorem Lays.bind {f : α → Program σ β} (hp : Lays p s before a t) (hf : Lays (f a) t after c u) :
    Lays (p >>= f) s (before ++ after) c u := by
  intro b hall
  obtain ⟨hbefore, hafter⟩ := List.forall_mem_append.mp hall
  have hrest := hf { b with gates := b.gates ++ before.toArray } hafter
  rw [bind_apply, hp b hbefore, Option.bind_some]
  simpa only [List.append_toArray, Array.append_assoc] using hrest

/-- An operation on words that has a result lays out nothing. -/
theorem Lays.after_checked {x : Option α} {f : α → Program σ β} (hx : x = some a)
    (hf : Lays (f a) s gates c t) : Lays (checked x >>= f) s gates c t := by
  intro b hall
  rw [bind_apply, hx]
  exact hf b hall

/-- A draw lays out nothing. -/
theorem Lays.after_draw {source : AngleSource σ} {f : Binary64 → Program σ β}
    (hf : Lays (f (source.draw s).1) (source.draw s).2 gates c t) :
    Lays (draw source >>= f) s gates c t := (lays_draw source s).bind hf

/-! ## Loops -/

/-- A loop lays out what its body does for one item after another. -/
theorem lays_forM (row : List ι) {body : ι → Program σ Unit} {laid : ι → List Gate}
    (h : ∀ item ∈ row, Lays (body item) s (laid item) () s) :
    Lays (row.forM body) s (row.flatMap laid) () s := by
  induction row with
  | nil => exact lays_pure () s
  | cons item rest ih =>
      obtain ⟨hitem, hrest⟩ := List.forall_mem_cons.mp h
      exact hitem.bind (ih hrest)

/-- The rest of a loop over words that follow one another, from some number on. The body may draw, and
then the source is in another state before each number. -/
theorem lays_forM_from {count : Nat} {body : UInt32 → Program σ Unit} {laid : Nat → List Gate}
    {states : Nat → σ}
    (h : ∀ i : UInt32, i.toNat < count →
      Lays (body i) (states i.toNat) (laid i.toNat) () (states (i.toNat + 1)))
    (row : List UInt32) (first : Nat) (hrow : row.map UInt32.toNat = List.range' first row.length)
    (hend : first + row.length = count) :
    Lays (row.forM body) (states first) ((List.range' first row.length).flatMap laid) ()
      (states count) := by
  induction row generalizing first with
  | nil =>
      rw [← hend]
      exact lays_pure () _
  | cons i rest ih =>
      -- the first word is the number that the loop has come to
      rw [List.map_cons, List.length_cons, List.range'_succ, List.cons.injEq] at hrow
      obtain ⟨rfl, hrow⟩ := hrow
      rw [List.length_cons] at hend
      have hitem := h i (by omega)
      have hrest := ih (i.toNat + 1) hrow (by omega)
      exact hitem.bind hrest

/-- A loop up to a word runs through the numbers below it. -/
theorem lays_forM_below {n : UInt32} {body : UInt32 → Program σ Unit} {laid : Nat → List Gate}
    (states : Nat → σ)
    (h : ∀ i : UInt32, i.toNat < n.toNat →
      Lays (body i) (states i.toNat) (laid i.toNat) () (states (i.toNat + 1))) :
    Lays ((below n).forM body) (states 0) ((List.range n.toNat).flatMap laid) () (states n.toNat) := by
  have hrow : (below n).map UInt32.toNat = List.range' 0 (below n).length := by
    rw [map_toNat_below, length_below, List.range_eq_range']
  have hend : 0 + (below n).length = n.toNat := by rw [length_below, Nat.zero_add]
  have hall := lays_forM_from h (below n) 0 hrow hend
  rwa [length_below, ← List.range_eq_range'] at hall

/-- A loop up to a word whose body leaves the source alone. -/
theorem lays_count {n : UInt32} {body : UInt32 → Program σ Unit} {laid : Nat → List Gate}
    (h : ∀ i : UInt32, i.toNat < n.toNat → Lays (body i) s (laid i.toNat) () s) :
    Lays ((below n).forM body) s ((List.range n.toNat).flatMap laid) () s :=
  lays_forM_below (fun _ => s) h

/-- A loop up to a word that appends a gate for each number. -/
theorem lays_appends {n : UInt32} {body : UInt32 → Program σ Unit} {gate : Nat → Gate}
    (h : ∀ i : UInt32, i.toNat < n.toNat → Lays (body i) s [gate i.toNat] () s) :
    Lays ((below n).forM body) s ((List.range n.toNat).map gate) () s := by
  rw [List.map_eq_flatMap]
  exact lays_count h

theorem lays_hadamards (n : UInt32) (s : σ) :
    Lays ((below n).forM fun i => append (.h i.toNat)) s ((List.range n.toNat).map .h) () s := by
  apply lays_appends
  intro i _
  exact lays_append _ s

/-! ## Circuits -/

/-- A register without qubits is refused before the program is started. -/
theorem make_zero (title : String) (program : Program σ Json.Members) (s : σ) :
    make title 0 program s = some (.error (.circuit (.zeroQubits title)), s) := rfl

/-- A register with a qubit is started on, and then an input with a fault is refused. -/
theorem make_of_fault {title : String} {width : Nat} {fault : InputFault}
    (f : α → Program σ Json.Members) (hw : 0 < width) (s : σ) :
    make title width (judged (some (.error fault)) >>= f) s = some (.error (.invalidInput fault), s) := by
  rw [make, Builder.start_of_pos title hw]
  rfl

/-- An input without a fault is what the program goes on with. -/
theorem judged_ok_bind (a : α) (f : α → Program σ β) : judged (some (.ok a)) >>= f = f a := rfl

/-- A program that ends with one more gate after those that it lays out makes the circuit of them all, or
what comes of it if the last gate is refused. -/
theorem make_eq {title : String} {width : Nat} {last : Gate} {body : Program σ Unit}
    {program : Program σ Json.Members} {entries : Json.Members} (hw : 0 < width)
    (hall : AllAcceptable width gates) (hbody : Lays body s gates () t)
    (hend : Lays program t [] entries t) :
    make title width (do body; append last; program) s =
      some ((Circuit.build title width (gates ++ [last]) entries).mapError .circuit, t) := by
  have hrun := hbody ⟨title, width, #[], []⟩ hall
  rw [make, Builder.start_of_pos title hw, Circuit.build_concat title last entries hw hall]
  simp only [bind_apply, hrun, Option.bind_some, append]
  -- both now hang on the last gate alone
  obtain ⟨answer, b⟩ := Builder.push ⟨title, width, #[] ++ gates.toArray, []⟩ last
  cases answer with
  | error e => rfl
  | ok done =>
      have hnone : AllAcceptable b.width [] := fun g hg => (List.not_mem_nil hg).elim
      have hrest := hend b hnone
      rw [Array.append_empty] at hrest
      simp only [Except.mapError, Except.map, hrest]
      rfl

end Program

end QCircuit.Word
