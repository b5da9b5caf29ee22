import QCircuit.Json.Reader
import QCircuit.Proofs.Json.Token

/-!
# Reading what the grammar allows

A tree reads as a value in which each string literal stands for what it denotes, if it denotes a string,
and each number literal for its value (`Json.Tree.reading`). The tokens of a tree take the reading machine
from before a value to after this value, whatever is open around it (`State.reads_tokens`), so every text of
the grammar is read, and as its tree reads (`readChars?_of_elementText`).
-/

set_option autoImplicit false

namespace QCircuit.Json

mutual

/-- What a tree is read as. -/
def Tree.reading : Tree → Reading
  | .null => .null
  | .bool value => .bool value
  | .number literal => literal.value
  | .string pieces => .str (denoted? pieces)
  | .array items => .arr (Tree.itemReadings items)
  | .object members => .obj (Tree.memberReadings members)

/-- What each item is read as. -/
def Tree.itemReadings : List Tree → List Reading
  | [] => []
  | item :: rest => item.reading :: Tree.itemReadings rest

/-- What each member is read as. -/
def Tree.memberReadings : List (List Piece × Tree) → List (Option String × Reading)
  | [] => []
  | (key, value) :: rest => (denoted? key, value.reading) :: Tree.memberReadings rest

end

/-- What a key with its value is read as. -/
def memberReading (member : List Piece × Tree) : Option String × Reading :=
  (denoted? member.1, member.2.reading)

theorem Tree.itemReadings_eq (items : List Tree) : itemReadings items = items.map reading := by
  induction items with
  | nil => rfl
  | cons item rest ih => rw [itemReadings, ih, List.map_cons]

theorem Tree.memberReadings_eq (members : List (List Piece × Tree)) :
    memberReadings members = members.map memberReading := by
  induction members with
  | nil => rfl
  | cons member rest ih =>
      rw [memberReadings, ih, List.map_cons]
      rfl

/-- The first of some rows stands in front. -/
theorem exists_joined_eq (row : List Token) (rows : List (List Token)) :
    ∃ more, joined (row :: rows) = row ++ more := by
  cases rows with
  | nil => exact ⟨[], (List.append_nil row).symm⟩
  | cons next rows => exact ⟨_, rfl⟩

namespace State

/-- The tokens take the machine from before a value to after the given one. -/
def Reads (tokens : List Token) (value : Reading) : Prop :=
  ∀ stack rest, run? (.beforeValue stack) (tokens ++ rest) = run? (.afterValue value stack) rest

/-- Right behind an opening bracket a first item is read like any other, as no value starts with a closing
bracket. -/
theorem run?_beforeFirstItem (tree : Tree) (stack : List Frame) (rest : List Token) :
    run? (.beforeFirstItem stack) (tree.tokens ++ rest) =
      run? (.beforeValue (.array [] :: stack)) (tree.tokens ++ rest) := by
  cases tree with
  | null => rfl
  | bool value => rfl
  | number literal => rfl
  | string pieces => rfl
  | array items => rfl
  | object members => rfl

/-- The items of an open array, one or more, and its closing bracket. -/
theorem run?_items {first : Tree} {items : List Tree} (hfirst : Reads first.tokens first.reading)
    (hitems : ∀ item ∈ items, Reads item.tokens item.reading) (read : List Reading)
    (stack : List Frame) (rest : List Token) :
    run? (.beforeValue (.array read :: stack))
        (joined ((first :: items).map Tree.tokens) ++ .closeArray :: rest) =
      run? (.afterValue (.arr (read.reverse ++ (first :: items).map Tree.reading)) stack) rest := by
  -- what has been read lies in the open frame in reverse
  induction items generalizing first read with
  | nil =>
      simp only [List.map_cons, List.map_nil, joined, hfirst _ _]
      simp [run?, step?]
  | cons next items ih =>
      obtain ⟨hnext, hmore⟩ := List.forall_mem_cons.mp hitems
      have hrest := ih hnext hmore (first.reading :: read)
      simp only [List.map_cons, joined, List.append_assoc, List.cons_append, hfirst _ _] at hrest ⊢
      simp [run?, step?, hrest]

/-- A key with its value in an open object. -/
theorem run?_member {member : List Piece × Tree} (h : Reads member.2.tokens member.2.reading)
    (read : List (Option String × Reading)) (stack : List Frame) (rest : List Token) :
    run? (.beforeKey read stack) (memberTokens member ++ rest) =
      run? (.afterValue member.2.reading (.object read (denoted? member.1) :: stack)) rest :=
  h (.object read (denoted? member.1) :: stack) rest

/-- The members of an open object, one or more, and its closing brace. -/
theorem run?_members {first : List Piece × Tree} {members : List (List Piece × Tree)}
    (hfirst : Reads first.2.tokens first.2.reading)
    (hmembers : ∀ member ∈ members, Reads member.2.tokens member.2.reading)
    (read : List (Option String × Reading)) (stack : List Frame) (rest : List Token) :
    run? (.beforeKey read stack)
        (joined ((first :: members).map memberTokens) ++ .closeObject :: rest) =
      run? (.afterValue (.obj (read.reverse ++ (first :: members).map memberReading)) stack) rest := by
  induction members generalizing first read with
  | nil =>
      simp only [List.map_cons, List.map_nil, joined, run?_member hfirst]
      simp [run?, step?, memberReading]
  | cons next members ih =>
      obtain ⟨hnext, hmore⟩ := List.forall_mem_cons.mp hmembers
      -- the first member joins those that were read, and the next one takes its place
      have hrest := ih hnext hmore (memberReading first :: read)
      simp only [List.map_cons, joined, List.append_assoc, List.cons_append,
        run?_member hfirst] at hrest ⊢
      simp only [memberReading] at hrest
      simp [run?, step?, hrest, memberReading]

/-- The tokens of a tree take the machine from before a value to after what the tree is read as. -/
theorem reads_tokens (tree : Tree) : Reads tree.tokens tree.reading := by
  -- over the tree, whatever stack is below: an item is read on top of the frame of its array
  induction tree with
  | null => exact fun stack rest => rfl
  | bool value => exact fun stack rest => rfl
  | number literal => exact fun stack rest => rfl
  | string pieces => exact fun stack rest => rfl
  | array items ih =>
      intro stack rest
      cases items with
      | nil => rfl
      | cons first items =>
          obtain ⟨hfirst, hitems⟩ := List.forall_mem_cons.mp ih
          have hread := run?_items hfirst hitems [] stack rest
          obtain ⟨more, hmore⟩ := exists_joined_eq first.tokens (items.map Tree.tokens)
          rw [List.map_cons, hmore, List.append_assoc, ← run?_beforeFirstItem, ← List.append_assoc,
            ← hmore] at hread
          simpa [Tree.tokens, Tree.itemTokens_eq, Tree.reading, Tree.itemReadings_eq, run?, step?,
            begin?] using hread
  | object members ih =>
      intro stack rest
      cases members with
      | nil => rfl
      | cons first members =>
          obtain ⟨hfirst, hmembers⟩ := List.forall_mem_cons.mp ih
          have hread := run?_members hfirst hmembers [] stack rest
          obtain ⟨more, hmore⟩ := exists_joined_eq (memberTokens first) (members.map memberTokens)
          -- the first key is taken right behind the brace as it is behind a comma
          have hkey : ∀ rest, run? (.beforeFirstKey stack) (memberTokens first ++ rest) =
              run? (.beforeKey [] stack) (memberTokens first ++ rest) := fun _ => rfl
          rw [List.map_cons, hmore, List.append_assoc, ← hkey, ← List.append_assoc, ← hmore] at hread
          simpa [Tree.tokens, Tree.memberTokens_eq, Tree.reading, Tree.memberReadings_eq, run?, step?,
            begin?] using hread

end State

/-- Every text of the grammar is read as its tree is. -/
theorem readChars?_of_elementText {tree : Tree} {text : List Char} (h : ElementText tree text) :
    readChars? text = some tree.reading := by
  have hrun := State.reads_tokens tree [] []
  rw [List.append_nil] at hrun
  simp [readChars?, Token.scan?_of_elementText h, hrun, State.run?, State.result?]

theorem read?_of_elementText {tree : Tree} {text : String} (h : ElementText tree text.toList) :
    read? text = some tree.reading := readChars?_of_elementText h

end QCircuit.Json
