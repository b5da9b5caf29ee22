import QCircuit.Proofs.Circuit.Depth
import QCircuit.Proofs.Circuit.Text
import QCircuit.Proofs.CommandLine.Stages
import QCircuit.Proofs.Generate.Width

/-!
# One circuit in three formats

A generation that goes through in one format goes through in all of them, and delivers its document on
standard output or in a file (`Generation.delivered`). Read as JSON, the report and the circuit agree in what
both of them say, the report quotes the program letter by letter, and its counts are those of the gates
that are read back from the circuit: how many there are, and how long their longest dependency chain is
(`documents_agree`, `Gate.ofReading?_tree`).
-/

set_option autoImplicit false

namespace QCircuit

/-! ## Gates that are read back -/

/-- The gate that a JSON value lists the parts of. -/
def Gate.ofReading? (reading : Json.Reading) : Option Gate := do
  let json ← Json.texts? reading
  let parts ← Parts.ofJson? json
  let kind ← GateKind.ofName? parts.name
  (ofParts kind parts.targets parts.control parts.params).toOption

/-- A valid gate of a known kind is read back from its object. -/
theorem Gate.ofReading?_tree {g : Gate} (hknown : g.kind? ≠ none) (hfault : g.fault? = none)
    (hplain : Json.Plain g.toJson) : ofReading? g.toJson.tree.reading = some g := by
  obtain ⟨kind, hkind⟩ := Option.ne_none_iff_exists'.mp hknown
  have hname : GateKind.ofName? g.name = some kind := by
    rw [name_of_kind? hkind]
    exact GateKind.ofName?_name kind
  simp [ofReading?, Json.reading_tree hplain, Json.texts?_asReading, parts_ofJson? hknown, hname,
    ofParts_parts hkind hfault, Except.toOption]

/-- A row whose things are read back is read back. -/
theorem mapM_map_eq_some {α β : Type} {write : α → β} {read : β → Option α} {row : List α}
    (h : ∀ a ∈ row, read (write a) = some a) : (row.map write).mapM read = some row := by
  induction row with
  | nil => rfl
  | cons a rest ih =>
      obtain ⟨ha, hrest⟩ := List.forall_mem_cons.mp h
      simp [ha, ih hrest]

namespace CommandLine

variable {files : Files} {freshSeed : UInt64} {g : Generation} {c : Circuit}

theorem Generates.finished (h : Generates files freshSeed g c) : c.Finished := by
  obtain ⟨-, -, hanswer⟩ := h
  obtain ⟨-, -, -, -, -, -, -, -, hfinished⟩ := Generate.makes_of_named_ok hanswer
  exact hfinished

/-- The settings widen a circuit to their own bound at most. -/
theorem Generates.width_le (h : Generates files freshSeed g c) : c.width ≤ 128 := by
  obtain ⟨-, -, hanswer⟩ := h
  obtain ⟨family, width, -, hbounded, -, -, hhigh, hmakes, -⟩ := Generate.makes_of_named_ok hanswer
  exact hmakes.width_le hbounded hhigh

/-- Every gate of a generation is read back from its object. -/
theorem Generates.ofReading?_tree (h : Generates files freshSeed g c) {gate : Gate}
    (hgate : gate ∈ c.gates) : Gate.ofReading? gate.toJson.tree.reading = some gate := by
  have hknown := h.kind?_ne_none gate hgate
  have hacceptable := h.finished.acceptable hgate
  have hwidth := h.width_le
  have hparams : gate.FiniteParams := by
    cases gate with
    | custom name qubits params => exact absurd rfl hknown
    | _ => trivial
  have hplain : Json.Plain gate.toJson :=
    Gate.within_toJson (fun q hq => ⟨by omega, by omega⟩) hacceptable hparams
  exact Gate.ofReading?_tree hknown (Gate.fault?_of_acceptable hacceptable) hplain

/-! ## Delivered documents -/

/-- The document that a run delivers: the file that it writes, or else what it prints. -/
def Outcome.delivered (outcome : Outcome) : String :=
  match outcome.written with
  | (_, content) :: _ => content
  | [] => outcome.stdout

/-- The document that a generation delivers when it is asked for a format. -/
def Generation.delivered (files : Files) (freshSeed : UInt64) (verbosity : Nat) (g : Generation)
    (format : Format) : String :=
  (Invocation.run files freshSeed ⟨verbosity, .generate { g with format := format }⟩).delivered

/-- A text as it is printed: a line feed ends it. -/
def lineEnded (text : String) : String :=
  if text.toList.getLast? = some '\n' then text else text ++ "\n"

theorem getLast?_join {ls : List String} (h : ls ≠ []) :
    (String.join (ls.map fun line => line ++ "\n")).toList.getLast? = some '\n' := by
  induction ls with
  | nil => exact absurd rfl h
  | cons line rest ih =>
      rw [List.map_cons, String.join_cons, String.toList_append]
      cases rest with
      | nil => simp
      | cons next rest =>
          have hlast := ih (List.cons_ne_nil _ _)
          rw [List.getLast?_append, hlast]
          rfl

/-- A program ends in a line feed already. -/
theorem lineEnded_document (c : Circuit) : lineEnded (Qasm.document c) = Qasm.document c := by
  have hlines : Qasm.lines c ≠ [] := List.cons_ne_nil _ _
  exact if_pos (getLast?_join hlines)

/-- A line feed behind a JSON text is a blank like any other. -/
theorem read?_lineEnded (value : Json String) :
    Json.read? (lineEnded value.indented) = some value.tree.reading := by
  unfold lineEnded
  split
  · exact Json.read?_indented value
  · have htext := (Json.valueText_tree Json.Spacing.blank_indented value 0).element
    have hnewline : Json.Blanks ['\n'] := List.forall_mem_singleton.mpr (.inr (.inr (.inl rfl)))
    have hread := Json.readChars?_of_elementText (htext.append_blanks hnewline)
    simpa [Json.read?, Json.indented] using hread

/-- What is delivered is the document, with a line feed behind it if it is printed. -/
theorem delivered_delivery (notes : List String) (c : Circuit) (text : String) (output : Option String) :
    (Run.outcome ⟨notes.map .note ++ delivery c text output, .ok ()⟩).delivered = text ∨
      (Run.outcome ⟨notes.map .note ++ delivery c text output, .ok ()⟩).delivered = lineEnded text := by
  rw [Run.outcome, Outcome.delivered, Outcome.written_notes, Outcome.stdout_notes]
  cases output with
  | none =>
      refine .inr ?_
      by_cases hended : text.toList.getLast? = some '\n'
      · rw [delivery, lineEnded, if_pos hended, if_pos hended]
        rfl
      · rw [delivery, lineEnded, if_neg hended, if_neg hended]
        rfl
  | some path => exact .inl rfl

/-- The format of a generation has a part in its document only. -/
theorem Generates.inFormat (h : Generates files freshSeed g c) (format : Format) :
    Generates files freshSeed { g with format := format } c := by
  obtain ⟨hproblem, hsettings, hanswer⟩ := h
  exact ⟨hproblem, hsettings, hanswer⟩

theorem delivered_cases (h : Generates files freshSeed g c) (hplace : files.takes g.output)
    (verbosity : Nat) {format : Format} {text : String} (htext : document format c = .ok text) :
    g.delivered files freshSeed verbosity format = text ∨
      g.delivered files freshSeed verbosity format = lineEnded text := by
  obtain ⟨text', htext', hdocument⟩ := documentOf_of_generates (h.inFormat format)
  obtain rfl : text = text' := Except.ok.inj (htext.symm.trans htext')
  rw [Generation.delivered, Invocation.run, Command.run, runGeneration_of_document hdocument,
    deliver_of_takes hplace]
  exact delivered_delivery _ c text g.output

/-! ## Members that are read -/

/-- The members of an object as they are read. -/
def readMembers (members : Json.Members) : List (Option String × Json.Reading) :=
  members.map fun member => (some member.1, member.2.tree.reading)

theorem lookup_readMembers (members : Json.Members) (key : String) :
    (readMembers members).lookup (some key) =
      (members.lookup key).map fun value => value.tree.reading := by
  induction members with
  | nil => rfl
  | cons member rest ih =>
      obtain ⟨name, value⟩ := member
      rw [readMembers, List.map_cons, List.lookup_cons, List.lookup_cons, Option.some_beq_some]
      cases key == name with
      | true => rfl
      | false => exact ih

/-- An object is read as its members, however its document is delivered. -/
theorem read?_delivered (h : Generates files freshSeed g c) (hplace : files.takes g.output)
    (verbosity : Nat) {format : Format} {members : Json.Members}
    (htext : document format c = .ok (Json.indented (.obj members))) :
    Json.read? (g.delivered files freshSeed verbosity format) = some (.obj (readMembers members)) := by
  have hreading : (Json.obj members).tree.reading = .obj (readMembers members) :=
    Json.reading_obj members
  rw [← hreading]
  rcases delivered_cases h hplace verbosity htext with hplain | hended
  · rw [hplain, Json.read?_indented]
  · rw [hended, read?_lineEnded]

/-- A number is read from a report as it is read from its numeral. -/
theorem read?_toString (n : Nat) : Json.read? (toString n) = some (Json.nat n).tree.reading := by
  rw [← Json.compact_nat, Json.read?_compact]

/-- The gates that are read back from the circuit that a generation delivers are its own. -/
theorem Generates.gates_eq (h : Generates files freshSeed g c) (hplace : files.takes g.output)
    (verbosity : Nat) {circuit : List (Option String × Json.Reading)} {items : List Json.Reading}
    {gates : List Gate}
    (hread : Json.read? (g.delivered files freshSeed verbosity .ir) = some (.obj circuit))
    (hitems : circuit.lookup (some "gates") = some (.arr items))
    (hgates : items.mapM Gate.ofReading? = some gates) : gates = c.gates := by
  have hcircuit : Json.read? (g.delivered files freshSeed verbosity .ir) = _ :=
    read?_delivered h hplace verbosity rfl
  rw [hread, Option.some_inj, Json.obj.injEq] at hcircuit
  rw [hcircuit, lookup_readMembers] at hitems
  have hlisted : items = c.gates.map fun gate => gate.toJson.tree.reading := by
    have hvalue : (Json.arr (c.gates.map Gate.toJson)).tree.reading = .arr items := Option.some.inj hitems
    rw [Json.reading_arr, Json.arr.injEq, List.map_map] at hvalue
    exact hvalue.symm
  rw [hlisted, mapM_map_eq_some fun gate hgate => h.ofReading?_tree hgate, Option.some_inj] at hgates
  exact hgates.symm

/-- **The three documents of a generation describe one circuit.** If the run succeeds in one format, it
succeeds in all of them. Then the report and the circuit are read as JSON objects with the same name, width
and metadata; the report holds the program letter by letter; and its counts are those of the gates that the
circuit lists, when these are read back: their number, and the depth, which is the length of their longest
dependency chain. A count is compared as the reader reads its numeral. -/
theorem documents_agree (files : Files) (freshSeed : UInt64) (verbosity : Nat) (g : Generation)
    (h : (Invocation.run files freshSeed ⟨verbosity, .generate g⟩).code = 0) :
    (∀ format,
      (Invocation.run files freshSeed ⟨verbosity, .generate { g with format := format }⟩).code = 0) ∧
    ∃ report circuit items gates depth,
      Json.read? (g.delivered files freshSeed verbosity .json) = some (.obj report) ∧
      Json.read? (g.delivered files freshSeed verbosity .ir) = some (.obj circuit) ∧
      report.lookup (some "qasm") =
        some (.str (some (g.delivered files freshSeed verbosity .qasm))) ∧
      (∀ key ∈ ["algorithm", "num_qubits", "metadata"], ∃ value,
        report.lookup (some key) = some value ∧ circuit.lookup (some key) = some value) ∧
      circuit.lookup (some "gates") = some (.arr items) ∧
      report.lookup (some "num_gates") = Json.read? (toString items.length) ∧
      items.mapM Gate.ofReading? = some gates ∧
      report.lookup (some "depth") = Json.read? (toString depth) ∧
      depth = (heightsOf gates).highest ∧
      IsGreatest {m | ∃ chain, DependencyChain (gates.flatMap Gate.operations) chain ∧ chain.length = m}
        depth := by
  have hends := run_cases files freshSeed verbosity (.generate g)
  rw [Invocation.run] at h
  rcases hends with ⟨hsucceeds, -⟩ | ⟨lines, -, hrun⟩ | ⟨lines, -, -, hrun⟩
  · cases hsucceeds with
    | @generate _ c hgenerates hplace =>
        have hprogram : document .qasm c = .ok (Qasm.document c) :=
          Qasm.program_eq_ok_iff.mpr ⟨hgenerates.kind?_ne_none, rfl⟩
        have hreport : document .json c = .ok (report c (Qasm.document c)).indented :=
          congrArg (Except.map _) hprogram
        have hqasm : g.delivered files freshSeed verbosity .qasm = Qasm.document c := by
          rcases delivered_cases hgenerates hplace verbosity hprogram with hplain | hended
          · exact hplain
          · rw [hended, lineEnded_document]
        -- the gates in the records are those of the circuit, whose heights tell the longest chain
        have hchains := isGreatest_highest fun gate hgate => hgenerates.finished.acceptable hgate
        refine ⟨fun format => code_of_generates (hgenerates.inFormat format) hplace verbosity,
          readMembers _, readMembers _, c.gates.map fun gate => gate.toJson.tree.reading, c.gates, c.depth,
          read?_delivered hgenerates hplace verbosity hreport,
          read?_delivered hgenerates hplace verbosity rfl, ?_, ?_, ?_, ?_, ?_, ?_, rfl, hchains⟩
        · -- the program in the report, byte for byte
          rw [lookup_readMembers, hqasm, ← Json.reading_str]
          rfl
        · simp [lookup_readMembers, List.lookup_cons]
        · rw [lookup_readMembers]
          simp [List.lookup_cons, Json.reading_arr]
        · rw [lookup_readMembers, List.length_map, read?_toString]
          rfl
        · exact mapM_map_eq_some fun gate hgate => hgenerates.ofReading?_tree hgate
        · rw [lookup_readMembers, read?_toString]
          rfl
  · -- a stage that fails, and a broken output, end with another code
    rw [hrun] at h
    cases h
  · rw [hrun] at h
    cases h

/-- Control: an ansatz with drawn angles, written to a file, and the depth of twenty-two that its report
says. -/
theorem documents_agree_ansatz :
    (Invocation.run ⟨fun _ => .missing, fun _ => true, true⟩ 7
      ⟨0, .generate ⟨"vqe", none, some 11, .ir, some "ansatz.json", none⟩⟩).code = 0 ∧
    ∃ report circuit items gates,
      Json.read? (Generation.delivered ⟨fun _ => .missing, fun _ => true, true⟩ 7 0
        ⟨"vqe", none, some 11, .ir, some "ansatz.json", none⟩ .json) = some (.obj report) ∧
      Json.read? (Generation.delivered ⟨fun _ => .missing, fun _ => true, true⟩ 7 0
        ⟨"vqe", none, some 11, .ir, some "ansatz.json", none⟩ .ir) = some (.obj circuit) ∧
      circuit.lookup (some "gates") = some (.arr items) ∧
      report.lookup (some "num_gates") = Json.read? (toString items.length) ∧
      items.mapM Gate.ofReading? = some gates ∧
      report.lookup (some "depth") = Json.read? "22" ∧
      IsGreatest {m | ∃ chain, DependencyChain (gates.flatMap Gate.operations) chain ∧ chain.length = m}
        22 := by
  have hanswer : ((answer 7 ⟨"vqe", none, some 11, .ir, some "ansatz.json", none⟩ .unknown .usual).map
      Circuit.depth).toOption = some 22 := by decide +kernel
  cases hc : answer 7 ⟨"vqe", none, some 11, .ir, some "ansatz.json", none⟩ .unknown .usual with
  | error error =>
      rw [hc] at hanswer
      cases hanswer
  | ok c =>
      rw [hc] at hanswer
      have hgenerates : Generates ⟨fun _ => .missing, fun _ => true, true⟩ 7
          ⟨"vqe", none, some 11, .ir, some "ansatz.json", none⟩ c := ⟨.none, .usual, hc⟩
      have hcode := code_of_generates hgenerates rfl 0
      obtain ⟨-, report, circuit, items, gates, depth, hreport, hcircuit, -, -, hitems, hcount, hgates,
        hdepth, hheight, hchains⟩ := documents_agree _ _ _ _ hcode
      have hnumber : depth = 22 := by
        rw [hheight, hgenerates.gates_eq rfl 0 hcircuit hitems hgates]
        exact Option.some.inj hanswer
      rw [hnumber] at hdepth hchains
      exact ⟨hcode, report, circuit, items, gates, hreport, hcircuit, hitems, hcount, hgates, hdepth, hchains⟩

end CommandLine

end QCircuit
