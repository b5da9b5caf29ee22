import Mathlib.Data.List.Basic
import QCircuit.Proofs.Circuit.Building
import QCircuit.Proofs.Gate.Record
import QCircuit.Proofs.Json.PrefixCode

/-!
# Circuits and their JSON texts

The JSON object of a record tells the record: each part has a place of its own, and a part that is left
out leaves no trace that another could leave (`Gate.Record.toJson_inj`). The record of a gate tells the gate
unless a custom gate borrows the name of a kind (`Gate.eq_of_record_eq`): a gate of a known kind is put
together again from its parts, and a custom gate is nothing but its record.

As written values are a prefix code, finished circuits with one JSON text are one circuit
(`Circuit.text_eq_iff`), provided that their custom gates have names of their own and that every word in
the text is finite; all other words would be written alike.
-/

set_option autoImplicit false

namespace QCircuit

namespace Gate

/-! ## Records -/

theorem Params.members_inj {params other : Params} (h : params.members = other.members) :
    params = other := by
  cases params with
  | absent =>
      cases other with
      | absent => rfl
      | named angle => cases h
      | positional values => cases h
  | named angle =>
      cases other with
      | absent => cases h
      | named angle' =>
          obtain ⟨name, value⟩ := angle
          obtain ⟨name', value'⟩ := angle'
          simp only [Params.members, List.cons.injEq, Prod.mk.injEq, Json.obj.injEq, Json.real.injEq,
            and_true, true_and] at h
          obtain ⟨hname, rfl⟩ := h
          -- the two names of an angle are told apart by their texts
          cases name <;> cases name' <;> first | rfl | exact absurd hname (by decide)
      | positional values => simp [Params.members] at h
  | positional values =>
      cases other with
      | absent => cases h
      | named angle => simp [Params.members] at h
      | positional values' =>
          simp only [Params.members, List.cons.injEq, Prod.mk.injEq, Json.arr.injEq, and_true,
            true_and] at h
          rw [List.map_injective_iff.mpr (fun _ _ => Json.real.inj) h]

/-- The member for a control qubit, if there is one. -/
def controlMembers (control : Option Qubit) : Json.Members :=
  match control with
  | some control => [("control", .nat control)]
  | none => []

/-- What stands behind the targets tells the control and the parameters. -/
theorem tail_inj {control control' : Option Qubit} {params params' : Params}
    (h : controlMembers control ++ params.members = controlMembers control' ++ params'.members) :
    control = control' ∧ params = params' := by
  -- the parameters never stand under the name of the control
  have hname : ∀ (params : Params) (q : Qubit) (rest : Json.Members),
      params.members ≠ ("control", Json.nat q) :: rest := by
    intro params q rest
    cases params <;> simp [Params.members]
  cases control with
  | none =>
      cases control' with
      | none => exact ⟨rfl, Params.members_inj h⟩
      | some q => exact absurd h (hname params q _)
  | some q =>
      cases control' with
      | none => exact absurd h.symm (hname params' q _)
      | some q' =>
          obtain ⟨hmember, hparams⟩ := List.cons.inj h
          have hq := Json.int.inj (Prod.mk.inj hmember).2
          exact ⟨by rw [Int.ofNat.inj hq], Params.members_inj hparams⟩

/-- The object of a record tells the record. -/
theorem Record.toJson_inj {r other : Record} (h : r.toJson = other.toJson) : r = other := by
  obtain ⟨name, targets, control, params⟩ := r
  obtain ⟨name', targets', control', params'⟩ := other
  obtain ⟨hname, hrest⟩ := List.cons.inj (Json.obj.inj h)
  obtain ⟨htargets, htail⟩ := List.cons.inj hrest
  have hmembers : controlMembers control ++ params.members =
      controlMembers control' ++ params'.members := htail
  obtain ⟨rfl, rfl⟩ := tail_inj hmembers
  have hnat : Function.Injective (Json.nat : Nat → Json String) :=
    fun _ _ hn => Int.ofNat.inj (Json.int.inj hn)
  obtain rfl : name = name' := Json.str.inj (Prod.mk.inj hname).2
  obtain rfl : targets = targets' :=
    List.map_injective_iff.mpr hnat (Json.arr.inj (Prod.mk.inj htargets).2)
  rfl

/-! ## Gates -/

variable {g other : Gate}

/-- Custom gates have names of their own. -/
def OwnName (g : Gate) : Prop := g.kind? = none → ∀ kind : GateKind, g.name ≠ kind.name

theorem name_injective {kind kind' : GateKind} (h : kind.name = kind'.name) : kind = kind' := by
  have hfound := GateKind.ofName?_name kind
  rw [h, GateKind.ofName?_name] at hfound
  exact (Option.some.inj hfound).symm

/-- A custom gate is its record. -/
theorem eq_of_record_eq_custom (h : g.kind? = none) (h' : other.kind? = none)
    (hrecord : g.record = other.record) : g = other := by
  cases g with
  | custom name qubits params =>
      cases other with
      | custom name' qubits' params' =>
          simp only [record, Record.mk.injEq] at hrecord
          obtain ⟨hname, htargets, -, hparams⟩ := hrecord
          obtain rfl : name = name' := hname
          obtain rfl : qubits = qubits' := htargets
          cases params <;> cases params' <;> cases hparams <;> rfl
      | _ => cases h'
  | _ => cases h

/-- Valid gates with one record are one gate, unless a custom one has the name of a kind. -/
theorem eq_of_record_eq (hown : g.OwnName) (hown' : other.OwnName) (hfault : g.fault? = none)
    (hfault' : other.fault? = none) (hrecord : g.record = other.record) : g = other := by
  have hname : g.name = other.name := congrArg Record.name hrecord
  cases hkind : g.kind? with
  | none =>
      cases hkind' : other.kind? with
      | none => exact eq_of_record_eq_custom hkind hkind' hrecord
      | some kind => exact absurd (hname.trans (name_of_kind? hkind')) (hown hkind kind)
  | some kind =>
      cases hkind' : other.kind? with
      | none => exact absurd (hname.symm.trans (name_of_kind? hkind)) (hown' hkind' kind)
      | some kind' =>
          -- both gates are put together from the same parts
          obtain rfl : kind = kind' := by
            rw [name_of_kind? hkind, name_of_kind? hkind'] at hname
            exact name_injective hname
          have htargets : g.targets = other.targets := congrArg Record.targets hrecord
          have hcontrol : g.control? = other.control? := congrArg Record.control hrecord
          have hparams : g.params = other.params := congrArg Record.params hrecord
          have hangles : g.angles = other.angles := by rw [angles, angles, hparams]
          have hmade := ofParts_parts hkind hfault
          rw [htargets, hcontrol, hangles, ofParts_parts hkind' hfault'] at hmade
          exact (Except.ok.inj hmade).symm

/-- Rows of such gates with the same objects are one row. -/
theorem eq_of_map_toJson_eq {row others : List Gate} (h : ∀ g ∈ row, g.OwnName ∧ g.fault? = none)
    (h' : ∀ g ∈ others, g.OwnName ∧ g.fault? = none) (hmap : row.map toJson = others.map toJson) :
    row = others := by
  induction row generalizing others with
  | nil => exact (List.map_eq_nil_iff.mp hmap.symm).symm
  | cons g row ih =>
      obtain ⟨other, others, rfl, hobject, hmore⟩ := List.map_eq_cons_iff.mp hmap.symm
      obtain ⟨⟨hown, hfault⟩, hrow⟩ := List.forall_mem_cons.mp h
      obtain ⟨⟨hown', hfault'⟩, hothers⟩ := List.forall_mem_cons.mp h'
      have hgate := eq_of_record_eq hown hown' hfault hfault' (Record.toJson_inj hobject.symm)
      rw [hgate, ih hrow hothers hmore.symm]

theorem fault?_of_acceptable {width : Nat} (h : g.Acceptable width) : g.fault? = none := by
  have hnone := faultIn?_eq_none_iff.mpr h
  rw [faultIn?, Option.or_eq_none_iff] at hnone
  exact hnone.1

/-- The parameters of a custom gate are finite. -/
def FiniteParams : Gate → Prop
  | .custom _ _ params => ∀ x ∈ params, x.isFinite
  | _ => True

/-- An acceptable gate is written with finite words, if the parameters of a custom gate are finite, and
with its qubits as whole numbers. -/
theorem within_toJson {range : Int → Prop} {width : Nat} (hrange : ∀ q < width, range q)
    (h : g.Acceptable width) (hparams : g.FiniteParams) : Json.Within range g.toJson := by
  have hqubits : ∀ q ∈ g.qubits, range q := fun q hq => hrange q (lt_of_acceptable h hq)
  obtain ⟨hcontrol, htargets⟩ := List.forall_mem_append.mp hqubits
  -- the angles and parameters are real numbers, on which the range puts no bound
  have hmembers : ∀ member ∈ g.params.members, Json.Within range member.2 := by
    cases g with
    | rotation axis angle targets =>
        exact List.forall_mem_singleton.mpr (.obj (List.forall_mem_singleton.mpr (.real h.1)))
    | cp theta control target =>
        exact List.forall_mem_singleton.mpr (.obj (List.forall_mem_singleton.mpr (.real h.1)))
    | custom name qubits params =>
        cases params with
        | nil => simp [params, Params.members]
        | cons x params =>
            have hreals : ∀ item ∈ (x :: params).map Json.real, Json.Within range item :=
              List.forall_mem_map.mpr fun y hy => .real (hparams y hy)
            exact List.forall_mem_singleton.mpr (.arr hreals)
    | _ => simp [params, Params.members]
  refine .obj (List.forall_mem_append.mpr ⟨List.forall_mem_append.mpr ⟨?_, ?_⟩, hmembers⟩)
  · refine List.forall_mem_cons.mpr ⟨.str _, List.forall_mem_singleton.mpr (.arr ?_)⟩
    exact List.forall_mem_map.mpr fun q hq => .int (htargets q hq)
  · show ∀ member ∈ controlMembers g.control?, Json.Within range member.2
    cases hc : g.control? with
    | none => simp [controlMembers]
    | some q =>
        rw [hc] at hcontrol
        exact List.forall_mem_singleton.mpr (.int (hcontrol q (by simp)))

end Gate

/-! ## Circuits -/

namespace Circuit

/-- What is written of a circuit tells its parts apart: custom gates have names of their own, and all
words in the parameters of custom gates and in the metadata are finite. -/
structure Legible (c : Circuit) : Prop where
  names : ∀ g ∈ c.gates, g.OwnName
  params : ∀ g ∈ c.gates, g.FiniteParams
  metadata : ∀ member ∈ c.metadata, Json.FiniteReals member.2

variable {c d : Circuit}

theorem finiteReals_toJson (hc : c.Finished) (h : c.Legible) : Json.FiniteReals c.toJson := by
  have hgates : ∀ item ∈ c.gates.map Gate.toJson, Json.FiniteReals item :=
    List.forall_mem_map.mpr fun g hg =>
      Gate.within_toJson (fun _ _ => trivial) (hc.acceptable hg) (h.params g hg)
  refine .obj ?_
  simp only [List.forall_mem_cons, List.not_mem_nil, false_implies, implies_true, and_true]
  exact ⟨.str _, .int trivial, .arr hgates, .obj h.metadata⟩

/-- Finished circuits with one JSON object are one circuit. -/
theorem eq_of_toJson_eq (hc : c.Finished) (hd : d.Finished) (hlc : c.Legible) (hld : d.Legible)
    (h : c.toJson = d.toJson) : c = d := by
  obtain ⟨algorithm, width, gates, metadata⟩ := c
  obtain ⟨algorithm', width', gates', metadata'⟩ := d
  simp only [toJson, Json.obj.injEq, List.cons.injEq, Prod.mk.injEq, Json.str.injEq, Json.nat,
    Json.int.injEq, Json.arr.injEq, true_and, and_true] at h
  obtain ⟨rfl, hwidth, hgates, rfl⟩ := h
  obtain rfl : width = width' := Int.ofNat.inj hwidth
  obtain rfl : gates = gates' := Gate.eq_of_map_toJson_eq
    (fun g hg => ⟨hlc.names g hg, Gate.fault?_of_acceptable (hc.acceptable hg)⟩)
    (fun g hg => ⟨hld.names g hg, Gate.fault?_of_acceptable (hd.acceptable hg)⟩) hgates
  rfl

/-- **Finished circuits with one JSON text are one circuit**, whether the text stands on one line or on
several: the same name and width, the same gates in the same order with the same operands, names and bits
of their angles, and the same metadata in the same order. Custom gates have names of their own, and all
words are finite. -/
theorem text_eq_iff (hc : c.Finished) (hd : d.Finished) (hlc : c.Legible) (hld : d.Legible) :
    (Json.compact c.toJson = Json.compact d.toJson ↔ c = d) ∧
      (Json.indented c.toJson = Json.indented d.toJson ↔ c = d) := by
  have hfc := finiteReals_toJson hc hlc
  have hfd := finiteReals_toJson hd hld
  constructor
  · constructor
    · intro htext
      exact eq_of_toJson_eq hc hd hlc hld (Json.compact_inj hfc hfd htext)
    · rintro rfl
      rfl
  · constructor
    · intro htext
      exact eq_of_toJson_eq hc hd hlc hld (Json.indented_inj hfc hfd htext)
    · rintro rfl
      rfl

/-- Control: two circuits of one custom gate, with zero or with negative zero for a parameter, have
different texts. -/
theorem text_eq_iff_zeros :
    ∃ c d : Circuit, c.Finished ∧ d.Finished ∧ c.Legible ∧ d.Legible ∧
      c.gates = [.custom "u" [0] [.zero false]] ∧ d.gates = [.custom "u" [0] [.zero true]] ∧
      Json.compact c.toJson ≠ Json.compact d.toJson := by
  have hfinished : ∀ x : Binary64, Circuit.Finished ⟨"demo", 1, [.custom "u" [0] [x]], []⟩ :=
    fun x => ⟨_, [.custom "u" [0] [x]], rfl, rfl⟩
  have hlegible : ∀ x : Binary64, x.isFinite → Circuit.Legible ⟨"demo", 1, [.custom "u" [0] [x]], []⟩ := by
    intro x hx
    refine ⟨List.forall_mem_singleton.mpr ?_, List.forall_mem_singleton.mpr ?_, by simp⟩
    · intro _ kind
      show "u" ≠ kind.name
      cases kind <;> decide
    · exact List.forall_mem_singleton.mpr hx
  have hplus := hlegible (.zero false) rfl
  have hminus := hlegible (.zero true) rfl
  refine ⟨_, _, hfinished (.zero false), hfinished (.zero true), hplus, hminus, rfl, rfl, ?_⟩
  intro htext
  have heq := (text_eq_iff (hfinished _) (hfinished _) hplus hminus).1.mp htext
  have hgates := congrArg Circuit.gates heq
  revert hgates
  decide

end Circuit

end QCircuit
