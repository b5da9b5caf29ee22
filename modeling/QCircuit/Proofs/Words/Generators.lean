import QCircuit.Proofs.Draw.Stream
import QCircuit.Proofs.Generate.Answer
import QCircuit.Proofs.Words.Graph
import QCircuit.Proofs.Words.Program

/-!
# The generators on words

Four generators as programs that compute on words: every index, every count and every difference is a word
of 32 bits, and the number of parameters of an eigensolver one of 64. On every register with a qubit, the
greatest included, each loop lays out the gates that the generator has for it, and no operation is without
a result: a last qubit is only asked for where there is one (`Grover.lays_wordFan`), the targets follow the
controls within the register (`Shor.lays_wordEntangle`), and a difference of two qubits is taken from the
greater one (`Shor.lays_wordReversal`, `Shor.lays_wordTransform`). A register without qubits is refused
before anything is computed on it. So the programs give what the generators give (`Grover.wordCircuit_eq`
and its like).
-/

set_option autoImplicit false

namespace QCircuit

open Word.Program

variable {σ : Type} {width : UInt32}

/-- The last qubit of a register that has one. -/
theorem Word.exists_last {n : UInt32} (hn : 0 < n.toNat) :
    ∃ last, Word.sub? n 1 = some last ∧ last.toNat = n.toNat - 1 := Word.exists_sub? hn

/-! ## Searches -/

namespace Grover

/-- Every qubit but the last controls the last. -/
def wordFan (width : UInt32) : Word.Program σ Unit := do
  let last ← checked (Word.sub? width 1)
  let count ← checked (Word.sub? width 1)
  (Word.below count).forM fun i => append (.cx i.toNat last.toNat)

/-- Marks the state that is searched for. -/
def wordOracle (width : UInt32) : Word.Program σ Unit := do
  let last ← checked (Word.sub? width 1)
  append (.x last.toNat)
  wordFan width
  append (.x last.toNat)

/-- Reflects about the mean. -/
def wordDiffusion (width : UInt32) : Word.Program σ Unit := do
  (Word.below width).forM fun i => do
    append (.h i.toNat)
    append (.x i.toNat)
  wordFan width
  (Word.below width).forM fun i => do
    append (.x i.toNat)
    append (.h i.toNat)

/-- The gates of some rounds, after all qubits are put in superposition. -/
def wordGates (width : UInt32) (rounds : Nat) : Word.Program σ Unit := do
  (Word.below width).forM fun i => append (.h i.toNat)
  (List.range rounds).forM fun _ => do
    wordOracle width
    wordDiffusion width

/-- The circuit of a width. -/
def wordCircuit (width : UInt32) (settings : Settings) : σ → Option (Except GenerationError Circuit × σ) :=
  make Family.grover.title width.toNat do
    wordGates width (appliedIterations width.toNat settings)
    append (.measure ((Word.below width).map UInt32.toNat))
    pure (metadata width.toNat settings)

theorem lays_wordFan (hw : 0 < width.toNat) (s : σ) :
    Lays (wordFan width) s (fan width.toNat) () s := by
  obtain ⟨last, hlast, hnat⟩ := Word.exists_last hw
  rw [fan, ← hnat]
  -- the last qubit is found twice, once as the target and once as the end of the loop
  refine .after_checked hlast (.after_checked hlast ?_)
  apply lays_appends
  intro i _
  exact lays_append _ s

theorem lays_wordOracle (hw : 0 < width.toNat) (s : σ) :
    Lays (wordOracle width) s (oracle width.toNat) () s := by
  obtain ⟨last, hlast, hnat⟩ := Word.exists_last hw
  rw [oracle, ← hnat]
  have hmark := lays_append (.x last.toNat) s
  exact .after_checked hlast (hmark.bind ((lays_wordFan hw s).bind hmark))

theorem lays_wordDiffusion (hw : 0 < width.toNat) (s : σ) :
    Lays (wordDiffusion width) s (diffusion width.toNat) () s := by
  rw [diffusion, List.append_assoc]
  refine Lays.bind (a := ()) ?_ ((lays_wordFan hw s).bind ?_)
  · apply lays_count
    intro i _
    exact (lays_append (.h i.toNat) s).bind (lays_append (.x i.toNat) s)
  · apply lays_count
    intro i _
    exact (lays_append (.x i.toNat) s).bind (lays_append (.h i.toNat) s)

theorem lays_wordGates (hw : 0 < width.toNat) (rounds : Nat) (s : σ) :
    Lays (wordGates width rounds) s
      ((List.range width.toNat).map .h ++ (List.replicate rounds (round width.toNat)).flatten) () s := by
  have hround : Lays (do wordOracle width; wordDiffusion width) s (round width.toNat) () s :=
    (lays_wordOracle hw s).bind (lays_wordDiffusion hw s)
  have hrounds := lays_forM (List.range rounds) fun _ _ => hround
  rw [List.flatMap_def, List.map_const', List.length_range] at hrounds
  exact (lays_hadamards width s).bind hrounds

/-- On words a search is the search on numbers. -/
theorem wordCircuit_eq (width : UInt32) (settings : Settings) (s : σ) :
    wordCircuit width settings s = some ((circuit width.toNat settings).mapError .circuit, s) := by
  rcases Nat.eq_zero_or_pos width.toNat with hzero | hw
  · rw [wordCircuit, hzero, make_zero]
    rfl
  · have hall := allAcceptable_gates hw (appliedIterations width.toNat settings)
    obtain ⟨hbefore, -⟩ := List.forall_mem_append.mp hall
    rw [wordCircuit, Word.map_toNat_below]
    exact make_eq hw hbefore (lays_wordGates hw _ s) (lays_pure _ s)

end Grover

/-! ## Period finding -/

namespace Shor

/-- Every control qubit controls every target qubit. -/
def wordEntangle (controls targets : UInt32) : Word.Program σ Unit :=
  (Word.below controls).forM fun i =>
    (Word.below targets).forM fun j => do
      let target ← checked (Word.add? controls j)
      append (.cx i.toNat target.toNat)

/-- Reverses the order of the first qubits. -/
def wordReversal (count : UInt32) : Word.Program σ Unit :=
  (Word.below (count / 2)).forM fun i => do
    let last ← checked (Word.sub? count 1)
    let mirror ← checked (Word.sub? last i)
    append (.swap i.toNat mirror.toNat)

/-- The inverse Fourier transform of one qubit, controlled by those before it. -/
def wordTransform (i : UInt32) : Word.Program σ Unit := do
  append (.h i.toNat)
  (Word.below i).forM fun j => do
    let places ← checked (Word.sub? i j)
    append (.cp (Binary64.pi.negDivTwoPow places.toNat) j.toNat i.toNat)

/-- The gates up to the measurement. -/
def wordGates (controls targets : UInt32) : Word.Program σ Unit := do
  (Word.below controls).forM fun i => append (.h i.toNat)
  wordEntangle controls targets
  wordReversal controls
  (Word.below controls).forM wordTransform

/-- What is done on a register of some width. -/
def wordCircuitOn (width : UInt32) (s : σ) : Option (Except GenerationError Circuit × σ) := do
  let controls := width / 2
  let targets ← Word.sub? width controls
  make Family.shor.title width.toNat (do
    wordGates controls targets
    append (.measure ((Word.below controls).map UInt32.toNat))
    pure (metadata width.toNat)) s

/-- The circuit for a width. -/
def wordCircuit (width : UInt32) (settings : Settings) (s : σ) :
    Option (Except GenerationError Circuit × σ) := wordCircuitOn (max width settings.shorMinQubits) s

theorem lays_wordEntangle {controls targets : UInt32}
    (hsum : controls.toNat + targets.toNat = width.toNat) (s : σ) :
    Lays (wordEntangle controls targets) s
      ((List.range controls.toNat).flatMap fun i => (List.range targets.toNat).map fun j =>
        .cx i (controls.toNat + j)) () s := by
  apply lays_count
  intro i _
  apply lays_appends
  intro j hj
  -- a target is a qubit of the register, so its number is a word
  have hwidth := width.toNat_lt
  obtain ⟨target, htarget, hnat⟩ := Word.exists_add? (a := controls) (b := j) (by omega)
  rw [← hnat]
  exact .after_checked htarget (lays_append _ s)

theorem lays_wordReversal (count : UInt32) (s : σ) :
    Lays (wordReversal count) s (reversal count.toNat) () s := by
  have hhalf : (count / 2).toNat = count.toNat / 2 := UInt32.toNat_div count 2
  rw [reversal, ← hhalf]
  apply lays_appends
  intro i hi
  -- there is a qubit in the lower half, so there is a last one, and the qubit is before it
  obtain ⟨last, hlast, hnat⟩ := Word.exists_last (n := count) (by omega)
  obtain ⟨mirror, hmirror, hmirrorNat⟩ := Word.exists_sub? (a := last) (b := i) (by omega)
  rw [← hnat, ← hmirrorNat]
  exact .after_checked hlast (.after_checked hmirror (lays_append _ s))

theorem lays_wordTransform (i : UInt32) (s : σ) :
    Lays (wordTransform i) s (transform i.toNat) () s := by
  refine (lays_append (.h i.toNat) s).bind ?_
  apply lays_appends
  intro j hj
  obtain ⟨places, hplaces, hnat⟩ := Word.exists_sub? (a := i) (b := j) (Nat.le_of_lt hj)
  rw [phase, ← hnat]
  exact .after_checked hplaces (lays_append _ s)

theorem lays_wordGates {controls targets : UInt32} (hcontrols : controls.toNat = Shor.controls width.toNat)
    (htargets : targets.toNat = Shor.targets width.toNat) (s : σ) :
    Lays (wordGates controls targets) s ((List.range (Shor.controls width.toNat)).map .h ++
      entangle width.toNat ++ inverseFourier (Shor.controls width.toNat)) () s := by
  have hsum := controls_add_targets width.toNat
  rw [← hcontrols, ← htargets] at hsum
  rw [entangle, inverseFourier, ← hcontrols, ← htargets, List.append_assoc]
  refine (lays_hadamards controls s).bind ?_
  refine (lays_wordEntangle hsum s).bind ?_
  refine (lays_wordReversal controls s).bind ?_
  apply lays_count
  intro i _
  exact lays_wordTransform i s

/-- The register is split before it is looked at, and also a register without qubits can be. -/
theorem wordCircuitOn_eq (width : UInt32) (s : σ) :
    wordCircuitOn width s =
      some ((Circuit.build Family.shor.title width.toNat (gates width.toNat)
        (metadata width.toNat)).mapError .circuit, s) := by
  have hcontrols : (width / 2).toNat = controls width.toNat := UInt32.toNat_div width 2
  have hle : controls width.toNat ≤ width.toNat := Nat.div_le_self _ 2
  -- the half is not above the width, so the subtraction does not leave the words
  obtain ⟨targets, hsub, htargets⟩ := Word.exists_sub? (a := width) (b := width / 2) (by omega)
  rw [hcontrols] at htargets
  simp only [wordCircuitOn, hsub, Option.bind_eq_bind, Option.bind_some, Word.map_toNat_below]
  rcases Nat.eq_zero_or_pos width.toNat with hzero | hw
  · rw [hzero, make_zero]
    rfl
  · have hall : AllAcceptable width.toNat ((List.range (controls width.toNat)).map .h ++
        entangle width.toNat ++ inverseFourier (controls width.toNat)) :=
      allAcceptable_append (allAcceptable_append (allAcceptable_hadamards hle)
        (allAcceptable_entangle _)) (allAcceptable_inverseFourier hle)
    rw [hcontrols]
    exact make_eq hw hall (lays_wordGates hcontrols htargets s) (lays_pure _ s)

/-- On words a period finding is the period finding on numbers. -/
theorem wordCircuit_eq (width : UInt32) (settings : Settings) (s : σ) :
    wordCircuit width settings s = some ((circuit width.toNat settings).mapError .circuit, s) := by
  rw [wordCircuit, wordCircuitOn_eq, Word.toNat_max]
  rfl

end Shor

/-! ## Eigensolvers -/

namespace Vqe

variable {source : AngleSource σ}

/-- A rotation of each qubit in turn, by an angle that is drawn for it. -/
def wordRotations (source : AngleSource σ) (rotation : Binary64 → Qubit → Gate) (width : UInt32) :
    Word.Program σ Unit :=
  (Word.below width).forM fun i => do
    let angle ← draw source
    append (rotation angle i.toNat)

/-- Every qubit controls the next. -/
def wordChain (width : UInt32) : Word.Program σ Unit := do
  let count ← checked (Word.sub? width 1)
  (Word.below count).forM fun i => do
    let next ← checked (Word.add? i 1)
    append (.cx i.toNat next.toNat)

def wordLayer (source : AngleSource σ) (width : UInt32) : Word.Program σ Unit := do
  wordRotations source (fun angle q => .ry ⟨.theta, angle⟩ q) width
  wordChain width
  wordRotations source (fun angle q => .rz ⟨.phi, angle⟩ q) width

/-- What is recorded of a circuit. -/
def wordMetadata (width layers : UInt32) : Word.Program σ Json.Members := do
  let rotated ← checked (Word.mul? layers.toUInt64 width.toUInt64)
  let parameters ← checked (Word.mul? rotated 2)
  pure [("type", .str "variational"), ("description", .str Family.vqe.summary),
    ("layers", .nat layers.toNat), ("parameters", .nat parameters.toNat),
    ("classical_optimizer", .str "COBYLA")]

/-- The circuit of a width, and the source after its draws. -/
def wordCircuit (source : AngleSource σ) (width : UInt32) (settings : Settings) :
    σ → Option (Except GenerationError Circuit × σ) :=
  make Family.vqe.title width.toNat do
    (Word.below settings.vqeLayers).forM fun _ => wordLayer source width
    append (.measure ((Word.below width).map UInt32.toNat))
    wordMetadata width settings.vqeLayers

theorem zipIdx_map_range (angle : Nat → Binary64) (count : Nat) :
    ((List.range count).map angle).zipIdx = (List.range count).map fun i => (angle i, i) := by
  induction count with
  | zero => rfl
  | succ count ih =>
      rw [List.range_succ, List.map_append, List.zipIdx_append, ih, List.map_append, List.length_map,
        List.length_range, Nat.zero_add]
      rfl

/-- Rotations by angles that are counted are each on the qubit of that number. -/
theorem rotations_map_range (rotation : Binary64 → Qubit → Gate) (angle : Nat → Binary64) (count : Nat) :
    rotations rotation ((List.range count).map angle) =
      (List.range count).map fun i => rotation (angle i) i := by
  rw [rotations, zipIdx_map_range, List.map_map]
  rfl

theorem lays_wordRotations (rotation : Binary64 → Qubit → Gate) (s : σ) :
    Lays (wordRotations source rotation width) s (rotations rotation (source.take width.toNat s).1) ()
      (source.take width.toNat s).2 := by
  rw [source.take_eq, rotations_map_range, List.map_eq_flatMap]
  -- before each rotation the source has been drawn from once for each of those before it
  apply lays_forM_below fun i => source.after i s
  intro i _
  rw [source.after_add]
  exact .after_draw (lays_append _ _)

theorem lays_wordChain (hw : 0 < width.toNat) (s : σ) :
    Lays (wordChain width) s (chain width.toNat) () s := by
  obtain ⟨count, hcount, hnat⟩ := Word.exists_last hw
  rw [chain, ← hnat]
  refine .after_checked hcount ?_
  apply lays_appends
  intro i hi
  -- what comes next is still a qubit, so its number is a word
  have hone : (1 : UInt32).toNat = 1 := rfl
  have hword := count.toNat_lt
  obtain ⟨next, hnext, hnextNat⟩ := Word.exists_add? (a := i) (b := 1) (by omega)
  rw [hone] at hnextNat
  rw [← hnextNat]
  exact .after_checked hnext (lays_append _ s)

theorem lays_wordLayer (hw : 0 < width.toNat) (s : σ) :
    Lays (wordLayer source width) s
      (layer width.toNat (source.take width.toNat s).1
        (source.take width.toNat (source.take width.toNat s).2).1) ()
      (source.take width.toNat (source.take width.toNat s).2).2 := by
  rw [layer, List.append_assoc]
  exact (lays_wordRotations _ s).bind ((lays_wordChain hw _).bind (lays_wordRotations _ _))

/-- As many layers as there are items in a row. -/
theorem lays_wordLayers (source : AngleSource σ) (hw : 0 < width.toNat) {ι : Type} (row : List ι) (s : σ) :
    Lays (row.forM fun _ => wordLayer source width) s (layers source width.toNat row.length s).1 ()
      (layers source width.toNat row.length s).2 := by
  induction row generalizing s with
  | nil => exact lays_pure () s
  | cons _ rest ih => exact (lays_wordLayer hw s).bind (ih _)

/-- With at most 64 layers the number of the parameters is a long word. -/
theorem lays_wordMetadata {layers : UInt32} (hlayers : layers.toNat ≤ 64) (s : σ) :
    Lays (wordMetadata width layers) s [] (metadata width.toNat layers.toNat) s := by
  have hwidth := width.toNat_lt
  have hbound : layers.toNat * width.toNat ≤ 64 * 2 ^ 32 :=
    Nat.mul_le_mul hlayers (Nat.le_of_lt hwidth)
  obtain ⟨rotated, hrotated, hrotatedNat⟩ :=
    Word.exists_mul? (a := layers.toUInt64) (b := width.toUInt64) (by
      rw [UInt32.toNat_toUInt64, UInt32.toNat_toUInt64]
      omega)
  rw [UInt32.toNat_toUInt64, UInt32.toNat_toUInt64] at hrotatedNat
  have htwo : (2 : UInt64).toNat = 2 := rfl
  obtain ⟨parameters, hparameters, hnat⟩ := Word.exists_mul? (a := rotated) (b := 2) (by
    rw [htwo]
    omega)
  rw [hrotatedNat, htwo] at hnat
  rw [metadata, ← hnat]
  exact .after_checked hrotated (.after_checked hparameters (lays_pure _ s))

/-- On words an eigensolver is the eigensolver on numbers. -/
theorem wordCircuit_eq (h : source.WithinTurn) (width : UInt32) {settings : Settings}
    (hlayers : settings.vqeLayers.toNat ≤ 64) (s : σ) :
    wordCircuit source width settings s =
      some ((circuit source width.toNat settings s).1.mapError .circuit,
        (circuit source width.toNat settings s).2) := by
  rcases Nat.eq_zero_or_pos width.toNat with hzero | hw
  · rw [wordCircuit, hzero, make_zero]
    rfl
  · have hrow := lays_wordLayers source hw (Word.below settings.vqeLayers) s
    rw [Word.length_below] at hrow
    rw [wordCircuit, Word.map_toNat_below]
    simp only [circuit, if_neg (Nat.ne_of_gt hw)]
    exact make_eq hw (allAcceptable_layers h _ _ s) hrow (lays_wordMetadata hlayers _)

end Vqe

/-! ## Optimizations -/

namespace Qaoa

variable {source : AngleSource σ}

/-- The phases of all edges. -/
def wordCost (gamma : Binary64) (pairs : List (UInt32 × UInt32)) : Word.Program σ Unit :=
  pairs.forM fun (i, j) => do
    append (.cx i.toNat j.toNat)
    append (.rz ⟨.phi, gamma.double⟩ j.toNat)
    append (.cx i.toNat j.toNat)

def wordLayer (source : AngleSource σ) (width : UInt32) (pairs : List (UInt32 × UInt32)) :
    Word.Program σ Unit := do
  let gamma ← draw source
  wordCost gamma pairs
  let beta ← draw source
  (Word.below width).forM fun i => append (.rx ⟨.theta, beta.double⟩ i.toNat)

/-- The gates up to the measurement. -/
def wordGates (source : AngleSource σ) (width count : UInt32) (pairs : List (UInt32 × UInt32)) :
    Word.Program σ Unit := do
  (Word.below width).forM fun i => append (.h i.toNat)
  (Word.below count).forM fun _ => wordLayer source width pairs

/-- The circuit of a width and a list of edges, and the source after its draws. -/
def wordCircuit (source : AngleSource σ) (width : UInt32) (edges : Option (List Edge))
    (settings : Settings) : σ → Option (Except GenerationError Circuit × σ) :=
  make Family.qaoa.title width.toNat do
    let pairs ← judged (Graph.wordEdges? width edges)
    wordGates source width settings.qaoaLayers pairs
    append (.measure ((Word.below width).map UInt32.toNat))
    pure (metadata settings.qaoaLayers.toNat (pairs.map Word.toNats))

theorem lays_wordCost (gamma : Binary64) (pairs : List (UInt32 × UInt32)) (s : σ) :
    Lays (wordCost gamma pairs) s (cost gamma (pairs.map Word.toNats)) () s := by
  rw [cost, List.flatMap_map]
  apply lays_forM
  intro pair _
  have hcx := lays_append (.cx pair.1.toNat pair.2.toNat) s
  exact hcx.bind ((lays_append _ s).bind hcx)

theorem lays_wordLayer (pairs : List (UInt32 × UInt32)) (s : σ) :
    Lays (wordLayer source width pairs) s
      (cost (source.draw s).1 (pairs.map Word.toNats) ++
        mixer (source.draw (source.draw s).2).1 width.toNat) ()
      (source.draw (source.draw s).2).2 := by
  refine .after_draw ((lays_wordCost _ pairs _).bind (.after_draw ?_))
  apply lays_appends
  intro i _
  exact lays_append _ _

theorem lays_wordLayers (source : AngleSource σ) (width : UInt32) (pairs : List (UInt32 × UInt32))
    {ι : Type} (row : List ι) (s : σ) :
    Lays (row.forM fun _ => wordLayer source width pairs) s
      (layers source width.toNat (pairs.map Word.toNats) row.length s).1 ()
      (layers source width.toNat (pairs.map Word.toNats) row.length s).2 := by
  induction row generalizing s with
  | nil => exact lays_pure () s
  | cons _ rest ih => exact (lays_wordLayer pairs s).bind (ih _)

theorem lays_wordGates (pairs : List (UInt32 × UInt32)) (count : UInt32) (s : σ) :
    Lays (wordGates source width count pairs) s
      ((List.range width.toNat).map .h ++
        (layers source width.toNat (pairs.map Word.toNats) count.toNat s).1) ()
      (layers source width.toNat (pairs.map Word.toNats) count.toNat s).2 := by
  have hrow := lays_wordLayers source width pairs (Word.below count) s
  rw [Word.length_below] at hrow
  exact (lays_hadamards width s).bind hrow

/-- On words an optimization is the optimization on numbers. -/
theorem wordCircuit_eq (h : source.WithinTurn) (width : UInt32) (edges : Option (List Edge))
    (settings : Settings) (s : σ) :
    wordCircuit source width edges settings s = some (circuit source width.toNat edges settings s) := by
  rw [wordCircuit, Word.map_toNat_below]
  rcases circuit_cases source width.toNat edges settings s with
    ⟨hzero, heq⟩ | ⟨fault, hw, hfault, heq⟩ | ⟨pairs, hw, hpairs, heq⟩
  · rw [heq, hzero, make_zero]
  · rw [heq, Graph.wordEdges?_of_error hfault]
    exact make_of_fault _ hw s
  · obtain ⟨words, hwords, rfl⟩ := Graph.exists_wordEdges? hpairs
    have hall : AllAcceptable width.toNat ((List.range width.toNat).map .h ++
        (layers source width.toNat (words.map Word.toNats) settings.qaoaLayers.toNat s).1) :=
      allAcceptable_append (allAcceptable_hadamards (Nat.le_refl _))
        (allAcceptable_layers h (Graph.joined_of_edges_ok hpairs) _ s)
    rw [heq, hwords, judged_ok_bind]
    exact make_eq hw hall (lays_wordGates words _ s) (lays_pure _ _)

end Qaoa

/-! ## Any family -/

namespace Generate

/-- The circuit that the generator of a family makes on words. A Bell pair is the same on every register,
with nothing to compute. -/
def wordDirect (source : AngleSource σ) (family : Family) (width : UInt32) (edges : Option (List Edge))
    (settings : Settings) (s : σ) : Option (Except GenerationError Circuit × σ) :=
  match family with
  | .bell => some (Bell.circuit.mapError .circuit, s)
  | .grover => Grover.wordCircuit width settings s
  | .shor => Shor.wordCircuit width settings s
  | .vqe => Vqe.wordCircuit source width settings s
  | .qaoa => Qaoa.wordCircuit source width edges settings s

/-- With bounded settings no generator is stuck on any register, and on words it gives what it gives on
numbers. -/
theorem wordDirect_eq {source : AngleSource σ} (h : source.WithinTurn) (family : Family) (width : UInt32)
    (edges : Option (List Edge)) {settings : Settings} (hbounded : settings.Bounded) (s : σ) :
    wordDirect source family width edges settings s =
      some (direct source family width.toNat edges settings s) := by
  cases family with
  | bell => rfl
  | grover => exact Grover.wordCircuit_eq width settings s
  | shor => exact Shor.wordCircuit_eq width settings s
  | vqe => exact Vqe.wordCircuit_eq h width hbounded.vqe s
  | qaoa => exact Qaoa.wordCircuit_eq h width edges settings s

end Generate

end QCircuit
