import Mathlib.Data.List.Nodup
import Mathlib.Tactic.SplitIfs
import QCircuit.Proofs.Circuit.Bits
import QCircuit.Proofs.Generate.Gates

/-!
# The bits of a period finding

The grid of a period finding adds the bit of every control to that of every target, row by row, so each
target has the parity of the controls added (`Shor.after_entangle`). The swaps that follow exchange the
first half of the controls with the second from the outside inwards, and a control in the middle, if there is
one, faces itself: together they reverse the order of the controls (`Shor.after_reversal`). No other gate
moves a bit (`Shor.after_gates`).

Behind the swaps stands the transform, in which each control meets all those before it. So every two
controls meet, and they meet once (`Shor.countP_couples_gates`).
-/

set_option autoImplicit false

namespace QCircuit

/-! ## Bits that are added and reversed -/

namespace Bits

variable {gates : List Gate}

@[simp] theorem through_swap (x : Bits) (a b : Qubit) :
    x.through (.swap a b) = Function.update (Function.update x a (x b)) b (x a) := rfl

theorem after_singleton (x : Bits) (g : Gate) : x.after [g] = x.through g := rfl

/-- Gates that move no bit can be passed over. -/
theorem after_of_through (h : ∀ g ∈ gates, ∀ x : Bits, x.through g = x) (x : Bits) :
    x.after gates = x := by
  induction gates with
  | nil => rfl
  | cons g rest ih =>
      obtain ⟨hfirst, hrest⟩ := List.forall_mem_cons.mp h
      rw [after, List.foldl_cons, hfirst]
      exact ih hrest

/-- Whether an odd number of the first qubits carry a bit that is set. -/
def parity (x : Bits) (count : Nat) : Bool := (List.range count).countP x % 2 = 1

theorem parity_succ (x : Bits) (count : Nat) : x.parity (count + 1) = (x.parity count ^^ x count) := by
  unfold parity
  rw [List.range_succ, List.countP_append, List.countP_singleton]
  generalize (List.range count).countP x = ones
  rcases Nat.mod_two_eq_zero_or_one ones with hones | hones <;> cases x count <;>
    simp [Nat.add_mod, hones]

/-- A bit added to that of some qubits, from a first one on. -/
def addFrom (x : Bits) (first count : Nat) (b : Bool) : Bits := fun (q : Nat) =>
  if first ≤ q ∧ q < first + count then x q ^^ b else x q

theorem addFrom_of_lt (x : Bits) {first q : Nat} (count : Nat) (b : Bool) (h : q < first) :
    x.addFrom first count b q = x q := if_neg (by omega)

theorem addFrom_add (x : Bits) {count j : Nat} (first : Nat) (b : Bool) (h : j < count) :
    x.addFrom first count b (first + j) = (x (first + j) ^^ b) := if_pos (by omega)

theorem addFrom_addFrom (x : Bits) (first count : Nat) (a b : Bool) :
    (x.addFrom first count a).addFrom first count b = x.addFrom first count (a ^^ b) := by
  funext q
  unfold addFrom
  split
  · rw [Bool.xor_assoc]
  · rfl

/-- The first qubits with some pairs of them exchanged, from the outside inwards. -/
def exchange (x : Bits) (count pairs : Nat) : Bits := fun (q : Nat) =>
  if q < count ∧ (q < pairs ∨ count - 1 - q < pairs) then x (count - 1 - q) else x q

/-- The first qubits in reverse order. -/
def mirror (x : Bits) (count : Nat) : Bits := fun (q : Nat) =>
  if q < count then x (count - 1 - q) else x q

theorem exchange_of_le (x : Bits) {count pairs q : Nat} (h : pairs ≤ q) (h' : q ≤ count - 1 - pairs) :
    x.exchange count pairs q = x q := if_neg (by omega)

/-- One more pair is exchanged by exchanging the bits that its two qubits carry. -/
theorem exchange_succ (x : Bits) {count pairs : Nat} (h : pairs < count / 2) :
    Function.update (Function.update (x.exchange count pairs) pairs (x (count - 1 - pairs)))
      (count - 1 - pairs) (x pairs) = x.exchange count (pairs + 1) := by
  funext (q : Nat)
  by_cases hupper : q = count - 1 - pairs
  · have hback : count - 1 - q = pairs := by omega
    rw [hupper, Function.update_self, exchange, if_pos (by omega), ← hupper, hback]
  · rw [Function.update_of_ne hupper]
    by_cases hlower : q = pairs
    · rw [hlower, Function.update_self, exchange, if_pos (by omega)]
    · have hiff : (q < count ∧ (q < pairs ∨ count - 1 - q < pairs)) ↔
          q < count ∧ (q < pairs + 1 ∨ count - 1 - q < pairs + 1) := by omega
      rw [Function.update_of_ne hlower, exchange, exchange]
      simp only [hiff]

/-- With half as many pairs as there are qubits all of them are exchanged; one in the middle faces itself. -/
theorem exchange_half (x : Bits) (count : Nat) : x.exchange count (count / 2) = x.mirror count := by
  funext (q : Nat)
  unfold exchange mirror
  split_ifs with hpair hq hq
  · rfl
  · exact absurd hpair.1 hq
  · have hself : count - 1 - q = q := by omega
    rw [hself]
  · rfl

end Bits

/-! ## Pairs of qubits -/

/-- The gate turns a phase by two qubits, whichever of them is its control. -/
def Gate.Couples (p q : Qubit) : Gate → Prop
  | .cp _ a b => (a = p ∧ b = q) ∨ (a = q ∧ b = p)
  | _ => False

instance (p q : Qubit) : DecidablePred (Gate.Couples p q)
  | .cp _ a b => inferInstanceAs (Decidable ((a = p ∧ b = q) ∨ (a = q ∧ b = p)))
  | .fixed _ _ | .rotation _ _ _ | .cx _ _ | .swap _ _ | .measure _ | .custom _ _ _ =>
      inferInstanceAs (Decidable False)

theorem Gate.Couples.kind? {p q : Qubit} {g : Gate} (h : g.Couples p q) : g.kind? = some .cp := by
  cases g with
  | cp theta a b => rfl
  | _ => exact h.elim

namespace Shor

variable {width : Nat} {g : Gate}

/-! ## The grid -/

/-- A control adds its bit to every target. -/
theorem after_row_bits (x : Bits) {controls i : Nat} (targets : Nat) (hi : i < controls) :
    x.after ((List.range targets).map fun j => .cx i (controls + j)) =
      x.addFrom controls targets (x i) := by
  induction targets with
  | zero =>
      funext q
      exact (if_neg (by omega)).symm
  | succ targets ih =>
      -- the next target has its own bit still, and the control has kept its own
      have htarget : x.addFrom controls targets (x i) (controls + targets) = x (controls + targets) :=
        if_neg (by omega)
      rw [List.range_succ, List.map_append, List.map_singleton, Bits.after_append, ih,
        Bits.after_singleton, Bits.through_cx, htarget, Bits.addFrom_of_lt x _ _ hi]
      funext (q : Nat)
      by_cases hq : q = controls + targets
      · rw [hq, Function.update_self, Bits.addFrom_add x _ _ (Nat.lt_succ_self targets)]
      · have hiff : (controls ≤ q ∧ q < controls + targets) ↔
            controls ≤ q ∧ q < controls + (targets + 1) := by omega
        rw [Function.update_of_ne hq, Bits.addFrom, Bits.addFrom]
        simp only [hiff]

/-- After some rows every target has the parity of so many controls added to its bit. -/
theorem after_rows_bits (x : Bits) {controls rows : Nat} (targets : Nat) (h : rows ≤ controls) :
    x.after ((List.range rows).flatMap fun i =>
      (List.range targets).map fun j => .cx i (controls + j)) =
        x.addFrom controls targets (x.parity rows) := by
  induction rows with
  | zero =>
      funext q
      have hnone : x.parity 0 = false := rfl
      rw [hnone, Bits.addFrom, Bool.xor_false, ite_self]
      rfl
  | succ rows ih =>
      rw [List.range_succ, List.flatMap_append, List.flatMap_singleton, Bits.after_append, ih (by omega),
        after_row_bits _ targets h, Bits.addFrom_of_lt x _ _ h, Bits.addFrom_addFrom, Bits.parity_succ]

theorem after_entangle (x : Bits) (width : Nat) :
    x.after (entangle width) =
      x.addFrom (controls width) (targets width) (x.parity (controls width)) :=
  after_rows_bits x (targets width) (Nat.le_refl _)

/-! ## The reversal -/

theorem after_swaps_bits (x : Bits) {count pairs : Nat} (h : pairs ≤ count / 2) :
    x.after ((List.range pairs).map fun i => .swap i (count - 1 - i)) = x.exchange count pairs := by
  induction pairs with
  | zero =>
      funext q
      exact (if_neg (by omega)).symm
  | succ pairs ih =>
      -- neither qubit of the next pair has been touched
      have hlower : x.exchange count pairs pairs = x pairs :=
        x.exchange_of_le (Nat.le_refl _) (by omega)
      have hupper : x.exchange count pairs (count - 1 - pairs) = x (count - 1 - pairs) :=
        x.exchange_of_le (by omega) (Nat.le_refl _)
      rw [List.range_succ, List.map_append, List.map_singleton, Bits.after_append, ih (by omega),
        Bits.after_singleton, Bits.through_swap, hlower, hupper, Bits.exchange_succ x h]

/-- Half as many swaps as there are qubits reverse their order. -/
theorem after_reversal (x : Bits) (count : Nat) : x.after (reversal count) = x.mirror count := by
  rw [reversal, after_swaps_bits x (Nat.le_refl _), Bits.exchange_half]

/-! ## The kinds of the gates -/

theorem kind?_of_mem_hadamards {count : Nat} (h : g ∈ (List.range count).map Gate.h) :
    g.kind? = some .h := by
  obtain ⟨i, -, rfl⟩ := List.mem_map.mp h
  rfl

theorem kind?_of_mem_entangle (h : g ∈ entangle width) : g.kind? = some .cx := by
  obtain ⟨i, -, hrow⟩ := List.mem_flatMap.mp h
  obtain ⟨j, -, rfl⟩ := List.mem_map.mp hrow
  rfl

theorem kind?_of_mem_reversal {count : Nat} (h : g ∈ reversal count) : g.kind? = some .swap := by
  obtain ⟨i, -, rfl⟩ := List.mem_map.mp h
  rfl

theorem kind?_of_mem_transforms {count : Nat} (h : g ∈ (List.range count).flatMap transform) :
    g.kind? = some .h ∨ g.kind? = some .cp := by
  obtain ⟨i, -, hi⟩ := List.mem_flatMap.mp h
  rcases List.mem_cons.mp hi with rfl | hi
  · exact Or.inl rfl
  · obtain ⟨j, -, rfl⟩ := List.mem_map.mp hi
    exact Or.inr rfl

/-- A gate that is neither a controlled X nor a swap moves no bit. -/
theorem through_of_kind? (hcx : g.kind? ≠ some .cx) (hswap : g.kind? ≠ some .swap) (x : Bits) :
    x.through g = x := by
  cases g with
  | cx control target => exact absurd rfl hcx
  | swap a b => exact absurd rfl hswap
  | _ => rfl

/-- The controls are reversed, and each target has their parity added. -/
theorem after_gates (x : Bits) (width : Nat) :
    x.after (gates width) =
      (x.addFrom (controls width) (targets width) (x.parity (controls width))).mirror
        (controls width) := by
  have hhadamards : x.after ((List.range (controls width)).map .h) = x := by
    apply Bits.after_of_through
    intro g hg
    have hkind := kind?_of_mem_hadamards hg
    exact through_of_kind? (by simp [hkind]) (by simp [hkind])
  -- turns and phases move no bit
  have htransforms (y : Bits) : y.after ((List.range (controls width)).flatMap transform) = y := by
    apply Bits.after_of_through
    intro g hg
    rcases kind?_of_mem_transforms hg with hkind | hkind
    · exact through_of_kind? (by simp [hkind]) (by simp [hkind])
    · exact through_of_kind? (by simp [hkind]) (by simp [hkind])
  have hmeasure (y : Bits) : y.after [.measure (List.range (controls width))] = y := rfl
  rw [gates, inverseFourier, Bits.after_append, Bits.after_append, Bits.after_append, Bits.after_append,
    hhadamards, after_entangle, after_reversal, htransforms, hmeasure]

/-! ## The transform -/

theorem countP_couples_eq_zero {p q : Qubit} {row : List Gate} (h : ∀ g ∈ row, g.kind? ≠ some .cp) :
    row.countP (fun g => g.Couples p q) = 0 := by
  rw [List.countP_eq_zero]
  intro g hg hcouples
  exact h g hg (of_decide_eq_true hcouples).kind?

/-- The transform of a qubit couples it with each qubit before it once, and no others. -/
theorem countP_couples_transform {p q : Nat} (h : p < q) (i : Nat) :
    (transform i).countP (fun g => g.Couples p q) = if i = q then 1 else 0 := by
  -- only the phases couple, each of an earlier control with this one
  have hcount : (transform i).countP (fun g => g.Couples p q) =
      (List.range i).countP fun j => (j = p ∧ i = q) ∨ (j = q ∧ i = p) := by
    have hh : ¬ (decide ((Gate.h i).Couples p q)) = true := Bool.false_ne_true
    refine Eq.trans (List.countP_cons_of_neg hh) ?_
    rw [List.countP_map]
    rfl
  rw [hcount]
  by_cases hi : i = q
  · have hone : (List.range i).countP (fun j => (j = p ∧ i = q) ∨ (j = q ∧ i = p)) =
        (List.range i).count p := by
      apply List.countP_congr
      intro j _
      simp only [beq_iff_eq, decide_eq_true_eq]
      omega
    rw [if_pos hi, hone]
    exact List.count_eq_one_of_mem List.nodup_range (List.mem_range.mpr (by omega))
  · rw [if_neg hi, List.countP_eq_zero]
    intro j hj
    have hlt := List.mem_range.mp hj
    rw [decide_eq_true_eq]
    omega

theorem countP_couples_transforms {p q : Nat} (h : p < q) (count : Nat) :
    ((List.range count).flatMap transform).countP (fun g => g.Couples p q) =
      if q < count then 1 else 0 := by
  induction count with
  | zero => rfl
  | succ count ih =>
      rw [List.range_succ, List.flatMap_append, List.flatMap_singleton, List.countP_append, ih,
        countP_couples_transform h]
      split_ifs <;> omega

/-- Every two controls are coupled by one gate. -/
theorem countP_couples_gates {p q : Nat} (h : p < q) (hq : q < controls width) :
    (gates width).countP (fun g => g.Couples p q) = 1 := by
  have hhadamards : ((List.range (controls width)).map Gate.h).countP (fun g => g.Couples p q) = 0 :=
    countP_couples_eq_zero fun g hg => by simp [kind?_of_mem_hadamards hg]
  have hgrid : (entangle width).countP (fun g => g.Couples p q) = 0 :=
    countP_couples_eq_zero fun g hg => by simp [kind?_of_mem_entangle hg]
  have hswaps : (reversal (controls width)).countP (fun g => g.Couples p q) = 0 :=
    countP_couples_eq_zero fun g hg => by simp [kind?_of_mem_reversal hg]
  have hmeasure : [Gate.measure (List.range (controls width))].countP (fun g => g.Couples p q) = 0 := rfl
  rw [gates, inverseFourier, List.countP_append, List.countP_append, List.countP_append,
    List.countP_append, hhadamards, hgrid, hswaps, countP_couples_transforms h, hmeasure, if_pos hq]

/-! ## The circuit -/

/-- **The gates of a period finding that move bits reverse its controls and add their parity to each
target.** Behind its swaps, and up to the measurement, it has nothing but the transform: each control in
order, followed by its phases with the controls before it in order. So every two controls share one phase. -/
theorem period_bits {settings : Settings} {c : Circuit} (hc : circuit width settings = .ok c) :
    ∃ controls targets, controls = c.width / 2 ∧ targets = c.width - controls ∧
      (∀ x : Bits,
        (∀ i, i < controls → x.after c.gates i = x (controls - 1 - i)) ∧
        ∀ j, j < targets → x.after c.gates (controls + j) =
          (x (controls + j) ^^ decide ((List.range controls).countP x % 2 = 1))) ∧
      (∃ before swaps : List Gate,
        c.gates = before ++ swaps ++
          ((List.range controls).flatMap fun i =>
            .h i :: (List.range i).map fun j => .cp (phase i j) j i) ++
          [.measure (List.range controls)] ∧
        (∀ g ∈ swaps, g.kind? = some .swap) ∧ ∀ g ∈ before, g.kind? ≠ some .swap) ∧
      ∀ p q, p < q → q < controls → (c.gates.countP fun g => g.Couples p q) = 1 := by
  obtain ⟨-, -, rfl⟩ := Circuit.eq_of_build hc
  refine ⟨controls (fullWidth width settings), targets (fullWidth width settings), rfl, rfl, ?_, ?_, ?_⟩
  · intro x
    simp only [after_gates]
    constructor
    · -- the sums are in the targets, so the controls are the mirrored ones
      intro i hi
      rw [Bits.mirror, if_pos hi]
      exact x.addFrom_of_lt _ _ (by omega)
    · -- nothing past the controls is mirrored
      intro j hj
      rw [Bits.mirror, if_neg (by omega)]
      exact x.addFrom_add _ _ hj
  · refine ⟨(List.range (controls (fullWidth width settings))).map .h ++
      entangle (fullWidth width settings), reversal (controls (fullWidth width settings)), ?_, ?_, ?_⟩
    · simp only [gates, inverseFourier, List.append_assoc]
      rfl
    · intro g hg
      exact kind?_of_mem_reversal hg
    · intro g hg
      rcases List.mem_append.mp hg with hg | hg
      · simp [kind?_of_mem_hadamards hg]
      · simp [kind?_of_mem_entangle hg]
  · intro p q hpq hq
    exact countP_couples_gates hpq hq

/-- Control: three controls and four targets, of which the first control and the last target carry a bit that
is set. The bit of the control comes to the last control, and every target is turned over. -/
theorem period_bits_seven :
    ∃ c, circuit 7 ⟨3, 0, 3, 2⟩ = .ok c ∧
      (∀ x : Bits, x = (fun q => q == 0 || q == 6) →
        x.after c.gates 2 = true ∧ x.after c.gates 0 = false ∧ x.after c.gates 3 = true ∧
          x.after c.gates 6 = false) ∧
      (c.gates.countP fun g => g.Couples 0 2) = 1 := by
  have hc := circuit_eq (show 2 ≤ fullWidth 7 ⟨3, 0, 3, 2⟩ by decide)
  obtain ⟨controls, targets, hcontrols, htargets, hbits, -, hcouples⟩ := period_bits hc
  obtain rfl : controls = 3 := hcontrols
  obtain rfl : targets = 4 := htargets
  refine ⟨_, hc, ?_, hcouples 0 2 (by decide) (by decide)⟩
  rintro x rfl
  obtain ⟨hreversed, hadded⟩ := hbits fun q => q == 0 || q == 6
  exact ⟨hreversed 2 (by decide), hreversed 0 (by decide), hadded 0 (by decide), hadded 3 (by decide)⟩

end Shor

end QCircuit
