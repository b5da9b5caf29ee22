import QCircuit.Proofs.Generate.Layout

/-!
# How wide a generated circuit is

The sizing answers for identifiers and for families alike, and on the identifier of a family the two
answers are one (`Sizing.forId_of_ofId?`). What a generator makes is as wide as the sizing says, but for
two families: a Bell pair has two qubits, and the settings may widen a period finding
(`Generate.Makes.width_eq`). So every other circuit than a Bell pair has a number for each item
(`Generate.Makes.items_le`).
-/

set_option autoImplicit false

namespace QCircuit

namespace Sizing

theorem forId_of_ofId? {id : String} {family : Family} (h : Family.ofId? id = some family)
    (problem : Problem) : forId id problem = family.widthFor problem := by
  simp only [forId, h, Family.widthFor]

theorem forId_of_unknown {id : String} (h : Family.ofId? id = none) (problem : Problem) :
    forId id problem = forProblem fallbackQubits problem := by
  simp only [forId, h]

end Sizing

/-- How wide the circuit of a family is when the sizing chooses a width. -/
def Family.builtWidth (family : Family) (width : Nat) (settings : Settings) : Nat :=
  match family with
  | .bell => 2
  | .shor => max width settings.shorMinQubits.toNat
  | .grover | .vqe | .qaoa => width

/-- Only a Bell pair may be narrower than the sizing says. -/
theorem Family.le_builtWidth {family : Family} (h : family ≠ .bell) (width : Nat)
    (settings : Settings) : width ≤ family.builtWidth width settings := by
  cases family with
  | bell => exact absurd rfl h
  | shor => exact Nat.le_max_left _ _
  | grover => exact Nat.le_refl _
  | vqe => exact Nat.le_refl _
  | qaoa => exact Nat.le_refl _

namespace Generate

variable {σ : Type} {source : AngleSource σ} {width : Nat} {edges : Option (List Edge)}
  {settings : Settings} {s : σ} {family : Family} {c : Circuit}

theorem Makes.width_eq (h : Makes source width edges settings s family c) :
    c.width = family.builtWidth width settings := by
  cases h with
  | bell => rfl
  | grover => rfl
  | shor => rfl
  | vqe => rfl
  | qaoa => rfl

/-- Sixty-three qubits number all items that can be counted, and bounded settings ask for 128 at most. -/
theorem Makes.width_le (h : Makes source width edges settings s family c) (hbounded : settings.Bounded)
    (hwidth : width ≤ 63) : c.width ≤ 128 := by
  have hshor := hbounded.shor
  rw [h.width_eq]
  cases family with
  | shor => exact Nat.max_le.mpr ⟨by omega, hshor⟩
  | bell => exact (by decide : 2 ≤ 128)
  | _ => exact Nat.le_trans hwidth (by decide)

/-- A circuit of another family than the Bell pairs has a number for each item. -/
theorem Makes.items_le (h : Makes source width edges settings s family c) (hne : family ≠ .bell)
    {problem : Problem} (hwidth : family.widthFor problem = .ok width) {n : Int64}
    (hn : problem.numItems = some n) : n.toInt ≤ 2 ^ c.width := by
  have hforItems : Sizing.forItems n = .ok width := by
    rw [← hwidth, Family.widthFor, Sizing.forProblem, hn]
  have hle : width ≤ c.width := by
    rw [h.width_eq]
    exact Family.le_builtWidth hne width settings
  have hpow : (2 : Nat) ^ width ≤ 2 ^ c.width := Nat.pow_le_pow_right (by decide) hle
  calc n.toInt ≤ 2 ^ width := Sizing.le_two_pow_of_forItems hforItems
    _ ≤ 2 ^ c.width := by exact_mod_cast hpow

/-- On the identifier of a family, in letters of either case, the sizing by identifier answers as the
sizing of the family does, be it a width or a fault; and every circuit that a request under that
identifier is answered with has the width so chosen, or two qubits for a Bell pair, or what the settings
ask for if a period finding is wider by them. But for Bell pairs it has a number for each item.

An identifier of no family has the width of the item count, a fault if that is not positive, or four
qubits without a count, and a request under it fails. -/
theorem named_width (source : AngleSource σ) (id : String) (problem : Problem) (settings : Settings)
    (s : σ) :
    (∀ family, Family.ofId? id = some family →
      Sizing.forId id problem = family.widthFor problem ∧
      ∀ c, (named source id problem settings s).1 = .ok c →
        ∃ width, Sizing.forId id problem = .ok width ∧
          c.width = family.builtWidth width settings ∧
          (family ≠ .bell → ∀ n, problem.numItems = some n → n.toInt ≤ 2 ^ c.width)) ∧
    (Family.ofId? id = none →
      (∀ n, problem.numItems = some n →
        (0 < n.toInt ∧ ∃ width, Sizing.forItems n = .ok width ∧
          Sizing.forId id problem = .ok width) ∨
        (n.toInt ≤ 0 ∧ Sizing.forId id problem = .error (.itemsNotPositive n))) ∧
      (problem.numItems = none → Sizing.forId id problem = .ok 4) ∧
      (named source id problem settings s).1 = .error (.unknownFamily id)) := by
  constructor
  · intro family hfamily
    have hsame := Sizing.forId_of_ofId? hfamily problem
    refine ⟨hsame, fun c hc => ?_⟩
    obtain ⟨other, width, hnamed, -, hwidth, -, -, hmakes, -⟩ := makes_of_named_ok hc
    -- an identifier names one family only
    obtain rfl : other = family := Family.eq_of_named hnamed (Family.named_of_ofId? hfamily)
    refine ⟨width, hsame.trans hwidth, hmakes.width_eq, ?_⟩
    exact fun hne n hn => hmakes.items_le hne hwidth hn
  · intro hunknown
    have hfallback := Sizing.forId_of_unknown hunknown problem
    refine ⟨fun n hn => ?_, fun hn => ?_, ?_⟩
    · have hitems : Sizing.forId id problem = Sizing.forItems n := by
        rw [hfallback, Sizing.forProblem, hn]
      rw [hitems]
      rcases Sizing.forItems_cases n with ⟨hpos, width, hok⟩ | hnot
      · exact Or.inl ⟨hpos, width, hok, hok⟩
      · exact Or.inr hnot
    · rw [hfallback, Sizing.forProblem, hn]
      rfl
    · simp only [named, accept, hunknown]

/-- Control: nine items need four qubits, which a period finding widens to sixteen; an identifier of no
family needs as many, and no circuit comes of it. -/
theorem named_width_shor :
    ∃ c, (named Xoshiro.angles "SHOR" ⟨some 9, none⟩ Settings.usual (Xoshiro.ofSeed 7)).1 = .ok c ∧
      Sizing.forId "SHOR" ⟨some 9, none⟩ = .ok 4 ∧ c.width = 16 ∧ (9 : Int) ≤ 2 ^ c.width ∧
      Sizing.forId "simon" ⟨some 9, none⟩ = .ok 4 ∧
      (named Xoshiro.angles "simon" ⟨some 9, none⟩ Settings.usual (Xoshiro.ofSeed 7)).1 =
        .error (.unknownFamily "simon") := by
  have haccept : accept "SHOR" ⟨some 9, none⟩ Settings.usual = .ok (.shor, 4) := rfl
  have h : (named Xoshiro.angles "SHOR" ⟨some 9, none⟩ Settings.usual (Xoshiro.ofSeed 7)).1 =
      .ok ⟨Family.shor.title, 16, Shor.gates 16, Circuit.described (Shor.metadata 16)⟩ := by
    simp only [named, haccept, direct]
    rw [Shor.circuit_eq (by decide)]
    rfl
  obtain ⟨-, hwidth⟩ := (named_width Xoshiro.angles "SHOR" ⟨some 9, none⟩ Settings.usual
    (Xoshiro.ofSeed 7)).1 .shor (by decide)
  obtain ⟨-, -, -, hitems⟩ := hwidth _ h
  obtain ⟨hcount, -, hunknown⟩ := (named_width Xoshiro.angles "simon" ⟨some 9, none⟩ Settings.usual
    (Xoshiro.ofSeed 7)).2 (by decide)
  have hfour : Sizing.forItems 9 = .ok 4 := rfl
  refine ⟨_, h, rfl, rfl, hitems (by decide) 9 rfl, ?_, hunknown⟩
  rcases hcount 9 rfl with ⟨-, width', hok, hid⟩ | ⟨hle, -⟩
  · rw [hid, ← hok, hfour]
  · exact absurd hle (by decide)

end Generate

end QCircuit
