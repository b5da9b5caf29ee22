import QCircuit.Proofs.Generate.Answer

/-!
# What a generator has made

A generator either makes the circuit of its family or makes none. The circuits that come into question
are listed family by family (`Generate.Makes`), with the gates as they are laid out and the metadata as
it is recorded. Whatever the source of the angles, a circuit that is answered is the one that the family
makes, and it is finished (`Generate.makes_of_direct_ok`, `Generate.makes_of_named_ok`): its gates have
all passed the checks of the builder.

That a generator does answer is another matter, for which the angles have to lie within a turn.
-/

set_option autoImplicit false

namespace QCircuit

/-- What is built of a row of gates, whatever an error of the builder is turned into. -/
theorem Circuit.eq_of_build_mapError {ε : Type} {f : CircuitError → ε} {algorithm : String}
    {width : Nat} {gates : List Gate} {entries : Json.Members} {c : Circuit}
    (h : (build algorithm width gates entries).mapError f = .ok c) :
    c = ⟨algorithm, width, gates, described entries⟩ ∧ c.Finished := by
  cases hb : build algorithm width gates entries with
  | error e =>
      rw [hb] at h
      cases h
  | ok built =>
      rw [hb] at h
      cases h
      exact ⟨(eq_of_build hb).2.2, finished_of_build hb⟩

namespace Generate

variable {σ : Type} {source : AngleSource σ} {width : Nat} {edges : Option (List Edge)}
  {settings : Settings} {s : σ}

/-- The circuit of a family for a width, edges and settings, on angles that are drawn from a source. A
Bell pair has its own width, and the settings may widen a period finding. -/
inductive Makes (source : AngleSource σ) (width : Nat) (edges : Option (List Edge))
    (settings : Settings) (s : σ) : Family → Circuit → Prop
  | bell : Makes source width edges settings s .bell
      ⟨Family.bell.title, 2, Bell.gates, Circuit.described Bell.metadata⟩
  | grover : Makes source width edges settings s .grover
      ⟨Family.grover.title, width, Grover.gates width (Grover.appliedIterations width settings),
        Circuit.described (Grover.metadata width settings)⟩
  | shor : Makes source width edges settings s .shor
      ⟨Family.shor.title, Shor.fullWidth width settings, Shor.gates (Shor.fullWidth width settings),
        Circuit.described (Shor.metadata (Shor.fullWidth width settings))⟩
  | vqe : Makes source width edges settings s .vqe
      ⟨Family.vqe.title, width,
        (Vqe.layers source width settings.vqeLayers.toNat s).1 ++ [.measure (List.range width)],
        Circuit.described (Vqe.metadata width settings.vqeLayers.toNat)⟩
  | qaoa {pairs : List (Qubit × Qubit)} : Graph.edges width edges = .ok pairs →
      Makes source width edges settings s .qaoa
        ⟨Family.qaoa.title, width,
          Qaoa.gates width (Qaoa.layers source width pairs settings.qaoaLayers.toNat s).1,
          Circuit.described (Qaoa.metadata settings.qaoaLayers.toNat pairs)⟩

/-- What the generator of a family answers is what the family makes. -/
theorem makes_of_direct_ok {family : Family} {c : Circuit}
    (h : (direct source family width edges settings s).1 = .ok c) :
    Makes source width edges settings s family c ∧ c.Finished := by
  cases family with
  | bell =>
      simp only [direct, Bell.circuit] at h
      obtain ⟨rfl, hfinished⟩ := Circuit.eq_of_build_mapError h
      exact ⟨.bell, hfinished⟩
  | grover =>
      simp only [direct, Grover.circuit] at h
      obtain ⟨rfl, hfinished⟩ := Circuit.eq_of_build_mapError h
      exact ⟨.grover, hfinished⟩
  | shor =>
      simp only [direct, Shor.circuit] at h
      obtain ⟨rfl, hfinished⟩ := Circuit.eq_of_build_mapError h
      exact ⟨.shor, hfinished⟩
  | vqe =>
      rcases Vqe.circuit_cases source width settings s with ⟨-, heq⟩ | ⟨-, heq⟩
      · rw [direct, heq] at h
        cases h
      · rw [direct, heq] at h
        obtain ⟨rfl, hfinished⟩ := Circuit.eq_of_build_mapError h
        exact ⟨.vqe, hfinished⟩
  | qaoa =>
      -- the register and the edges are looked at before anything is built
      rcases Qaoa.circuit_cases source width edges settings s with
        ⟨-, heq⟩ | ⟨fault, -, -, heq⟩ | ⟨pairs, -, hpairs, heq⟩
      · rw [direct, heq] at h
        cases h
      · rw [direct, heq] at h
        cases h
      · rw [direct, heq] at h
        obtain ⟨rfl, hfinished⟩ := Circuit.eq_of_build_mapError h
        exact ⟨.qaoa hpairs, hfinished⟩

/-- What a named request is answered with is what the family of its identifier makes for the width that
the sizing chooses. -/
theorem makes_of_named_ok {id : String} {problem : Problem} {c : Circuit}
    (h : (named source id problem settings s).1 = .ok c) :
    ∃ family width, family.Named id ∧ settings.Bounded ∧ family.widthFor problem = .ok width ∧
      2 ≤ width ∧ width ≤ 63 ∧ Makes source width problem.edges settings s family c ∧
      c.Finished := by
  rcases accept_cases id problem settings with
    ⟨family, width, hn, hb, -, hw, hlow, hhigh, hok⟩ | ⟨e, -, herr⟩
  · simp only [named, hok] at h
    obtain ⟨hmakes, hfinished⟩ := makes_of_direct_ok h
    exact ⟨family, width, hn, hb, hw, hlow, hhigh, hmakes, hfinished⟩
  · simp only [named, herr] at h
    cases h

end Generate

end QCircuit
