import QCircuit.Proofs.Draw.Stream
import QCircuit.Proofs.Generate.Gates

/-!
# Draws

What a request takes from the source of angles is read off the request and its answer
(`Request.drawn`). A refused request takes nothing, and neither does a Bell pair, a search or a period
finding. An eigensolver takes two angles for each qubit and layer, which are the angles of its rotations
in order (`Vqe.turns_layers`). An optimization takes two angles for each layer, whatever its edges; twice
the first is the angle of the phases of the layer, twice the second that of its mixing rotations
(`Qaoa.layers_eq`).

Requests that are served one after another therefore share the source in a simple way: each of them
meets the source as the draws before it have left it, and of the earlier requests nothing counts but the
number of these draws (`Request.serveAll_draws`).
-/

set_option autoImplicit false

namespace QCircuit

/-- Rows of one length, one behind another. -/
theorem length_flatMap_of_length {α β : Type} {f : α → List β} {count : Nat}
    (h : ∀ a, (f a).length = count) (row : List α) : (row.flatMap f).length = row.length * count := by
  rw [List.length_flatMap, funext h, List.map_const', List.sum_replicate_nat]

/-! ## Rotations -/

/-- The axis and the angle of a rotation. -/
def Gate.turn? : Gate → Option (Axis × Binary64)
  | .rotation axis angle _ => some (axis, angle.value)
  | _ => none

/-- The rotations in a row of gates, in order. -/
def turns (gates : List Gate) : List (Axis × Binary64) := gates.filterMap Gate.turn?

theorem turns_append (before after : List Gate) :
    turns (before ++ after) = turns before ++ turns after := List.filterMap_append

theorem turns_map_none {α : Type} {f : α → Gate} (h : ∀ a, (f a).turn? = none) (row : List α) :
    turns (row.map f) = [] := by
  rw [turns, List.filterMap_map, List.filterMap_eq_nil_iff]
  intro a _
  exact h a

theorem turns_map_some {α : Type} {f : α → Gate} {turn : α → Axis × Binary64}
    (h : ∀ a, (f a).turn? = some (turn a)) (row : List α) : turns (row.map f) = row.map turn := by
  have hsome : Gate.turn? ∘ f = fun a => some (turn a) := funext h
  rw [turns, List.filterMap_map, hsome, List.filterMap_eq_map']

variable {σ : Type} {source : AngleSource σ}

/-! ## Eigensolvers -/

namespace Vqe

theorem turns_rotations {rotation : Binary64 → Qubit → Gate} {axis : Axis}
    (h : ∀ angle q, (rotation angle q).turn? = some (axis, angle)) (angles : List Binary64) :
    (turns (rotations rotation angles)).map Prod.snd = angles := by
  have hturn : ∀ p : Binary64 × Nat, (rotation p.1 p.2).turn? = some (axis, p.1) :=
    fun p => h p.1 p.2
  have hmap := turns_map_some (f := fun p : Binary64 × Nat => rotation p.1 p.2) hturn angles.zipIdx
  rw [rotations, hmap, List.map_map]
  exact List.zipIdx_map_fst 0 angles

/-- A layer turns by its own angles, in order. -/
theorem turns_layer (width : Nat) (thetas phis : List Binary64) :
    (turns (layer width thetas phis)).map Prod.snd = thetas ++ phis := by
  have hchain : turns (chain width) = [] := turns_map_none (fun _ => rfl) _
  have hthetas : (turns (rotations (fun angle q => .ry ⟨.theta, angle⟩ q) thetas)).map Prod.snd =
      thetas := turns_rotations (fun _ _ => rfl) thetas
  have hphis : (turns (rotations (fun angle q => .rz ⟨.phi, angle⟩ q) phis)).map Prod.snd =
      phis := turns_rotations (fun _ _ => rfl) phis
  rw [layer, turns_append, turns_append, hchain, List.append_nil, List.map_append, hthetas, hphis]

/-- The rotations of the layers have the drawn angles in order. -/
theorem turns_layers (source : AngleSource σ) (width count : Nat) (s : σ) :
    (turns (layers source width count s).1).map Prod.snd =
        (List.range (2 * width * count)).map (source.stream s) ∧
      (layers source width count s).2 = source.after (2 * width * count) s := by
  induction count generalizing s with
  | zero => exact ⟨rfl, rfl⟩
  | succ count ih =>
      -- a layer takes one angle a qubit before its chain and one after it
      obtain ⟨hturns, hstate⟩ := ih (source.after width (source.after width s))
      have htotal : 2 * width * (count + 1) = width + (width + 2 * width * count) := by
        rw [Nat.mul_succ]
        omega
      constructor
      · simp only [layers, AngleSource.take_eq, turns_append, List.map_append, turns_layer, hturns]
        rw [htotal, source.map_stream_range_add, source.map_stream_range_add, List.append_assoc]
      · simp only [layers, AngleSource.take_eq, hstate]
        rw [htotal, source.after_add, source.after_add]

end Vqe

/-! ## Optimizations -/

namespace Qaoa

variable {width : Nat} {pairs : List (Qubit × Qubit)}

/-- The gates of a layer with the given angles. -/
def layer (width : Nat) (pairs : List (Qubit × Qubit)) (gamma beta : Binary64) : List Gate :=
  cost gamma pairs ++ mixer beta width

/-- The layers with two angles of the stream for each. -/
theorem layers_eq (source : AngleSource σ) (width : Nat) (pairs : List (Qubit × Qubit)) (count : Nat)
    (s : σ) :
    layers source width pairs count s =
      ((List.range count).flatMap fun l =>
          layer width pairs (source.stream s (2 * l)) (source.stream s (2 * l + 1)),
        source.after (2 * count) s) := by
  induction count generalizing s with
  | zero => rfl
  | succ count ih =>
      -- the later layers see the stream from its third angle on
      have hshift : ∀ k, source.stream (source.after 2 s) k = source.stream s (2 + k) :=
        fun k => source.stream_after 2 k s
      have hstate : (source.draw (source.draw s).2).2 = source.after 2 s := rfl
      have hgamma : ∀ l, 2 + 2 * l = 2 * (l + 1) := fun l => by omega
      have hbeta : ∀ l, 2 + (2 * l + 1) = 2 * (l + 1) + 1 := fun l => by omega
      simp only [layers, hstate, ih, hshift, hgamma, hbeta]
      rw [← hgamma count, source.after_add, List.range_succ_eq_map, List.flatMap_cons,
        List.flatMap_map]
      rfl

theorem turns_cost (gamma : Binary64) (pairs : List (Qubit × Qubit)) :
    turns (cost gamma pairs) = List.replicate pairs.length (.z, gamma.double) := by
  induction pairs with
  | nil => rfl
  | cons p rest ih =>
      rw [cost, List.flatMap_cons, turns_append, List.length_cons, List.replicate_succ]
      exact congrArg _ ih

/-- A layer turns about Z once for each edge and then about X once for each qubit. -/
theorem turns_layer (width : Nat) (pairs : List (Qubit × Qubit)) (gamma beta : Binary64) :
    turns (layer width pairs gamma beta) =
      List.replicate pairs.length (.z, gamma.double) ++ List.replicate width (.x, beta.double) := by
  have hmixer : turns (mixer beta width) = (List.range width).map fun _ => (.x, beta.double) :=
    turns_map_some (fun _ => rfl) _
  rw [layer, turns_append, turns_cost, hmixer, List.map_const', List.length_range]

theorem length_cost (gamma : Binary64) (pairs : List (Qubit × Qubit)) :
    (cost gamma pairs).length = pairs.length * 3 := by
  have hedge : ∀ edge, (edgePhase gamma edge).length = 3 := fun _ => rfl
  exact length_flatMap_of_length hedge pairs

theorem length_layer (width : Nat) (pairs : List (Qubit × Qubit)) (gamma beta : Binary64) :
    (layer width pairs gamma beta).length = 3 * pairs.length + width := by
  rw [layer, List.length_append, length_cost, Nat.mul_comm, mixer, List.length_map, List.length_range]

end Qaoa

/-! ## One request -/

/-- How many angles the circuit of a family takes. -/
def Family.draws (family : Family) (width : Nat) (settings : Settings) : Nat :=
  match family with
  | .bell | .grover | .shor => 0
  | .vqe => 2 * width * settings.vqeLayers.toNat
  | .qaoa => 2 * settings.qaoaLayers.toNat

namespace Generate

/-- Where the drawn angles of a circuit are found. -/
def Carries (family : Family) (width : Nat) (edges : Option (List Edge)) (settings : Settings)
    (c : Circuit) (draw : Nat → Binary64) : Prop :=
  match family with
  | .bell | .grover | .shor => True
  | .vqe =>
      (turns c.gates).map Prod.snd =
        (List.range (2 * width * settings.vqeLayers.toNat)).map draw
  | .qaoa =>
      ∃ (pairs : List (Qubit × Qubit)) (layer : Nat → List Gate),
        Graph.edges width edges = .ok pairs ∧
        c.gates = (List.range width).map .h ++
          (List.range settings.qaoaLayers.toNat).flatMap layer ++ [.measure (List.range width)] ∧
        ∀ l, (layer l).length = 3 * pairs.length + width ∧
          turns (layer l) = List.replicate pairs.length (.z, (draw (2 * l)).double) ++
            List.replicate width (.x, (draw (2 * l + 1)).double)

variable {family : Family} {width : Nat} {edges : Option (List Edge)} {settings : Settings} {s : σ}

/-- A generator that fails takes no angle. -/
theorem state_of_direct_error (h : source.WithinTurn) {e : GenerationError}
    (he : (direct source family width edges settings s).1 = .error e) :
    (direct source family width edges settings s).2 = s := by
  cases family with
  | bell => rfl
  | grover => rfl
  | shor => rfl
  | vqe =>
      -- only an empty register is refused, and that before the first draw
      rcases Vqe.circuit_cases source width settings s with ⟨-, heq⟩ | ⟨hw, -⟩
      · rw [direct, heq]
      · rw [direct, Vqe.circuit_eq h hw] at he
        cases he
  | qaoa =>
      rcases Qaoa.circuit_cases source width edges settings s with
        ⟨-, heq⟩ | ⟨fault, -, -, heq⟩ | ⟨pairs, hw, hpairs, -⟩
      · rw [direct, heq]
      · rw [direct, heq]
      · rw [direct, Qaoa.circuit_eq h hw hpairs] at he
        cases he

/-- A generator that makes a circuit takes the angles of its family and puts them where they belong. -/
theorem carries_of_direct_ok (h : source.WithinTurn) {c : Circuit}
    (hc : (direct source family width edges settings s).1 = .ok c) :
    (direct source family width edges settings s).2 = source.after (family.draws width settings) s ∧
      Carries family width edges settings c (source.stream s) := by
  cases family with
  | bell => exact ⟨rfl, trivial⟩
  | grover => exact ⟨rfl, trivial⟩
  | shor => exact ⟨rfl, trivial⟩
  | vqe =>
      rcases Vqe.circuit_cases source width settings s with ⟨-, heq⟩ | ⟨hw, -⟩
      · rw [direct, heq] at hc
        cases hc
      · rw [direct, Vqe.circuit_eq h hw] at hc ⊢
        cases hc
        -- the measurement at the end has no turn
        obtain ⟨hturns, hstate⟩ := Vqe.turns_layers source width settings.vqeLayers.toNat s
        refine ⟨hstate, ?_⟩
        rw [Carries, turns_append, List.map_append, hturns]
        exact List.append_nil _
  | qaoa =>
      rcases Qaoa.circuit_cases source width edges settings s with
        ⟨-, heq⟩ | ⟨fault, -, -, heq⟩ | ⟨pairs, hw, hpairs, -⟩
      · rw [direct, heq] at hc
        cases hc
      · rw [direct, heq] at hc
        cases hc
      · rw [direct, Qaoa.circuit_eq h hw hpairs, Qaoa.layers_eq] at hc ⊢
        cases hc
        refine ⟨rfl, pairs, _, hpairs, rfl, ?_⟩
        intro l
        exact ⟨Qaoa.length_layer _ _ _ _, Qaoa.turns_layer _ _ _ _⟩

end Generate

namespace Request

/-- The family and the width that a request comes to, once its checks are passed. -/
def resolve : Request → Except GenerationError (Family × Nat)
  | .named id problem settings => Generate.accept id problem settings
  | .direct family width _ _ => .ok (family, width)

/-- The settings of a request. -/
def settings : Request → Settings
  | .named _ _ settings => settings
  | .direct _ _ _ settings => settings

/-- The edges of a request. -/
def edges : Request → Option (List Edge)
  | .named _ problem _ => problem.edges
  | .direct _ _ edges _ => edges

/-- A request that passes its checks is answered by the generator of its family. -/
theorem serve_eq (source : AngleSource σ) (request : Request) (s : σ) :
    request.serve source s = match request.resolve with
      | .error e => (.error e, s)
      | .ok (family, width) => Generate.direct source family width request.edges request.settings s := by
  cases request with
  | named id problem settings => rfl
  | direct family width edges settings => rfl

/-- How many angles a request takes that is answered so. -/
def drawn (request : Request) : Except GenerationError Circuit → Nat
  | .error _ => 0
  | .ok _ =>
      match request.resolve with
      | .error _ => 0
      | .ok (family, width) => family.draws width request.settings

/-- Where the drawn angles of an answer are found. -/
def Carries (request : Request) (c : Circuit) (draw : Nat → Binary64) : Prop :=
  ∃ family width, request.resolve = .ok (family, width) ∧
    Generate.Carries family width request.edges request.settings c draw

theorem serve_draws (h : source.WithinTurn) (request : Request) (s : σ) :
    (request.serve source s).2 = source.after (request.drawn (request.serve source s).1) s ∧
      ∀ c, (request.serve source s).1 = .ok c → request.Carries c (source.stream s) := by
  rw [serve_eq]
  cases hr : request.resolve with
  | error e => exact ⟨rfl, fun c hc => by cases hc⟩
  | ok resolved =>
      obtain ⟨family, width⟩ := resolved
      simp only
      cases hanswer : (Generate.direct source family width request.edges request.settings s).1 with
      -- a family that fails has drawn nothing
      | error e => exact ⟨Generate.state_of_direct_error h hanswer, fun c hc => by cases hc⟩
      | ok c =>
          obtain ⟨hstate, hcarries⟩ := Generate.carries_of_direct_ok h hanswer
          constructor
          · rw [hstate, drawn, hr]
          · intro c' hc'
            cases hc'
            exact ⟨family, width, hr, hcarries⟩

/-! ## Requests one after another -/

/-- How many angles some requests take that are answered so. -/
def totalDrawn : List Request → List (Except GenerationError Circuit) → Nat
  | request :: rest, answer :: answers => request.drawn answer + totalDrawn rest answers
  | _, _ => 0

theorem serveAll_cons (source : AngleSource σ) (request : Request) (rest : List Request) (s : σ) :
    serveAll source (request :: rest) s =
      ((request.serve source s).1 :: (serveAll source rest (request.serve source s).2).1,
        (serveAll source rest (request.serve source s).2).2) := rfl

theorem length_serveAll (source : AngleSource σ) (requests : List Request) (s : σ) :
    (serveAll source requests s).1.length = requests.length := by
  induction requests generalizing s with
  | nil => rfl
  | cons request rest ih =>
      rw [serveAll_cons, List.length_cons, List.length_cons, ih]

theorem state_serveAll (h : source.WithinTurn) (requests : List Request) (s : σ) :
    (serveAll source requests s).2 =
      source.after (totalDrawn requests (serveAll source requests s).1) s := by
  induction requests generalizing s with
  | nil => rfl
  | cons request rest ih =>
      obtain ⟨hstate, -⟩ := serve_draws h request s
      rw [serveAll_cons, totalDrawn, source.after_add, ← hstate]
      exact ih _

/-- Every answer is the one that the request would get after the draws of the requests before it. -/
theorem answer_serveAll (h : source.WithinTurn) {requests : List Request} {s : σ} {i : Nat}
    {request : Request} {answer : Except GenerationError Circuit}
    (hrequest : requests[i]? = some request)
    (hanswer : (serveAll source requests s).1[i]? = some answer) :
    answer = (request.serve source (source.after
      (totalDrawn (requests.take i) ((serveAll source requests s).1.take i)) s)).1 := by
  induction requests generalizing s i with
  | nil => cases hrequest
  | cons first rest ih =>
      obtain ⟨hstate, -⟩ := serve_draws h first s
      rw [serveAll_cons] at hanswer ⊢
      cases i with
      | zero =>
          cases hrequest
          cases hanswer
          rfl
      | succ i =>
          -- the first request moves the source, and the others are served from there
          have hrest := ih (s := (first.serve source s).2) hrequest hanswer
          rw [List.take_succ_cons, List.take_succ_cons, totalDrawn, source.after_add, ← hstate]
          exact hrest

/-- Requests that are served one after another from a source of angles within a turn leave it as many
draws further as their answers take. Each is answered as it would be after that number of draws for the
requests before it, takes its own draws and carries the next angles of the stream; so the answer to a
further request depends on the earlier ones by the number of their draws alone. -/
theorem serveAll_draws (source : AngleSource σ) (h : source.WithinTurn) (requests : List Request)
    (s : σ) :
    let answers := (serveAll source requests s).1
    answers.length = requests.length ∧
      (serveAll source requests s).2 = source.after (totalDrawn requests answers) s ∧
      (∀ i request answer, requests[i]? = some request → answers[i]? = some answer →
        ∃ t, t = source.after (totalDrawn (requests.take i) (answers.take i)) s ∧
          request.serve source t = (answer, source.after (request.drawn answer) t) ∧
          ∀ c, answer = .ok c → request.Carries c (source.stream t)) ∧
      ∀ others, totalDrawn others (serveAll source others s).1 = totalDrawn requests answers →
        ∀ next : Request, next.serve source (serveAll source others s).2 =
          next.serve source (serveAll source requests s).2 := by
  intro answers
  refine ⟨length_serveAll source requests s, state_serveAll h requests s, ?_, ?_⟩
  · intro i request answer hrequest hanswer
    refine ⟨_, rfl, ?_⟩
    have heq := answer_serveAll h hrequest hanswer
    obtain ⟨hstate, hcarries⟩ := serve_draws h request
      (source.after (totalDrawn (requests.take i) (answers.take i)) s)
    rw [← heq] at hstate hcarries
    exact ⟨Prod.ext heq.symm hstate, hcarries⟩
  · -- two rows that drew equally many angles leave the source in one state
    intro others hothers next
    rw [state_serveAll h others, state_serveAll h requests, hothers]

/-- Control: an unknown identifier and a loop take nothing, one layer on two qubits takes four angles of
xoshiro256++ and one layer over an edge two. Three layers without edges take as many, so that whatever is
asked next has the same answer. -/
theorem serveAll_draws_xoshiro :
    Xoshiro.angles.WithinTurn ∧
      ∃ requests others : List Request,
        requests = [.named "simon" .unknown .usual, .direct .vqe 2 none ⟨0, 0, 1, 0⟩,
          .direct .qaoa 3 (some [.pair 1 1]) .usual, .direct .qaoa 3 (some [.vertex 2]) ⟨0, 0, 0, 1⟩] ∧
        others = [.direct .qaoa 2 (some []) ⟨0, 0, 0, 3⟩] ∧
        (serveAll Xoshiro.angles requests (Xoshiro.ofSeed 7)).2 =
          Xoshiro.angles.after 6 (Xoshiro.ofSeed 7) ∧
        ∀ next : Request,
          next.serve Xoshiro.angles (serveAll Xoshiro.angles others (Xoshiro.ofSeed 7)).2 =
            next.serve Xoshiro.angles (serveAll Xoshiro.angles requests (Xoshiro.ofSeed 7)).2 := by
  have h := Xoshiro.withinTurn_angles
  refine ⟨h, _, _, rfl, rfl, ?_⟩
  obtain ⟨-, hstate, -, hothers⟩ := serveAll_draws Xoshiro.angles h
    [.named "simon" .unknown .usual, .direct .vqe 2 none ⟨0, 0, 1, 0⟩,
      .direct .qaoa 3 (some [.pair 1 1]) .usual, .direct .qaoa 3 (some [.vertex 2]) ⟨0, 0, 0, 1⟩]
    (Xoshiro.ofSeed 7)
  constructor
  · rw [hstate]
    exact congrArg (fun n => Xoshiro.angles.after n (Xoshiro.ofSeed 7)) (by decide +kernel)
  · intro next
    apply hothers
    decide +kernel

end Request

end QCircuit
