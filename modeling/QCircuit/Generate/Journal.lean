import QCircuit.Generate

/-!
# The journal of a request

What is worth a note while a named request is served, in order. The journal is a function of the
request alone: keeping it has no part in making the circuit. A request that fails a check leaves no
note; one whose generator fails leaves the notes up to the failure.
-/

set_option autoImplicit false

namespace QCircuit

/-- Something worth a note. -/
inductive Event where
  /-- A generator starts on the width of a problem. -/
  | started (family : Family) (width : Nat)
  /-- The rounds of a search are counted. -/
  | rounds (width optimal applied : Nat)
  /-- A register is split in two. -/
  | split (width controls targets : Nat)
  /-- A problem graph is found sound. -/
  | graph (width edges : Nat)
  /-- A circuit is made. -/
  | finished (circuit : String) (width gates : Nat)
deriving DecidableEq

/-- How much a note matters: a result, or a detail on the way to it. -/
inductive Importance where
  | result
  | detail
deriving DecidableEq

namespace Importance

/-- The least verbosity at which notes are shown. -/
def threshold : Importance → Nat
  | .result => 1
  | .detail => 2

/-- The mark in front of a note. -/
def mark : Importance → String
  | .result => " INFO"
  | .detail => "DEBUG"

end Importance

namespace Event

/-- How much an event matters. -/
def importance : Event → Importance
  | .finished _ _ _ => .result
  | _ => .detail

/-- The words of a note and the values that belong to it. -/
def note : Event → String
  | .started family width =>
      "generating circuit algorithm=" ++ family.title ++ s!" num_qubits={width}"
  | .rounds width optimal applied =>
      s!"grover iteration count num_qubits={width} optimal={optimal} iterations={applied}"
  | .split width controls targets =>
      s!"shor register split width={width} control_qubits={controls} target_qubits={targets}"
  | .graph width edges => s!"qaoa problem graph num_qubits={width} edges={edges}"
  | .finished circuit width gates =>
      "generated circuit algorithm=\"" ++ circuit ++ s!"\" num_qubits={width} num_gates={gates}"

/-- The line of an event. -/
def line (event : Event) : String := event.importance.mark ++ " " ++ event.note

/-- The end of a request that made a circuit. -/
def ofCircuit (c : Circuit) : Event := .finished c.algorithm c.width c.size

end Event

namespace Journal

/-- The events of the generator of a family. -/
def ofGenerator (family : Family) (width : Nat) (edges : Option (List Edge))
    (settings : Settings) : List Event :=
  match family with
  | .grover =>
      [.rounds width (Grover.optimalIterations width) (Grover.appliedIterations width settings)]
  | .shor =>
      let full := Shor.fullWidth width settings
      [.split full (Shor.controls full) (Shor.targets full)]
  | .qaoa =>
      match Graph.edges width edges with
      | .ok edges => [.graph width edges.length]
      | .error _ => []
  | _ => []

/-- The events of a named request before its end. -/
def ofRequest (id : String) (problem : Problem) (settings : Settings) : List Event :=
  match Generate.accept id problem settings with
  | .ok (family, width) => .started family width :: ofGenerator family width problem.edges settings
  | .error _ => []

/-- The lines that are shown of some events at a verbosity. -/
def shown (verbosity : Nat) (events : List Event) : List String :=
  (events.filter fun event => event.importance.threshold ≤ verbosity).map Event.line

end Journal

end QCircuit
