import QCircuit.Generate.Bell
import QCircuit.Generate.Grover
import QCircuit.Generate.Qaoa
import QCircuit.Generate.Shor
import QCircuit.Generate.Vqe
import QCircuit.Problem.Sizing

/-!
# Generating circuits

A request for a circuit names a family and a problem, or asks one generator directly for a width. A
named request goes through the checks in a fixed order, the identifier, the settings, the item count,
and then through the generator of the family; a direct request skips them. Requests served one after
another share one source of angles, and a request that fails leaves the source as it was.
-/

set_option autoImplicit false

namespace QCircuit

/-- A request for a circuit. -/
inductive Request where
  /-- The circuit of the family with an identifier for a problem. -/
  | named (id : String) (problem : Problem) (settings : Settings)
  /-- The circuit that the generator of a family makes for a width; only one of them looks at
  edges. -/
  | direct (family : Family) (width : Nat) (edges : Option (List Edge)) (settings : Settings)

namespace Generate

variable {σ : Type}

/-- The circuit that the generator of a family makes, and the source after its draws. -/
def direct (source : AngleSource σ) (family : Family) (width : Nat) (edges : Option (List Edge))
    (settings : Settings) (s : σ) : Except GenerationError Circuit × σ :=
  match family with
  | .bell => (Bell.circuit.mapError .circuit, s)
  | .grover => ((Grover.circuit width settings).mapError .circuit, s)
  | .shor => ((Shor.circuit width settings).mapError .circuit, s)
  | .vqe =>
      let (result, s) := Vqe.circuit source width settings s
      (result.mapError .circuit, s)
  | .qaoa => Qaoa.circuit source width edges settings s

/-- The width of the family with an identifier for a problem, once the checks are passed. -/
def accept (id : String) (problem : Problem) (settings : Settings) :
    Except GenerationError (Family × Nat) :=
  match Family.ofId? id with
  | none => .error (.unknownFamily id)
  | some family =>
      match settings.excess? with
      | some excess => .error (.invalidInput (.settingTooLarge excess))
      | none =>
          match family.widthFor problem with
          | .error fault => .error (.invalidInput fault)
          | .ok width => .ok (family, width)

/-- The circuit of the family with an identifier for a problem, and the source after its draws. -/
def named (source : AngleSource σ) (id : String) (problem : Problem) (settings : Settings) (s : σ) :
    Except GenerationError Circuit × σ :=
  match accept id problem settings with
  | .error error => (.error error, s)
  | .ok (family, width) => direct source family width problem.edges settings s

end Generate

namespace Request

variable {σ : Type}

/-- The answer to a request, and the source after its draws. -/
def serve (source : AngleSource σ) (request : Request) (s : σ) :
    Except GenerationError Circuit × σ :=
  match request with
  | .named id problem settings => Generate.named source id problem settings s
  | .direct family width edges settings => Generate.direct source family width edges settings s

/-- The answers to requests served one after another, and the source after all draws. -/
def serveAll (source : AngleSource σ) : List Request → σ → List (Except GenerationError Circuit) × σ
  | [], s => ([], s)
  | request :: rest, s =>
      let (answer, s) := request.serve source s
      let (answers, s) := serveAll source rest s
      (answer :: answers, s)

end Request

end QCircuit
