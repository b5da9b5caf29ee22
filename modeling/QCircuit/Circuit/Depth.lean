import QCircuit.Circuit

/-!
# Depth

The depth of a circuit is found wire by wire. A broadcast gate adds a layer on each of its targets,
once for each time the target is listed; any other gate needs all of its qubits at once, so it goes to
the layer above the highest of them. The depth is the height of the highest wire.
-/

set_option autoImplicit false

namespace QCircuit

/-- The layers filled so far on each wire. A wire that is not listed has none. -/
abbrev Heights : Type := List (Qubit × Nat)

namespace Heights

/-- The layers filled on a wire. -/
def height (heights : Heights) (q : Qubit) : Nat := (heights.lookup q).getD 0

/-- Sets the height of a wire. -/
def set (q : Qubit) (height : Nat) : Heights → Heights
  | [] => [(q, height)]
  | (p, other) :: rest => if q = p then (p, height) :: rest else (p, other) :: set q height rest

/-- The greatest height among some wires. -/
def top (heights : Heights) (qubits : List Qubit) : Nat :=
  qubits.foldl (fun height q => max height (heights.height q)) 0

/-- One layer more on a wire. -/
def raise (heights : Heights) (q : Qubit) : Heights := heights.set q (heights.height q + 1)

/-- The heights after a gate. -/
def place (heights : Heights) (g : Gate) : Heights :=
  if g.isBroadcast then g.targets.foldl raise heights
  else
    let layer := heights.top g.qubits + 1
    g.qubits.foldl (fun heights q => heights.set q layer) heights

/-- The height of the highest wire. -/
def highest (heights : Heights) : Nat := heights.foldl (fun height wire => max height wire.2) 0

end Heights

/-- The heights of the wires after a row of gates. -/
def heightsOf (gates : List Gate) : Heights := gates.foldl Heights.place []

/-- The depth of a circuit. -/
def Circuit.depth (c : Circuit) : Nat := (heightsOf c.gates).highest

end QCircuit
