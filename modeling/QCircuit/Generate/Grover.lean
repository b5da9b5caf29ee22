import QCircuit.Binary64.Rounding
import QCircuit.Circuit.Builder
import QCircuit.Family
import QCircuit.Settings

/-!
# Grover search

All qubits are put in superposition, then a number of rounds of an oracle and a diffusion follow, and
all qubits are measured.

The best number of rounds is the whole part of `π / 4 * √(2 ^ n)`, computed in double precision: the
root is exact for even `n` and a power of two times the word of `√2` for odd `n`, so only one product
is rounded, and the rest is a power of two. It is kept within 64 bits. The settings cap it.
-/

set_option autoImplicit false

namespace QCircuit.Grover

/-- The greatest count of 64 bits. -/
def maxCount : Nat := 2 ^ 64 - 1

/-- What the power of two is multiplied with: an eighth of a turn, for odd widths times the root of
two. -/
def coefficient (width : Nat) : Binary64 :=
  if width % 2 = 0 then Binary64.quarterPi
  else Binary64.mul Binary64.quarterPi Binary64.sqrtTwo

/-- The best number of rounds. From width 1024 on the size of the search space is infinite in double
precision. -/
def optimalIterations (width : Nat) : Nat :=
  if width < 1024 then min maxCount ((coefficient width).floorMulTwoPow (width / 2)) else maxCount

/-- The number of rounds under the cap of the settings. -/
def appliedIterations (width : Nat) (settings : Settings) : Nat :=
  min (optimalIterations width) settings.groverMaxIterations.toNat

/-- Every qubit but the last controls the last. -/
def fan (width : Nat) : List Gate :=
  (List.range (width - 1)).map fun i => .cx i (width - 1)

/-- Marks the state that is searched for. -/
def oracle (width : Nat) : List Gate := .x (width - 1) :: fan width ++ [.x (width - 1)]

/-- Reflects about the mean. -/
def diffusion (width : Nat) : List Gate :=
  ((List.range width).flatMap fun i => [.h i, .x i]) ++ fan width ++
    (List.range width).flatMap fun i => [.x i, .h i]

/-- One round. -/
def round (width : Nat) : List Gate := oracle width ++ diffusion width

/-- The gates of a circuit with some number of rounds. -/
def gates (width rounds : Nat) : List Gate :=
  (List.range width).map .h ++ (List.replicate rounds (round width)).flatten ++
    [.measure (List.range width)]

/-- The size of the search space, kept within 64 bits. -/
def searchSpace (width : Nat) : Nat := if width < 64 then 2 ^ width else maxCount

/-- What is recorded of a circuit. -/
def metadata (width : Nat) (settings : Settings) : Json.Members :=
  [("type", .str "search"), ("description", .str Family.grover.summary),
    ("search_space", .nat (searchSpace width)),
    ("iterations", .nat (appliedIterations width settings)),
    ("optimal_iterations", .nat (optimalIterations width)),
    ("speedup", .str "O(√N)")]

/-- The circuit of a width. -/
def circuit (width : Nat) (settings : Settings) : Except CircuitError Circuit :=
  Circuit.build Family.grover.title width (gates width (appliedIterations width settings))
    (metadata width settings)

end QCircuit.Grover
