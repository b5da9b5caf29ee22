import QCircuit.Draw

/-!
# The xoshiro256++ generator

A generator of 64-bit words with four words of state. It is seeded from one word by a congruential
generator whose permuted output fills the state thirty-two bits at a time, low half first.

An angle takes the upper fifty-two bits of one word as a fraction of a full turn. The product is
rounded once, and the greatest fraction still gives less than a full turn, so no draw has to be
repeated.
-/

set_option autoImplicit false

namespace QCircuit

/-- The state of the generator. -/
structure Xoshiro where
  s0 : UInt64
  s1 : UInt64
  s2 : UInt64
  s3 : UInt64
deriving DecidableEq

namespace Xoshiro

/-- A word turned left by fewer than sixty-four places. -/
def rotateLeft (x : UInt64) (places : UInt64) : UInt64 :=
  (x <<< places) ||| (x >>> (64 - places))

/-- The next state of the seeding generator. -/
def seedStep (state : UInt64) : UInt64 := state * 6364136223846793005 + 11634580027462260723

/-- The thirty-two bits that a state of the seeding generator gives. -/
def seedOutput (state : UInt64) : UInt32 :=
  let mixed := (((state >>> 18) ^^^ state) >>> 27).toUInt32
  let places := (state >>> 59).toUInt32
  (mixed >>> places) ||| (mixed <<< ((32 - places) % 32))

/-- The word that two steps of the seeding generator give, and the state after them. -/
def seedWord (state : UInt64) : UInt64 × UInt64 :=
  let low := seedStep state
  let high := seedStep low
  ((seedOutput low).toUInt64 ||| ((seedOutput high).toUInt64 <<< 32), high)

/-- The generator of a seed. -/
def ofSeed (seed : UInt64) : Xoshiro :=
  let (s0, state) := seedWord seed
  let (s1, state) := seedWord state
  let (s2, state) := seedWord state
  let (s3, _) := seedWord state
  ⟨s0, s1, s2, s3⟩

/-- The next word, and the state after it. -/
def next (x : Xoshiro) : UInt64 × Xoshiro :=
  let word := rotateLeft (x.s0 + x.s3) 23 + x.s0
  let t := x.s1 <<< 17
  let s2 := x.s2 ^^^ x.s0
  let s3 := x.s3 ^^^ x.s1
  let s1 := x.s1 ^^^ s2
  let s0 := x.s0 ^^^ s3
  (word, ⟨s0, s1, s2 ^^^ t, rotateLeft s3 45⟩)

/-- The angle that a word gives. -/
def angle (word : UInt64) : Binary64 :=
  Binary64.scale (word.toNat / 2 ^ 12) (2 ^ 52) Binary64.tau

/-- The generator as a source of angles. -/
def angles : AngleSource Xoshiro :=
  ⟨fun x =>
    let (word, x) := x.next
    (angle word, x)⟩

end Xoshiro

end QCircuit
