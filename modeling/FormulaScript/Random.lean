import FormulaScript.Number.Rounding
import FormulaScript.Random.Generator

/-! The source of random numbers of a session. Normal deviates come in pairs: two uniform draws
make two of them, and the second is kept for the next request. Reseeding restarts the generator
and drops a deviate that is kept. -/

namespace FormulaScript

/-- The ratio of a circle's circumference to its diameter. -/
def pi : Float := 3.141592653589793

/-- A generator with the seed that it was last given, if any, and the normal deviate it keeps. -/
structure Random where
  seed : Option UInt32
  generator : Random.Generator
  spare : Option Float := none

namespace Random

/-- A source that starts with a seed. -/
def ofSeed (seed : UInt32) : Random := ⟨some seed, .ofSeed seed, none⟩

/-- A source without a seed of its own, whose draws follow from some entropy. -/
def unseeded (entropy : UInt32) : Random := ⟨none, .ofSeed entropy, none⟩

/-- Restarts the source with a seed. -/
def reseed (_ : Random) (seed : UInt32) : Random := .ofSeed seed

/-- A number from 0 (included) to 1 (excluded). -/
def uniform (random : Random) : Float × Random :=
  let (value, generator) := random.generator.uniform
  (value, { random with generator })

/-- The pair of normal deviates that two uniform draws make, first the one of the sine. The
logarithm is taken of a number above 0. -/
def normalPair (first second : Float) : Float × Float :=
  let radius := Float.sqrt (-2.0 * Float.log (1.0 - first))
  let angle := 2.0 * pi * second
  (radius * Float.sin angle, radius * Float.cos angle)

/-- A normal deviate of mean 0 and standard deviation 1: the one that is kept, or the first of a
new pair, the second of which is kept. -/
def normal (random : Random) : Float × Random :=
  match random.spare with
  | some value => (value, { random with spare := none })
  | none =>
    let (first, random) := random.uniform
    let (second, random) := random.uniform
    let (value, spare) := normalPair first second
    (value, { random with spare := some spare })

/-- The seed that a value stands for: its integer part modulo `2 ^ 32`, and 0 for a value that is
not finite. -/
def seedOfValue (value : Float) : UInt32 :=
  if Number.isFinite value then UInt32.ofNat (Number.integerPart value % UInt32.size).toNat else 0

end Random

end FormulaScript
