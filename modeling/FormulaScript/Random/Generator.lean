import FormulaScript.Number.Binary64
import FormulaScript.Random.Seed

/-! A permuted congruential generator: 128 bits of state that each draw multiplies by a constant
and increments, and 64 bits of output, the two halves of the state combined and rotated by the
top bits. -/

namespace FormulaScript.Random

/-- The state of a generator and its increment. -/
structure Generator where
  state : BitVec 128
  increment : BitVec 128
deriving DecidableEq

namespace Generator

/-- The multiplier of the state. -/
def multiplier : BitVec 128 := 0x2360ED051FC65DA44385DF649FCCF645

/-- Moves the state one step on. -/
def step (generator : Generator) : Generator :=
  { generator with state := generator.state * multiplier + generator.increment }

/-- The four 32-bit words from an index on as one number, in pairs of which the first is the more
significant, each with its less significant word first. -/
def wide (words : List UInt32) (index : Nat) : BitVec 128 :=
  let word (offset : Nat) : BitVec 32 := (words.getD (index + offset) 0).toBitVec
  word 1 ++ word 0 ++ word 3 ++ word 2

/-- The generator that a seed starts. -/
def ofSeed (seed : UInt32) : Generator :=
  let words := seedWords seed
  let start : Generator := ⟨0, wide words 4 <<< 1 ||| 1⟩
  let begun := start.step
  { begun with state := begun.state + wide words 0 }.step

/-- The output for a state. -/
def output (state : BitVec 128) : BitVec 64 :=
  let high := state.extractLsb' 64 64
  let low := state.extractLsb' 0 64
  (high ^^^ low).rotateRight (state >>> 122).toNat

/-- Draws 64 bits. -/
def draw (generator : Generator) : BitVec 64 × Generator :=
  let next := generator.step
  (output next.state, next)

/-- Draws a number from the interval from 0 (included) to 1 (excluded), a multiple of
`2 ^ -53`. -/
def uniform (generator : Generator) : Float × Generator :=
  let (bits, next) := generator.draw
  (Number.nearest (bits >>> 11).toNat (Nat.pow 2 53), next)

end Generator

end FormulaScript.Random
