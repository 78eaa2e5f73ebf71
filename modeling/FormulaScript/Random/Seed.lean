/-! Spreading a seed. A seed of 32 bits is hashed into a pool of four words, the words are mixed
pairwise, and the pool is hashed again into the 256 bits that start a generator. Every step is a
multiplication and a shift on 32-bit words; the hash multiplier changes from step to step. -/

namespace FormulaScript.Random

/-- A word with its high half folded into its low half. -/
def fold (word : UInt32) : UInt32 := word ^^^ (word >>> 16)

/-- Hashes a word with the current multiplier, which `factor` turns into the next one. -/
def hashWord (factor multiplier word : UInt32) : UInt32 × UInt32 :=
  let next := multiplier * factor
  (fold ((word ^^^ multiplier) * next), next)

/-- Hashes words in order, each with the multiplier that the one before has left. -/
def hashWords (factor : UInt32) (multiplier : UInt32) : List UInt32 → List UInt32 × UInt32
  | [] => ([], multiplier)
  | word :: words =>
    let (hashed, next) := hashWord factor multiplier word
    let (others, last) := hashWords factor next words
    (hashed :: others, last)

/-- Mixes a hashed word into a word of the pool. -/
def mixWords (target source : UInt32) : UInt32 :=
  fold (0xca01f9dd * target - 0x4973f715 * source)

/-- The factor of the multipliers that fill and mix the pool. -/
def poolFactor : UInt32 := 0x931e8875

/-- The ordered pairs of distinct places of the pool, source first. -/
def poolPairs : List (Nat × Nat) :=
  (List.range 4).flatMap fun source =>
    (List.range 4).filterMap fun target => if target = source then none else some (source, target)

/-- Mixes the word at one place of the pool into the word at another. -/
def mixPair (state : List UInt32 × UInt32) (pair : Nat × Nat) : List UInt32 × UInt32 :=
  let (pool, multiplier) := state
  let (hashed, next) := hashWord poolFactor multiplier (pool.getD pair.1 0)
  (pool.set pair.2 (mixWords (pool.getD pair.2 0) hashed), next)

/-- The pool of a seed. -/
def seedPool (seed : UInt32) : List UInt32 :=
  (poolPairs.foldl mixPair (hashWords poolFactor 0x43b0d7e5 [seed, 0, 0, 0])).1

/-- The eight words that start a generator. -/
def seedWords (seed : UInt32) : List UInt32 :=
  let pool := seedPool seed
  (hashWords 0x58f38ded 0x8b51f9dd (pool ++ pool)).1

end FormulaScript.Random
