/-!
# Random numbers

A seeded generator of 64-bit words (xoshiro256++). The seed is spread over the state by a linear
congruential sequence whose output is permuted. Numbers below a bound are drawn without bias.
-/
namespace FiniteDomain

structure Generator where
  s0 : UInt64
  s1 : UInt64
  s2 : UInt64
  s3 : UInt64
deriving DecidableEq, Inhabited

namespace Generator

private def rotateLeft64 (w k : UInt64) : UInt64 := (w <<< k) ||| (w >>> (64 - k))

private def rotateRight32 (w k : UInt32) : UInt32 :=
  if k = 0 then w else (w >>> k) ||| (w <<< (32 - k))

/-- One step of the seeding sequence: the next state, and 32 bits of output. -/
private def seedStep (state : UInt64) : UInt64 × UInt32 :=
  let next := state * 6364136223846793005 + 11634580027462260723
  let x := (((next >>> 18) ^^^ next) >>> 27).toUInt32
  (next, rotateRight32 x (next >>> 59).toUInt32)

/-- Two outputs of the seeding sequence as one word, the first in the low half. -/
private def seedWord (state : UInt64) : UInt64 × UInt64 :=
  let (state, low) := seedStep state
  let (state, high) := seedStep state
  (state, low.toUInt64 ||| (high.toUInt64 <<< 32))

def ofSeed (seed : UInt64) : Generator :=
  let (state, s0) := seedWord seed
  let (state, s1) := seedWord state
  let (state, s2) := seedWord state
  let (_, s3) := seedWord state
  ⟨s0, s1, s2, s3⟩

/-- The next 64 bits. -/
def next64 (g : Generator) : UInt64 × Generator :=
  let word := rotateLeft64 (g.s0 + g.s3) 23 + g.s0
  let s2 := g.s2 ^^^ g.s0
  let s3 := g.s3 ^^^ g.s1
  (word, ⟨g.s0 ^^^ s3, g.s1 ^^^ s2, s2 ^^^ (g.s1 <<< 17), rotateLeft64 s3 45⟩)

/-- The next 32 bits, the high half of a word. -/
def next32 (g : Generator) : Nat × Generator :=
  let (word, g) := g.next64
  ((word >>> 32).toNat, g)

/-- How many words of 32 bits there are. -/
def wordCount : Nat := 0x100000000

/-- The largest low half for which a product with `n` is accepted: one less than the greatest
multiple of `n` by a power of two within 32 bits. -/
def zone (n : Nat) : Nat := n <<< (31 - Nat.log2 n) - 1

/-- A number below `n`: the high half of a product of `n` with 32 random bits, drawn again while
the low half is beyond the zone. At least half the draws are accepted; after `redraws` of them the
next is taken as it is. -/
def belowWithin (n : Nat) : (redraws : Nat) → Generator → Nat × Generator
  | 0, g =>
    let (word, g) := g.next32
    (word * n / wordCount, g)
  | redraws + 1, g =>
    let (word, g) := g.next32
    if word * n % wordCount ≤ zone n then (word * n / wordCount, g)
    else belowWithin n redraws g

def below (n : Nat) (g : Generator) : Nat × Generator := belowWithin n 1024 g

end Generator

end FiniteDomain
