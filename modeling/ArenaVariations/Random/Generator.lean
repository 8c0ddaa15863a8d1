import ArenaVariations.Random.KeyStream

/-!
# Random generators

A `Generator` hands out the words of a key stream one after the other, and draws from a range of
numbers without bias: a word is scaled to the range by a wide multiplication, and words whose low
half falls into the last, incomplete part of the range are refused.

Every draw lies in its range, whatever the state of the generator.
-/

namespace ArenaVariations.Random

/-- A seeded source of words. -/
structure Generator where
  key : Key
  /-- The number of the next block. -/
  block : UInt64
  /-- The words of the last block that are still to be handed out. -/
  ready : List UInt64

namespace Generator

/-- The generator of a seed. -/
def ofSeed (seed : UInt64) : Generator :=
  ⟨Key.ofSeed seed, 0, []⟩

/-- The next word. -/
def next (g : Generator) : UInt64 × Generator :=
  match g.ready with
  | word :: rest => (word, { g with ready := rest })
  | [] =>
    let words := (Block.ofKey 6 g.key g.block).pairs
    (words.headD 0, ⟨g.key, g.block + 1, words.tail⟩)

/-- The largest low half with which a word is accepted for a range of so many numbers: the range
times the largest power of two for which the product fits a word, less one. -/
def acceptance (size : Nat) : Nat :=
  size <<< (63 - size.log2) - 1

/-- Scaling a word to a range leaves it in the range. -/
theorem scaled_lt (word : UInt64) (last : Nat) :
    word.toNat * (last + 1) / Nat.pow 2 64 < last + 1 :=
  Nat.div_lt_of_lt_mul (Nat.mul_lt_mul_of_pos_right word.toNat_lt (Nat.succ_pos last))

/-- Draw one of the numbers up to and including `last`, refusing at most so many words. More than
half of all words are accepted. -/
def drawWithin (last : Nat) : Nat → Generator → Fin (last + 1) × Generator
  | refusals, g =>
    let (word, g) := g.next
    let choice : Fin (last + 1) := ⟨word.toNat * (last + 1) / Nat.pow 2 64, scaled_lt word last⟩
    match refusals with
    | 0 => (choice, g)
    | refusals + 1 =>
      if word.toNat * (last + 1) % Nat.pow 2 64 ≤ acceptance (last + 1) then (choice, g)
      else drawWithin last refusals g

/-- Draw one of the numbers up to and including `last`. -/
def draw (g : Generator) (last : Nat) : Fin (last + 1) × Generator :=
  drawWithin last 4096 g

end Generator

end ArenaVariations.Random
