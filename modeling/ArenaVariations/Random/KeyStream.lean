/-!
# Key streams

A key stream is the ChaCha stream cipher's output for a key: blocks of sixteen words, each made
from the key and the number of the block. The number of rounds is a parameter; fewer rounds are
faster, and for drawing variations twelve are plenty. The nonce is zero throughout.

`Key.ofSeed` stretches a seed of 64 bits to a key by eight steps of a linear congruence, each of
which is scrambled by a rotation whose amount depends on the state.
-/

namespace ArenaVariations.Random

/-- The words of a cipher block. -/
abbrev Block := Vector UInt32 16

/-- The words of a cipher key. -/
abbrev Key := Vector UInt32 8

/-- Rotate a word to the left. -/
def rotateLeft (x : UInt32) (amount : UInt32) : UInt32 :=
  (x <<< amount) ||| (x >>> (32 - amount))

/-- Rotate a word to the right. -/
def rotateRight (x : UInt32) (amount : UInt32) : UInt32 :=
  (x >>> amount) ||| (x <<< (32 - amount))

namespace Block

/-- Mix four words of a block. -/
def quarterRound (s : Block) (a b c d : Fin 16) : Block :=
  let s := s.set a (s[a] + s[b])
  let s := s.set d (rotateLeft (s[d] ^^^ s[a]) 16)
  let s := s.set c (s[c] + s[d])
  let s := s.set b (rotateLeft (s[b] ^^^ s[c]) 12)
  let s := s.set a (s[a] + s[b])
  let s := s.set d (rotateLeft (s[d] ^^^ s[a]) 8)
  let s := s.set c (s[c] + s[d])
  s.set b (rotateLeft (s[b] ^^^ s[c]) 7)

/-- Mix the columns of a block, and then its diagonals. -/
def doubleRound (s : Block) : Block :=
  let s := s.quarterRound 0 4 8 12
  let s := s.quarterRound 1 5 9 13
  let s := s.quarterRound 2 6 10 14
  let s := s.quarterRound 3 7 11 15
  let s := s.quarterRound 0 5 10 15
  let s := s.quarterRound 1 6 11 12
  let s := s.quarterRound 2 7 8 13
  s.quarterRound 3 4 9 14

/-- The block that is mixed for a key and a block number: four constants, the key, the number
with its low word first, and the nonce. -/
def start (key : Key) (number : UInt64) : Block :=
  let constants : Vector UInt32 4 := #v[0x61707865, 0x3320646e, 0x79622d32, 0x6b206574]
  constants ++ key ++ (#v[number.toUInt32, (number >>> 32).toUInt32, 0, 0] : Vector UInt32 4)

/-- A block of the key stream after so many double rounds. -/
def ofKey (doubleRounds : Nat) (key : Key) (number : UInt64) : Block :=
  let first := start key number
  Vector.zipWith (· + ·) (Nat.repeat doubleRound doubleRounds first) first

/-- The words of a block in pairs, the low word first. -/
def pairs (s : Block) : List UInt64 :=
  List.ofFn fun i : Fin 8 => s[2 * i.val].toUInt64 ||| (s[2 * i.val + 1].toUInt64 <<< 32)

end Block

namespace Key

/-- One step of the congruence that stretches a seed. -/
def advance (state : UInt64) : UInt64 :=
  state * 6364136223846793005 + 11634580027462260723

/-- The key word that a state of the congruence stands for. -/
def word (state : UInt64) : UInt32 :=
  rotateRight ((((state >>> 18) ^^^ state) >>> 27).toUInt32) (state >>> 59).toUInt32

/-- The key of a seed. -/
def ofSeed (seed : UInt64) : Key :=
  Vector.ofFn fun i => word (Nat.repeat advance (i.val + 1) seed)

end Key

end ArenaVariations.Random
