import Stigmergy.Random.Source

/-!
# The key stream of ChaCha with eight rounds

* `Block.scramble`: the sixteen words of a block after four double rounds, added to the words
  before them.
* `Keystream`: a key and the place of the next word. The words of a stream are numbered from zero,
  sixteen to a block, so the stream's state is no more than its place.
* `Keystream.ofSeed`: the stream of a 64-bit seed, whose key words come from a congruential
  generator.
-/

namespace Stigmergy.Random

/-- The sixteen words that ChaCha works on. -/
abbrev Block := Vector UInt32 16

namespace Block

/-- The bits of a word, turned left by `k` places, `0 < k < 32`. -/
def turn (x k : UInt32) : UInt32 := (x <<< k) ||| (x >>> (32 - k))

/-- The quarter round on four words of a block. -/
def quarterRound (w : Block) (a b c d : Fin 16) : Block :=
  let w := w.set a (w[a] + w[b])
  let w := w.set d (turn (w[d] ^^^ w[a]) 16)
  let w := w.set c (w[c] + w[d])
  let w := w.set b (turn (w[b] ^^^ w[c]) 12)
  let w := w.set a (w[a] + w[b])
  let w := w.set d (turn (w[d] ^^^ w[a]) 8)
  let w := w.set c (w[c] + w[d])
  w.set b (turn (w[b] ^^^ w[c]) 7)

/-- A round on the columns of the block, then one on its diagonals. -/
def doubleRound (w : Block) : Block :=
  let w := quarterRound w 0 4 8 12
  let w := quarterRound w 1 5 9 13
  let w := quarterRound w 2 6 10 14
  let w := quarterRound w 3 7 11 15
  let w := quarterRound w 0 5 10 15
  let w := quarterRound w 1 6 11 12
  let w := quarterRound w 2 7 8 13
  quarterRound w 3 4 9 14

/-- Four double rounds, with the words before them added at the end. -/
def scramble (w : Block) : Block :=
  let mixed := doubleRound (doubleRound (doubleRound (doubleRound w)))
  Vector.zipWith (· + ·) mixed w

/-- The four words that every block starts with. -/
def constants : Vector UInt32 4 := #v[0x61707865, 0x3320646e, 0x79622d32, 0x6b206574]

/-- Block `n` of a key's stream: the constants, the key, the block's number and two zeros. -/
def ofKey (key : Vector UInt32 8) (n : UInt64) : Block :=
  scramble ((constants ++ key ++ #v[n.toUInt32, (n >>> 32).toUInt32, 0, 0]).cast rfl)

end Block

/-- A key's stream of words, read up to a place. -/
structure Keystream where
  key : Vector UInt32 8
  place : Nat
  deriving DecidableEq, Repr

namespace Keystream

def word (key : Vector UInt32 8) (place : Nat) : UInt32 :=
  (Block.ofKey key (place / 16).toUInt64).get ⟨place % 16, Nat.mod_lt _ (by decide)⟩

/-- The first word goes into the low half. -/
def join (low high : UInt32) : UInt64 := low.toUInt64 ||| (high.toUInt64 <<< 32)

instance : WordSource Keystream where
  next32 s := (word s.key s.place, { s with place := s.place + 1 })
  next64 s :=
    (join (word s.key s.place) (word s.key (s.place + 1)), { s with place := s.place + 2 })

/-- The congruential step between two key words. -/
def seedStep (state : UInt64) : UInt64 := state * 6364136223846793005 + 11634580027462260723

/-- The key word of a seeding state: some of its high bits, turned right by its highest five. -/
def seedWord (state : UInt64) : UInt32 :=
  let x := (((state >>> 18) ^^^ state) >>> 27).toUInt32
  let k := (state >>> 59).toUInt32
  (x >>> k) ||| (x <<< ((32 - k) % 32))

def keyOfSeed (seed : UInt64) : Vector UInt32 8 :=
  Vector.ofFn fun i => seedWord (Nat.repeat seedStep (i.val + 1) seed)

def ofSeed (seed : UInt64) : Keystream := ⟨keyOfSeed seed, 0⟩

example : (WordSource.next64 (ofSeed 42)).1 = 12578764544318200737 := by decide +kernel

end Keystream

end Stigmergy.Random
