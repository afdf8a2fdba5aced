import Stigmergy.Random.Source

/-!
# Scripted words

A script deals out a fixed list of words, from the start again whenever it ends. A draw of either
width takes one word; the narrow draw keeps the word's low half.
-/

namespace Stigmergy.Random

/-- A list of words to deal out, and how many have been. -/
structure Script where
  words : Array UInt64
  used : Nat
  deriving DecidableEq, Repr

namespace Script

/-- The word that is due; an empty script deals zeros. -/
def due (s : Script) : UInt64 := s.words.getD (s.used % s.words.size) 0

def advance (s : Script) : Script := { s with used := s.used + 1 }

instance : WordSource Script where
  next32 s := (s.due.toUInt32, s.advance)
  next64 s := (s.due, s.advance)

end Script

end Stigmergy.Random
