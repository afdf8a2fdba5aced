/-!
# Word sources

A source of random words is a state and two ways to draw from it. Whatever draws numbers does so
through this class, so it runs on a cipher's key stream and on a fixed script alike.
-/

namespace Stigmergy.Random

/-- States from which words of two widths are drawn, each draw with the state after it. -/
class WordSource (G : Type) where
  /-- A word below `2 ^ 32`. -/
  next32 : G → UInt32 × G
  /-- A word below `2 ^ 64`. -/
  next64 : G → UInt64 × G

end Stigmergy.Random
