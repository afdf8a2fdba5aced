import Stigmergy.Trail

/-!
# Bands

A band holds the pheromone of a bounded colony between two levels, so that no edge is ever ruled
out and none ever decides a walk by itself.

* `Band.initial`: from zero up to a large level, before any trail is known.
* `Band.derive`: the band of a trail. Its top is what the trail lays on an edge, over the share of
  pheromone that evaporation leaves. Its bottom is chosen so that at stagnation, where the trail's
  edges hold the top and all others the bottom, an ant takes the whole trail again with a given
  probability.
-/

namespace Stigmergy.Pheromone

/-- Two levels of pheromone, the lower one first. -/
structure Band (α : Type) where
  low : α
  high : α
  deriving DecidableEq, Repr

namespace Band

variable {S α : Type} [Scalar α]
open Scalar

def initial (infinity : α) : Band α := ⟨ofNat 0, infinity⟩

/-- The top of the band of a trail: `1 / (1 - rho) * q / cost`. -/
def top (cost rho q : α) : α := ofNat 1 / (ofNat 1 - rho) * q / cost

/-- The probability of a single right decision on a trail of `states` states, when all of them
together have the probability `pBest`. -/
def decision (states : Nat) (pBest : α) : α := pow pBest (ofNat 1 / ofNat states)

/-- The bottom of a band with the given top: `high * (1 - root) / ((avg - 1) * root)`, where `root`
is the probability of one decision and `avg`, half the number of states, the number of candidates
an ant has to decide between on average. With one candidate or less there is nothing to decide. -/
def bottom (high : α) (states : Nat) (pBest : α) : α :=
  let root := decision states pBest
  let avg := ofNat states / ofNat 2
  if ofNat 1 < avg then high * (ofNat 1 - root) / ((avg - ofNat 1) * root) else ofNat 0

/-- The band of a trail with the given cost and number of states. Its bottom is lowered to its top
where it would be above it. -/
def derive (cost : α) (states : Nat) (rho q pBest : α) : Band α :=
  let high := top cost rho q
  ⟨least (bottom high states pBest) high, high⟩

def ofTrail (t : Trail S α) (rho q pBest : α) : Band α := derive t.cost t.path.length rho q pBest

/-- Whether a level lies in the band, give or take a tolerance. -/
def contains (b : Band α) (level tolerance : α) : Bool :=
  b.low - tolerance ≤ level && level ≤ b.high + tolerance

end Band

end Stigmergy.Pheromone
