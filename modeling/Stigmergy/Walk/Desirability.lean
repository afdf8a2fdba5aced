import Stigmergy.Scalar

/-!
# The pull of a candidate

An ant weighs a candidate by `pheromone ^ alpha * (1 / cost) ^ beta`: what earlier ants left on the
way there, against how cheap the way is.
-/

namespace Stigmergy.Walk

variable {α : Type} [Scalar α]
open Scalar

/-- How attractive a cost is by itself. A free step is infinitely so whenever cost matters. -/
def appeal (cost beta : α) : α :=
  if IsZero cost then (if ofNat 0 < beta then infinity else ofNat 1) else pow (ofNat 1 / cost) beta

/-- The weight of a candidate. An infinite pull against none at all, whose product is no number,
counts as none. -/
def desirability (pheromone cost alpha beta : α) : α :=
  let weight := pow pheromone alpha * appeal cost beta
  if isNaN weight then ofNat 0 else weight

end Stigmergy.Walk
