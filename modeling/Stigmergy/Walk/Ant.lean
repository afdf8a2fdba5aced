import Stigmergy.Pheromone.Basic
import Stigmergy.Problem
import Stigmergy.Walk.Desirability
import Stigmergy.Walk.Roulette

/-!
# One ant's walk

From its state an ant weighs every candidate that the problem offers and goes on to one of them,
until it stands in a goal. It reads the pheromone and never changes it.

* `Violation`: how a problem can break its contract under an ant's feet.
* `Ant.step`: one move.
* `Ant.walk`: moves until a goal is reached. The source is handed back as the last draw left it,
  also when the walk ends without a trail.
-/

namespace Stigmergy

inductive Violation (S α : Type) where
  /-- No candidate in a state that is no goal. -/
  | deadEnd (state : S) (steps : Nat)
  /-- A candidate whose cost is negative or no number. -/
  | invalidCost (source target : S) (cost : α)
  deriving DecidableEq, Repr

def Violation.message {S α : Type} (state : S → String) (number : α → String) :
    Violation S α → String
  | .deadEnd s steps =>
    "problem contract violation: no successors from non-goal state " ++ state s ++ " after "
      ++ Nat.repr steps ++ " step(s)"
  | .invalidCost source target cost =>
    "problem contract violation: edge " ++ state source ++ " -> " ++ state target
      ++ " has invalid cost " ++ number cost

structure Guide (S α : Type) [Ord S] where
  pheromone : Pheromone S α
  /-- The weight of pheromone. -/
  alpha : α
  /-- The weight of cheapness. -/
  beta : α

structure Ant (S α : Type) where
  here : S
  /-- The states it came through, the latest first. -/
  behind : List S
  cost : α
  deriving DecidableEq, Repr

namespace Ant

variable {S α G : Type} [Ord S] [Std.TransOrd S] [Scalar α] [Random.WordSource G]
open Scalar

def setOut (start : S) : Ant S α := ⟨start, [], ofNat 0⟩

def goTo (ant : Ant S α) (candidate : S × α) : Ant S α :=
  ⟨candidate.1, ant.here :: ant.behind, ant.cost + candidate.2⟩

def trail (ant : Ant S α) : Trail S α := ⟨(ant.here :: ant.behind).reverse, ant.cost⟩

def isInvalid (cost : α) : Bool := isNaN cost || cost < ofNat 0

def weigh (guide : Guide S α) (state : S) (candidates : List (S × α)) : List α :=
  candidates.map fun (next, cost) =>
    Walk.desirability (guide.pheromone.level state next) cost guide.alpha guide.beta

/-- One move. All candidates are checked before one is drawn. -/
def step (p : Problem S α) (guide : Guide S α) (ant : Ant S α) (g : G) :
    Except (Halt (Violation S α)) (Ant S α) × G :=
  match p.successors ant.here with
  | none => (.error (.fault .unknownState), g)
  | some [] => (.error (.failure (.deadEnd ant.here ant.behind.length)), g)
  | some candidates =>
    match candidates.find? fun (_, cost) => isInvalid cost with
    | some (next, cost) => (.error (.failure (.invalidCost ant.here next cost)), g)
    | none =>
      match Walk.Roulette.spin (weigh guide ant.here candidates) g with
      | (.error f, g) => (.error (.fault f), g)
      | (.ok i, g) =>
        match candidates[i]? with
        | some candidate => (.ok (ant.goTo candidate), g)
        | none => (.error (.fault .unknownState), g)

/-- Moves until a goal is reached, at most as many as given. -/
def walk (p : Problem S α) (guide : Guide S α) :
    (moves : Nat) → Ant S α → G → Except (Halt (Violation S α)) (Trail S α) × G
  | 0, ant, g =>
    if p.isGoal ant.here then (.ok ant.trail, g) else (.error (.fault .endlessWalk), g)
  | moves + 1, ant, g =>
    if p.isGoal ant.here then (.ok ant.trail, g)
    else
      match ant.step p guide g with
      | (.error halt, g) => (.error halt, g)
      | (.ok ant, g) => walk p guide moves ant g

end Ant

def Problem.walk {S α G : Type} [Ord S] [Std.TransOrd S] [Scalar α] [Random.WordSource G]
    (p : Problem S α) (guide : Guide S α) (start : S) (g : G) :
    Except (Halt (Violation S α)) (Trail S α) × G :=
  Ant.walk p guide p.patience (Ant.setOut start) g

end Stigmergy
