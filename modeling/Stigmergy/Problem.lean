/-!
# Path problems

A problem is a state space that ants walk through. It offers candidates for the next state, each
with a cost, and says where a walk ends; states are otherwise opaque. A problem keeps its contract
when it offers candidates in every state that is no goal, at costs that are numbers and not
negative.
-/

namespace Stigmergy

structure Problem (S α : Type) where
  /-- The number of nodes that a walk can start on. -/
  nodes : Nat
  /-- The state in which a walk that starts on a node begins. -/
  start : Nat → S
  /-- The candidates for the next state with the costs of going there; none for a state that names
  nothing of the problem. -/
  successors : S → Option (List (S × α))
  /-- Whether a walk ends in this state. -/
  isGoal : S → Bool
  /-- The number of steps after which a walk is given up. -/
  patience : Nat
  /-- The number of eight-byte words that a table keeps a state in. -/
  stateWords : Nat

end Stigmergy
