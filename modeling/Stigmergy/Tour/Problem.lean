import Stigmergy.Problem
import Stigmergy.Tour.Cities
import Stigmergy.Tour.State

/-!
# Round trips as a path problem

From a city an ant may go to any city it has not visited. Once it has visited all, the only way is
the one back to where it began, and there the walk ends.
-/

namespace Stigmergy.Tour

variable {α : Type} [Scalar α]

/-- The cities that a tour among the first `n` has not visited. -/
def unvisited (n : Nat) (s : State) : List Nat := (List.range n).filter fun c => !s.hasVisited c

/-- The moves from a state among the first `n` cities, with their distances. There are none to tell
when a distance is asked for that does not exist. -/
def moves? (n : Nat) (distance? : Nat → Nat → Option α) (s : State) : Option (List (State × α)) :=
  match unvisited n s with
  | [] => (distance? s.current s.origin).map fun d => [(s.home, d)]
  | cities => cities.mapM fun c => (distance? s.current c).map fun d => (s.visit c, d)

/-- Whether a tour has visited the first `n` cities, no others, and is back. -/
def isClosed (n : Nat) (s : State) : Bool := s.visited = (1 <<< n) - 1 && s.current = s.origin

/-- Round trips through given cities. A tour takes one step per city, and one more if its first
state has not visited the city it stands on. -/
def Cities.problem (c : Cities α) : Problem State α :=
  let table := c.table
  { nodes := c.size
    start := State.start
    successors := moves? c.size (Cities.cell? table)
    isGoal := isClosed c.size
    patience := c.size + 1
    stateWords := 3 }

end Stigmergy.Tour
