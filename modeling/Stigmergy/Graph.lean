import Stigmergy.Problem

/-!
# Problems given edge by edge

The states are whole numbers. Each state lists its candidates with their costs, in the order in
which an ant weighs them.
-/

namespace Stigmergy

/-- A path problem as a list of what can be done where. -/
structure Graph (α : Type) where
  nodes : Nat
  /-- The states that walks from the first nodes begin in; any other node is a state itself. -/
  starts : Array Int
  /-- The candidates of each state with their costs; the first entry of a state counts. -/
  edges : List (Int × List (Int × α))
  goals : List Int
  deriving Repr

namespace Graph

variable {α : Type}

/-- The candidates of a state, none if it is not listed. -/
def candidates (g : Graph α) (s : Int) : List (Int × α) := (g.edges.lookup s).getD []

/-- The steps after which a walk is given up: more than any run could wait for. -/
def patience : Nat := 1000000000000

def problem (g : Graph α) : Problem Int α where
  nodes := g.nodes
  start node := g.starts.getD node node
  successors s := some (g.candidates s)
  isGoal s := g.goals.contains s
  patience := patience
  stateWords := 1

end Graph

end Stigmergy
