import Stigmergy.Scalar

/-!
# Trails

* `Trail`: the states an ant went through and what the way cost.
* `Trail.unbounded`: the trail that every real one improves on.
* `Trail.edges`: the steps of a trail, as pairs of consecutive states.
-/

namespace Stigmergy

structure Trail (S α : Type) where
  /-- The states in order, the start first. -/
  path : List S
  cost : α
  deriving DecidableEq, Repr

def consecutive {S : Type} (path : List S) : List (S × S) := path.zip path.tail

namespace Trail

variable {S α : Type}

/-- No states at infinite cost, the best trail of a run that has found none. -/
def unbounded [Scalar α] : Trail S α := ⟨[], Scalar.infinity⟩

def edges (t : Trail S α) : List (S × S) := consecutive t.path

/-- The number of steps. -/
def transitions (t : Trail S α) : Nat := t.path.length - 1

def isEmpty (t : Trail S α) : Bool := t.path.isEmpty

@[simp]
theorem length_edges (t : Trail S α) : t.edges.length = t.transitions := by
  simp [edges, consecutive, transitions]

end Trail

end Stigmergy
