import Stigmergy.Pheromone.Band
import Stigmergy.Settings.Basic

/-!
# What a run reports

A run reports its events in order. A `History` gathers the costs and improvements among them.
-/

namespace Stigmergy

inductive Event (S α : Type) where
  | started (variant : Variant) (nodes ants iterations : Nat)
  /-- An ant of the iteration has finished its trail. -/
  | antFinished (cost : α)
  /-- The cheapest trail of an iteration is known. -/
  | iterationBest (cost : α)
  /-- The band has moved, because the best trail has changed. -/
  | bandMoved (iteration : Nat) (band : Pheromone.Band α)
  /-- A trail is cheaper than all before it. -/
  | improved (iteration : Nat) (trail : Trail S α)
  | iterationEnded (iteration : Nat) (iterationBest best : α) (depositors edges : Nat)
  | finished (best : α) (bestIteration edges : Nat)
  deriving DecidableEq, Repr

/-- The costs and improvements of a run, each in the order they came. -/
structure History (S α : Type) where
  antCosts : Array α
  iterationBests : Array α
  improvements : Array (Trail S α)
  deriving DecidableEq, Repr

namespace History

variable {S α : Type}

def empty : History S α := ⟨#[], #[], #[]⟩

def addAnt (h : History S α) (cost : α) : History S α := { h with antCosts := h.antCosts.push cost }

def addIteration (h : History S α) (cost : α) : History S α :=
  { h with iterationBests := h.iterationBests.push cost }

def addImprovement (h : History S α) (trail : Trail S α) : History S α :=
  { h with improvements := h.improvements.push trail }

def record (h : History S α) : Event S α → History S α
  | .antFinished cost => h.addAnt cost
  | .iterationBest cost => h.addIteration cost
  | .improved _ trail => h.addImprovement trail
  | _ => h

def ofEvents (events : Array (Event S α)) : History S α := events.foldl record empty

end History

end Stigmergy
