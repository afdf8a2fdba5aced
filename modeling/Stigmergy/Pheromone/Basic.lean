import Std.Data.ExtTreeMap
import Stigmergy.Fault
import Stigmergy.Pheromone.Band
import Stigmergy.Pheromone.Edge

/-!
# Pheromone

Every directed edge has a level of pheromone. The levels of the edges that something was laid on
are stored; every other edge is at the background. Two pheromones are equal when they store the
same edges at the same levels and have the same backgrounds, now and at first.

* `Pheromone.level`: the level of an edge.
* `Pheromone.lay`: adds to one edge; this is what makes an edge a stored one.
* `Pheromone.evaporate`: scales the stored levels and leaves the background as it is.
* `Pheromone.confine`: clamps the stored levels and the background into a band.
* `Pheromone.reset`: nothing stored, and the first background again.

`Pheromone.stored?` is what an edge stores, if anything; the lemmas at the end say what laying and
evaporation do to it, and that it decides equality.
-/

namespace Stigmergy

open Std (TransOrd ExtTreeMap)
open Pheromone (Edge Band)

structure Pheromone (S α : Type) [Ord S] where
  /-- The levels of the edges that something was laid on. -/
  stored : ExtTreeMap (Edge S) α
  /-- The level of every other edge. -/
  background : α
  /-- The background before anything happened. -/
  initial : α

namespace Pheromone

variable {S α : Type} [Ord S] [TransOrd S]

/-- One level everywhere, and nothing stored. -/
def uniform (initial : α) : Pheromone S α := ⟨∅, initial, initial⟩

def stored? (ph : Pheromone S α) (e : Edge S) : Option α := ph.stored[e]?

def level (ph : Pheromone S α) (source target : S) : α :=
  (ph.stored? ⟨source, target⟩).getD ph.background

def size (ph : Pheromone S α) : Nat := ph.stored.size

def isEmpty (ph : Pheromone S α) : Bool := ph.stored.isEmpty

/-- The stored edges with their levels, in the order of the edges. -/
def toList (ph : Pheromone S α) : List (Edge S × α) := ph.stored.toList

/-- The pheromone before anything happened to it. -/
def reset (ph : Pheromone S α) : Pheromone S α := uniform ph.initial

variable [Scalar α]

def lay (ph : Pheromone S α) (source target : S) (amount : α) : Pheromone S α :=
  { ph with stored := ph.stored.insert ⟨source, target⟩ (ph.level source target + amount) }

/-- A share `rho` of every stored level gone. -/
def evaporate (ph : Pheromone S α) (rho : α) : Pheromone S α :=
  { ph with stored := ph.stored.map fun _ level => level * (Scalar.ofNat 1 - rho) }

/-- Every level clamped into the band, which has to be in order. -/
def confine (ph : Pheromone S α) (b : Band α) : Except Fault (Pheromone S α) :=
  if b.low ≤ b.high then
    .ok { ph with
      stored := ph.stored.map fun _ level => Scalar.clamp b.low b.high level
      background := Scalar.clamp b.low b.high ph.background }
  else .error .invertedBand

/-! ## What edges store -/

omit [Scalar α] in
@[simp]
theorem stored?_uniform (initial : α) (e : Edge S) : (uniform initial).stored? e = none := by
  simp [stored?, uniform]

variable [Std.LawfulEqOrd S]

omit [Scalar α] in
/-- Pheromones that store the same levels and have the same backgrounds are equal. -/
theorem ext_stored? {a b : Pheromone S α} (stored : ∀ e, a.stored? e = b.stored? e)
    (background : a.background = b.background) (initial : a.initial = b.initial) : a = b := by
  obtain ⟨s, _, _⟩ := a
  obtain ⟨t, _, _⟩ := b
  obtain rfl : s = t := ExtTreeMap.ext_getElem? stored
  cases background
  cases initial
  rfl

theorem stored?_lay [DecidableEq S] (ph : Pheromone S α) (source target : S) (amount : α)
    (e : Edge S) :
    (ph.lay source target amount).stored? e =
      if ⟨source, target⟩ = e then some (ph.level source target + amount) else ph.stored? e := by
  simp only [stored?, lay, ExtTreeMap.getElem?_insert, Std.LawfulEqCmp.compare_eq_iff_eq]

@[simp]
theorem stored?_evaporate (ph : Pheromone S α) (rho : α) (e : Edge S) :
    (ph.evaporate rho).stored? e = (ph.stored? e).map (· * (Scalar.ofNat 1 - rho)) := by
  simp [stored?, evaporate]

end Pheromone

end Stigmergy
