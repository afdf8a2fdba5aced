import Stigmergy.Scalar

/-!
# Settings

* `Variant`: the four rules for who lays pheromone, and how much.
* `Settings`: everything a run depends on apart from the problem.
* `Settings.standard`, `Settings.preset`: the usual values, and those of each variant.
-/

namespace Stigmergy

/-- Who lays pheromone after an iteration. -/
inductive Variant where
  /-- Every ant, all alike. -/
  | antSystem
  /-- Every ant, and the best trail of the run with a bonus. -/
  | elitist
  /-- Only the best trail of the run, with all pheromone kept in a band. -/
  | maxMin
  /-- The ants with the cheapest trails, the cheaper the more. -/
  | rankBased
  deriving DecidableEq, Repr

def Variant.name : Variant → String
  | .antSystem => "AntSystem"
  | .elitist => "Elitist"
  | .maxMin => "MaxMin"
  | .rankBased => "RankBased"

def Variant.ofName? (name : String) : Option Variant :=
  [.antSystem, .elitist, .maxMin, .rankBased].find? fun v => v.name = name

theorem Variant.ofName?_name (v : Variant) : Variant.ofName? v.name = some v := by
  cases v <;> decide

/-- Whether a variant keeps its pheromone in a band. -/
def Variant.isBounded (v : Variant) : Bool := v = .maxMin

structure Settings (α : Type) where
  variant : Variant
  /-- The weight of pheromone in a decision. -/
  alpha : α
  /-- The weight of cheapness in a decision. -/
  beta : α
  /-- The share of pheromone that is gone after an iteration. -/
  rho : α
  /-- The pheromone that a trail of cost one lays. -/
  q : α
  /-- The bonus of the best trail, or the number of ranks that lay pheromone. -/
  elitist : Nat
  /-- The number of ants, or zero for one ant per node. -/
  ants : Nat
  iterations : Nat
  /-- The top of the first band. -/
  infinity : α
  /-- The probability that the best trail is taken whole at stagnation. -/
  pBest : α
  /-- Whether the walks of an iteration may run at the same time. -/
  parallel : Bool
  /-- Whether every ant's cost is reported. -/
  reportsAnts : Bool
  /-- Where a run's random words begin, if that is fixed. -/
  seed : Option UInt64
  deriving DecidableEq, Repr

namespace Settings

variable {α : Type} [Scalar α]
open Scalar

def standard : Settings α where
  variant := .antSystem
  alpha := ofNat 1
  beta := ofNat 3
  rho := ratio 4 10
  q := ofNat 1
  elitist := 3
  ants := 0
  iterations := 100
  infinity := ofNat 1000000000
  pBest := ratio 5 100
  parallel := false
  reportsAnts := false
  seed := none

/-- The values that suit a variant. A bounded colony forgets slowly, since its band keeps it from
settling; ranks want more ants to share, and a longer memory than the usual one. -/
def preset : Variant → Settings α
  | .antSystem => standard
  | .elitist => { standard with variant := .elitist }
  | .maxMin => { standard with variant := .maxMin, infinity := ofNat 100000, rho := ratio 2 100 }
  | .rankBased => { standard with variant := .rankBased, elitist := 6, rho := ratio 1 10 }

def antCount (s : Settings α) (nodes : Nat) : Nat := if s.ants = 0 then nodes else s.ants

/-- The pheromone on every edge before the first iteration: the top of the band if there is one, so
that it can only sink, and else next to nothing. -/
def initialPheromone (s : Settings α) : α :=
  if s.variant.isBounded then s.infinity else ratio 1 1000000

end Settings

end Stigmergy
