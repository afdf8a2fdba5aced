import Stigmergy.Deposit.Ranking
import Stigmergy.Pheromone.Basic
import Stigmergy.Settings.Basic

/-!
# Laying pheromone

After an iteration all pheromone evaporates a little, and some trails lay new pheromone on their
edges: `weight * (q / cost)` on each. If there is a band, all levels are confined to it after the
evaporation and after every trail.

* `shares`: the trails that lay pheromone, with their weights, by the variant's rule.
* `layTrail`, `layAll`: one trail's pheromone, and that of all.
* `evaporate`, `update`: the evaporation alone, and a whole update.
-/

namespace Stigmergy.Deposit

open Std (TransOrd)
open Pheromone (Band)

variable {S α : Type} [Ord S] [TransOrd S] [Scalar α]
open Scalar

/-- The pheromone that a trail of weight one lays on each edge. -/
def amount (q cost : α) : α := q / cost

/-- The trails that share the deposit by rank, each with its index and its weight: the cheapest one
has the weight `elitist`, and the weights go down by one from rank to rank. -/
def rankShares (elitist : Nat) (trails : List (Trail S α)) : List ((Trail S α × Nat) × Nat) :=
  ((ranked trails).take (min elitist trails.length)).zipIdx.map fun (entry, rank) =>
    (entry, elitist - rank)

/-- The trails that lay pheromone, in order, with their weights. -/
def shares (s : Settings α) (trails : List (Trail S α)) (best : Trail S α) :
    List (Trail S α × α) :=
  match s.variant with
  | .antSystem => trails.map (·, ofNat 1)
  | .elitist => (best, ofNat 1 + ofNat s.elitist) :: trails.map (·, ofNat 1)
  | .maxMin => [(best, ofNat 1)]
  | .rankBased =>
    (rankShares s.elitist trails).map fun ((trail, _), weight) => (trail, ofNat weight)

/-- The number of trails that lay pheromone; the best trail's bonus does not count. -/
def depositors (s : Settings α) (trails : List (Trail S α)) : Nat :=
  match s.variant with
  | .antSystem | .elitist => trails.length
  | .maxMin => 1
  | .rankBased => min s.elitist trails.length

/-- The pheromone confined to a band, if there is one. -/
def confineTo (band : Option (Band α)) (ph : Pheromone S α) : Except Fault (Pheromone S α) :=
  match band with
  | none => .ok ph
  | some b => ph.confine b

/-- The same amount added to every edge of a list, in order. -/
def layEdges (ph : Pheromone S α) (edges : List (S × S)) (amount : α) : Pheromone S α :=
  edges.foldl (fun ph (source, target) => ph.lay source target amount) ph

/-- The pheromone after one trail has laid its own. A trail without edges does nothing at all. -/
def layTrail (q : α) (band : Option (Band α)) (ph : Pheromone S α) (share : Trail S α × α) :
    Except Fault (Pheromone S α) :=
  let (trail, weight) := share
  if trail.path.length < 2 then .ok ph
  else confineTo band (layEdges ph trail.edges (weight * amount q trail.cost))

def layAll (s : Settings α) (ph : Pheromone S α) (trails : List (Trail S α)) (best : Trail S α)
    (band : Option (Band α)) : Except Fault (Pheromone S α) :=
  (shares s trails best).foldlM (layTrail s.q band) ph

def evaporate (s : Settings α) (ph : Pheromone S α) (band : Option (Band α)) :
    Except Fault (Pheromone S α) :=
  confineTo band (ph.evaporate s.rho)

/-- The pheromone after evaporation and deposit. The best trail of the run already includes this
iteration. -/
def update (s : Settings α) (ph : Pheromone S α) (trails : List (Trail S α)) (best : Trail S α)
    (band : Option (Band α)) : Except Fault (Pheromone S α) := do
  layAll s (← evaporate s ph band) trails best band

end Stigmergy.Deposit
