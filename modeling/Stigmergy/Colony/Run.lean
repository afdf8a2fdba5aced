import Stigmergy.Colony.Event
import Stigmergy.Colony.Plan
import Stigmergy.Deposit.Rule
import Stigmergy.Settings.Validity

/-!
# A run of a colony

A colony keeps its settings, its pheromone, its band and its best trail. A run takes it through a
number of iterations:

1. every ant's plan is drawn;
2. the ants walk, all by the pheromone of the iteration before;
3. the iteration's cheapest trail becomes the best one if it improves on it, and a bounded colony
   takes its band from it;
4. pheromone evaporates, and the variant's trails lay theirs.

* `Colony.ofSettings?`: a colony with valid settings.
* `Run.iterate`: one iteration. A run that halts in it is left as the iteration found it, apart from
  its source and the events that came before the halt.
* `Colony.solve`: a run from the colony's first state.
-/

namespace Stigmergy

open Std (TransOrd)
open Pheromone (Band)

structure Colony (S α : Type) [Ord S] where
  settings : Settings α
  pheromone : Pheromone S α
  band : Option (Band α)
  best : Trail S α

inductive RunFailure (S α : Type) where
  /-- The problem has fewer than two nodes. -/
  | tooFewNodes (nodes : Nat)
  /-- An ant met a breach of the problem's contract. -/
  | violation (v : Violation S α)
  /-- An ant's whole trail is free, so that what it would lay is not defined. -/
  | freeTrail
  deriving DecidableEq, Repr

def RunFailure.message {S α : Type} (state : S → String) (number : α → String) :
    RunFailure S α → String
  | .tooFewNodes nodes =>
    "degenerate instance: " ++ Nat.repr nodes ++ " node(s), at least 2 required"
  | .violation v => v.message state number
  | .freeTrail => "degenerate trail: total cost is zero"

/-- A run between two iterations. -/
structure Run (S α G : Type) [Ord S] where
  colony : Colony S α
  source : G
  /-- The iteration that found the best trail, counted from one; zero before there is one. -/
  bestIteration : Nat
  /-- The best cost after each iteration. -/
  costs : Array α
  /-- The cheapest cost within each iteration. -/
  iterationBests : Array α
  events : Array (Event S α)

structure Report (S α : Type) where
  best : Trail S α
  iterations : Nat
  bestIteration : Nat
  costs : Array α
  iterationBests : Array α
  band : Option (Band α)
  deriving DecidableEq, Repr

/-- A run's end without a result, with the run as it was left. -/
structure Stop (S α G : Type) [Ord S] where
  halt : Halt (RunFailure S α)
  run : Run S α G

structure Outcome (S α G : Type) [Ord S] where
  result : Except (Halt (RunFailure S α)) (Report S α)
  run : Run S α G

variable {S α G : Type} [Ord S] [TransOrd S] [Scalar α]
open Scalar

namespace Colony

def firstBand (s : Settings α) : Option (Band α) :=
  if s.variant.isBounded then some (Band.initial s.infinity) else none

def fresh (s : Settings α) : Colony S α :=
  ⟨s, Pheromone.uniform s.initialPheromone, firstBand s, Trail.unbounded⟩

/-- A colony with the given settings, if they are valid. -/
def ofSettings? (s : Settings α) : Except (Settings.Breach α) (Colony S α) :=
  match s.breach? with
  | some breach => .error breach
  | none => .ok (fresh s)

/-- The colony with all traces of earlier runs gone. -/
def restart (c : Colony S α) : Colony S α :=
  { c with pheromone := c.pheromone.reset, band := firstBand c.settings, best := Trail.unbounded }

def guide (c : Colony S α) : Guide S α := ⟨c.pheromone, c.settings.alpha, c.settings.beta⟩

/-- The band of a new best trail, for a bounded colony. -/
def bandFor (c : Colony S α) (trail : Trail S α) : Option (Band α) :=
  if c.settings.variant.isBounded then
    some (Band.ofTrail trail c.settings.rho c.settings.q c.settings.pBest)
  else none

end Colony

namespace Run

def tell (run : Run S α G) (events : List (Event S α)) : Run S α G :=
  { run with events := run.events ++ events.toArray }

/-- The run with an iteration's best trail taken over if it improves on the best one. -/
def adopt (run : Run S α G) (iteration : Nat) (trail : Trail S α) : Run S α G :=
  if trail.cost < run.colony.best.cost then
    let band := run.colony.bandFor trail
    let adopted := { run with
      colony := { run.colony with best := trail, band }
      bestIteration := iteration }
    (adopted.tell (band.toList.map (Event.bandMoved iteration))).tell [.improved iteration trail]
  else run

/-- The costs of an iteration's ants, as far as they are reported: up to the first free trail. -/
def reported (s : Settings α) (trails : List (Trail S α)) : List (Event S α) :=
  if s.reportsAnts then
    (trails.takeWhile fun t => ¬t.cost ≤ ofNat 0).map fun t => .antFinished t.cost
  else []

/-- The rest of an iteration, once its trails are there. -/
def learn (run : Run S α G) (iteration : Nat) (trails : List (Trail S α)) :
    Except (Stop S α G) (Run S α G) :=
  let told := run.tell (reported run.colony.settings trails)
  if trails.any fun t => t.cost ≤ ofNat 0 then .error ⟨.failure .freeTrail, told⟩
  else
    let leader := ((Deposit.leader? trails).map Prod.fst).getD Trail.unbounded
    let adopted := (told.tell [.iterationBest leader.cost]).adopt iteration leader
    let colony := adopted.colony
    match Deposit.update colony.settings colony.pheromone trails colony.best colony.band with
    | .error f => .error ⟨.fault f, adopted⟩
    | .ok pheromone =>
      .ok { adopted with
        colony := { colony with pheromone }
        costs := adopted.costs.push colony.best.cost
        iterationBests := adopted.iterationBests.push leader.cost
        events := adopted.events.push (.iterationEnded iteration leader.cost colony.best.cost
          (Deposit.depositors colony.settings trails) pheromone.size) }

variable [Random.WordSource G]

/-- The plans of the run's next iteration, with the source after them. -/
def plans (run : Run S α G) (p : Problem S α) : List Plan × G :=
  Plan.drawMany p.nodes (run.colony.settings.antCount p.nodes) run.source

/-- The trails of an iteration's plans. The walks follow the schedule if they may run at the same
time, and the order of the ants if not. -/
def trails (run : Run S α G) (p : Problem S α) (schedule : Schedule) (iteration : Nat)
    (plans : List Plan) : Except (Halt (Violation S α)) (List (Trail S α)) :=
  if run.colony.settings.parallel then
    p.walkScheduled run.colony.guide plans (schedule.order iteration plans.length)
  else p.walkAll run.colony.guide plans

def iterate (p : Problem S α) (schedule : Schedule) (run : Run S α G) (iteration : Nat) :
    Except (Stop S α G) (Run S α G) :=
  let (plans, source) := run.plans p
  match run.trails p schedule iteration plans with
  | .error halt => .error ⟨halt.map .violation, { run with source }⟩
  | .ok trails => { run with source }.learn iteration trails

/-- So many iterations, the first of them numbered `iteration`. -/
def iterations (p : Problem S α) (schedule : Schedule) :
    (count iteration : Nat) → Run S α G → Except (Stop S α G) (Run S α G)
  | 0, _, run => .ok run
  | count + 1, iteration, run => do
    iterations p schedule count (iteration + 1) (← run.iterate p schedule iteration)

def report (run : Run S α G) : Report S α where
  best := run.colony.best
  iterations := run.colony.settings.iterations
  bestIteration := run.bestIteration
  costs := run.costs
  iterationBests := run.iterationBests
  band := run.colony.band

/-- The run with its end told. -/
def close (run : Run S α G) : Run S α G :=
  run.tell [.finished run.colony.best.cost run.bestIteration run.colony.pheromone.size]

def start (colony : Colony S α) (source : G) : Run S α G := ⟨colony, source, 0, #[], #[], #[]⟩

end Run

variable [Random.WordSource G]

/-- A run of the colony on a problem, with walks that may run at the same time finished as
scheduled. All that earlier runs left is gone, except when the problem has too few nodes to run
on. -/
def Colony.solveOn (schedule : Schedule) (c : Colony S α) (p : Problem S α) (source : G) :
    Outcome S α G :=
  if p.nodes < 2 then ⟨.error (.failure (.tooFewNodes p.nodes)), Run.start c source⟩
  else
    let s := c.settings
    let begun := (Run.start c.restart source).tell
      [.started s.variant p.nodes (s.antCount p.nodes) s.iterations]
    match begun.iterations p schedule s.iterations 1 with
    | .error stop => ⟨.error stop.halt, stop.run⟩
    | .ok run => ⟨.ok run.report, run.close⟩

/-- A run of the colony on a problem, with all walks finished in order. -/
def Colony.solve (c : Colony S α) (p : Problem S α) (source : G) : Outcome S α G :=
  c.solveOn Schedule.inOrder p source

end Stigmergy
