import Stigmergy.Random.ChaCha
import Stigmergy.Walk.Ant

/-!
# Plans and their walks

All randomness of an iteration is drawn before its walks: every ant gets a plan, which is a node to
start on and the seed of a source of its own. So a walk depends on its plan and on the pheromone
alone, and the walks of an iteration can be taken in any order.

* `Plan.draw`, `Plan.drawMany`: the plans of an iteration.
* `Problem.walkAll`: their walks one after the other, up to the first without a trail.
* `Schedule`, `Problem.walkScheduled`: the walks in another order, with the trails put back in the
  order of the plans.
-/

namespace Stigmergy

/-- Where an ant sets out, and the seed of its random words. -/
structure Plan where
  node : Nat
  seed : UInt64
  deriving DecidableEq, Repr

namespace Plan

variable {G : Type} [Random.WordSource G]

def draw (nodes : Nat) (g : G) : Plan × G :=
  let (node, g) := Random.below nodes g
  let (seed, g) := Random.WordSource.next64 g
  (⟨node, seed⟩, g)

def drawMany (nodes : Nat) : (ants : Nat) → G → List Plan × G
  | 0, g => ([], g)
  | ants + 1, g =>
    let (plan, g) := draw nodes g
    let (plans, g) := drawMany nodes ants g
    (plan :: plans, g)

@[simp]
theorem length_drawMany (nodes ants : Nat) (g : G) :
    (drawMany nodes ants g).1.length = ants := by
  induction ants generalizing g with
  | zero => rfl
  | succ n ih => simp [drawMany, ih]

theorem node_lt_of_mem_drawMany {nodes : Nat} (hn : 0 < nodes) {ants : Nat} {g : G} {plan : Plan}
    (h : plan ∈ (drawMany nodes ants g).1) : plan.node < nodes := by
  induction ants generalizing g with
  | zero => simp [drawMany] at h
  | succ n ih =>
    rcases List.mem_cons.1 h with rfl | h
    · exact Random.below_lt hn g
    · exact ih h

end Plan

/-- For every iteration, the order in which the walks of so many ants are finished. -/
structure Schedule where
  order : (iteration ants : Nat) → List Nat
  complete : ∀ iteration ants, (order iteration ants).Perm (List.range ants)

/-- One walk after the other. -/
def Schedule.inOrder : Schedule := ⟨fun _ ants => List.range ants, fun _ _ => .refl _⟩

namespace Problem

variable {S α : Type} [Ord S] [Std.TransOrd S] [Scalar α]

def walkPlan (p : Problem S α) (guide : Guide S α) (plan : Plan) :
    Except (Halt (Violation S α)) (Trail S α) :=
  (p.walk guide (p.start plan.node) (Random.Keystream.ofSeed plan.seed)).1

def walkAll (p : Problem S α) (guide : Guide S α) (plans : List Plan) :
    Except (Halt (Violation S α)) (List (Trail S α)) :=
  plans.mapM (p.walkPlan guide)

/-- The trails of all plans, walked in the given order of their indices. The first walk in that
order without a trail ends all. -/
def walkScheduled (p : Problem S α) (guide : Guide S α) (plans : List Plan) (order : List Nat) :
    Except (Halt (Violation S α)) (List (Trail S α)) := do
  let table := plans.toArray
  let finished ← order.mapM fun i =>
    match table[i]? with
    | some plan => (p.walkPlan guide plan).map fun trail => (i, trail)
    | none => .error (.fault .unknownState)
  return (finished.mergeSort fun a b => a.1 ≤ b.1).map Prod.snd

end Problem

end Stigmergy
