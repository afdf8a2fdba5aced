import Stigmergy.Trail

/-!
# Ranking trails

* `leader?`: the first of the cheapest trails, with its index.
* `ranked`: all trails from the cheapest on, with their indices. Trails of equal cost keep their
  order.

Costs are taken to be numbers, as those of all walks are; with others in between, the order of
`ranked` is not that of the costs.
-/

namespace Stigmergy.Deposit

variable {S α : Type} [Scalar α]

/-- The cheaper of two trails, the first one on a draw. -/
def cheaper (a b : Trail S α × Nat) : Trail S α × Nat := if b.1.cost < a.1.cost then b else a

/-- The first trail that is cheaper than all before it and not dearer than any after it. -/
def leader? (trails : List (Trail S α)) : Option (Trail S α × Nat) :=
  match trails.zipIdx with
  | [] => none
  | first :: others => some (others.foldl cheaper first)

/-- The trails in the order of their costs. -/
def ranked (trails : List (Trail S α)) : List (Trail S α × Nat) :=
  trails.zipIdx.mergeSort fun a b => ¬ b.1.cost < a.1.cost

theorem perm_ranked (trails : List (Trail S α)) : (ranked trails).Perm trails.zipIdx :=
  List.mergeSort_perm _ _

/-- Ranked trails stand with their indices. -/
theorem mem_ranked_iff {trails : List (Trail S α)} {entry : Trail S α × Nat} :
    entry ∈ ranked trails ↔ trails[entry.2]? = some entry.1 := by
  rw [(perm_ranked trails).mem_iff, List.mem_zipIdx_iff_getElem?]

@[simp]
theorem length_ranked (trails : List (Trail S α)) : (ranked trails).length = trails.length := by
  simp [ranked]

end Stigmergy.Deposit
