import Stigmergy.Random.Uniform

/-!
# The roulette wheel

`spin` draws an index of a list of weights, with a probability in proportion to its weight.

* Infinite weights beat all others, and share the wheel evenly.
* Where the weights are too large to be added, their shares of the largest one are taken instead.
* Where there is nothing to divide, all indices are equally likely.
-/

namespace Stigmergy.Walk.Roulette

variable {α G : Type} [Scalar α] [Random.WordSource G]
open Scalar

def infiniteIndices (weights : List α) : List Nat :=
  (weights.zipIdx.filter fun (w, _) => isInfinite w).map Prod.snd

/-- The weights, or their shares of the largest one if their sum is infinite. -/
def shares (weights : List α) : List α :=
  if isInfinite (sum weights) then
    let largest := weights.foldl greatest (ofNat 0)
    weights.map (· / largest)
  else weights

/-- The first index at which the weights so far, added to those before, exceed the threshold. -/
def select (threshold : α) : (before : α) → List α → Option Nat
  | _, [] => none
  | before, w :: weights =>
    if threshold < before + w then some 0
    else (select threshold (before + w) weights).map (· + 1)

theorem select_lt {threshold before : α} {weights : List α} {i : Nat}
    (h : select threshold before weights = some i) : i < weights.length := by
  induction weights generalizing before i with
  | nil => simp [select] at h
  | cons w weights ih =>
    rw [select] at h
    split at h
    · obtain rfl := Option.some.inj h
      simp
    · obtain ⟨j, hj, rfl⟩ := Option.map_eq_some_iff.1 h
      simpa using ih hj

/-- The index that a threshold stands for; the last one when rounding left the threshold above all
weights together. -/
def land (threshold : α) (weights : List α) : Nat :=
  (select threshold (ofNat 0) weights).getD (weights.length - 1)

theorem land_lt {threshold : α} {weights : List α} (h : weights ≠ []) :
    land threshold weights < weights.length := by
  have pos : 0 < weights.length := List.length_pos_iff.2 h
  unfold land
  cases found : select threshold (ofNat 0) weights with
  | none => simp only [Option.getD_none]; omega
  | some i => exact select_lt found

@[simp]
theorem length_shares (weights : List α) : (shares weights).length = weights.length := by
  unfold shares
  split <;> simp

/-- One draw from the wheel. A single weight is drawn without a word. -/
def spin (weights : List α) (g : G) : Except Fault Nat × G :=
  if weights.length = 1 then (.ok 0, g)
  else
    match infiniteIndices weights with
    | [] =>
      let parts := shares weights
      let total := sum parts
      if total ≤ ofNat 0 then
        let (i, g) := Random.below weights.length g
        (.ok i, g)
      else
        let (threshold, g) := Random.threshold total g
        (threshold.map fun t => land t parts, g)
    | first :: others =>
      let (i, g) := Random.below (others.length + 1) g
      (.ok ((first :: others).getD i first), g)

end Stigmergy.Walk.Roulette
