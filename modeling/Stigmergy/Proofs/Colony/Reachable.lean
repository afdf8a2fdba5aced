import Stigmergy.Colony.Capacity
import Stigmergy.Proofs.Colony.Iteration
import Stigmergy.Proofs.Settings.Rules

/-!
# The states of a colony

* `Colony.Reachable`: the states that runs can leave a colony in, with a result or without one.
* `Colony.Reachable.invariant`: what every run keeps holds of all of them.
* `Colony.Reachable.valid`: their settings are valid.
-/

namespace Stigmergy.Colony

open Stigmergy.Random

variable {S α : Type} [Ord S] [Std.TransOrd S] [Scalar α]

/-- The states that a colony with the given settings can be left in, by any runs on any problems. -/
inductive Reachable (s : Settings α) : Colony S α → Prop where
  | new {c : Colony S α} : Colony.ofSettings? s = .ok c → Reachable s c
  | run {c : Colony S α} {G : Type} [WordSource G] (schedule : Schedule) (p : Problem S α)
    (source : G) : Reachable s c → Reachable s (c.solveOn schedule p source).run.colony
  | runWithin {c : Colony S α} {G : Type} [WordSource G] (p : Problem S α) (source : G) :
    Reachable s c → Reachable s (c.solveWithin p source).run.colony

/-- What every run keeps holds of all reachable colonies. -/
theorem Reachable.invariant {s : Settings α} {P : Colony S α → Prop}
    (hfresh : s.Valid → P (Colony.fresh s)) (hrestart : ∀ c, P c → P c.restart)
    (hrun : ∀ {c : Colony S α} {G : Type} [WordSource G] (schedule : Schedule) (p : Problem S α)
      (source : G), P c → P (c.solveOn schedule p source).run.colony)
    {c : Colony S α} (hc : Reachable s c) : P c := by
  induction hc with
  | new hnew =>
    obtain ⟨hvalid, rfl⟩ := Colony.ofSettings?_ok hnew
    exact hfresh hvalid
  | run schedule p source _ ih => exact hrun schedule p source ih
  | @runWithin c _ _ p source _ ih =>
    unfold Colony.solveWithin
    split
    · exact hrun .inOrder p source ih
    · exact hrestart c ih

theorem Reachable.valid {s : Settings α} {c : Colony S α} (hc : Reachable s c) : s.Valid :=
  hc.invariant (P := fun _ => s.Valid) id (fun _ h => h) fun _ _ _ h => h

end Stigmergy.Colony
