import Stigmergy.Proofs.Colony.Reachable

/-!
# What runs keep

* `Colony.BestIsReal`: the best trail is a real one, if there is one yet.
* `Colony.Kept`: a property of colonies that outlasts a restart, and an iteration of real trails,
  whose update it lets succeed.
* `Kept.iterate_ok`, `Kept.iterate_error`, `Kept.solveOn`, `Kept.reachable`: so it outlasts whole
  runs, with a result or without one.
-/

namespace Stigmergy

open Scalar Stigmergy.Random

variable {S α : Type} [Ord S] [Scalar α]

namespace Colony

/-- The best trail is none yet, or a real one at a cost that is not infinite. -/
def BestIsReal (c : Colony S α) : Prop :=
  c.best = Trail.unbounded ∨ c.best.IsReal ∧ c.best.cost < infinity

variable [Rounded α] {c : Colony S α}

theorem BestIsReal.cost_pos (h : c.BestIsReal) : ofNat 0 < c.best.cost := by
  rcases h with hnone | ⟨⟨-, hpos⟩, -⟩
  · rw [hnone]
    exact Rounded.infinity_pos
  · exact hpos

/-- A leader that is taken over is a real trail. -/
theorem isReal_of_adopted {trails : List (Trail S α)} (htrails : ∀ t ∈ trails, t.IsReal)
    (hlt : (Run.leader trails).cost < c.best.cost) :
    (Run.leader trails).IsReal ∧ (Run.leader trails).cost < infinity := by
  have hle := Rounded.le_infinity (Rounded.number_of_lt hlt).2
  have hfinite := Rounded.lt_of_lt_of_le hlt hle
  rcases Run.leader_mem trails with hmem | hnone
  · exact ⟨htrails _ hmem, hfinite⟩
  · rw [hnone] at hfinite
    exact absurd hfinite (Rounded.lt_irrefl _)

theorem BestIsReal.adopt (h : c.BestIsReal) {trails : List (Trail S α)}
    (htrails : ∀ t ∈ trails, t.IsReal) : (c.adopt (Run.leader trails)).BestIsReal := by
  unfold Colony.adopt
  split
  · next hlt => exact .inr (isReal_of_adopted htrails hlt)
  · exact h

variable [Std.TransOrd S]

/-- A property that restarts keep, and iterations whose trails are real. -/
structure Kept (P : Colony S α → Prop) : Prop where
  restart {c : Colony S α} : P c → P c.restart
  relaid {c : Colony S α} {trails : List (Trail S α)} : P c → (∀ t ∈ trails, t.IsReal) →
    ∃ pheromone, c.relaid trails = .ok pheromone ∧
      P { c.adopt (Run.leader trails) with pheromone }

namespace Kept

variable {G : Type} [WordSource G] {P : Colony S α → Prop} {p : Problem S α} {schedule : Schedule}
  {iteration : Nat} {run next : Run S α G}

omit [WordSource G] in
/-- The update of an iteration that has no free trail succeeds. -/
theorem learn_ok (hkept : Kept P) (iteration : Nat) (h : P run.colony) {trails : List (Trail S α)}
    (hreal : ∀ t ∈ trails, t.IsReal) :
    ∃ next, run.learn iteration trails = .ok next ∧ P next.colony := by
  obtain ⟨pheromone, hrelaid, hnext⟩ := hkept.relaid h hreal
  refine ⟨run.settled iteration trails pheromone, ?_, ?_⟩
  · have hfree : ¬(trails.any fun t => t.cost ≤ ofNat 0) = true := by
      simp only [List.any_eq_true, decide_eq_true_eq, not_exists, not_and]
      intro t ht
      exact Rounded.not_ge_of_lt (hreal t ht).2
    rw [Run.learn_eq, if_neg hfree, hrelaid]
  · unfold Run.settled
    simp only [Run.colony_judged]
    exact hnext

theorem iterate_ok (hkept : Kept P) (h : P run.colony)
    (hiterate : run.iterate p schedule iteration = .ok next) : P next.colony := by
  obtain ⟨trails, htrails, hlearn⟩ := Run.iterate_ok hiterate
  have hreal := Run.isReal_of_trails htrails (Run.learn_ok hlearn).1
  have hdrawn : P (run.drawn p).colony := h
  obtain ⟨next', hlearn', hnext⟩ := hkept.learn_ok iteration hdrawn hreal
  rw [hlearn] at hlearn'
  cases hlearn'
  exact hnext

/-- An iteration that halts leaves the colony as it was, and never halts in its update. -/
theorem iterate_error (hkept : Kept P) {stop : Stop S α G} (h : P run.colony)
    (hiterate : run.iterate p schedule iteration = .error stop) :
    P stop.run.colony ∧ stop.halt ≠ .fault .invertedBand := by
  rcases Run.iterate_error hiterate with ⟨halt, htrails, rfl⟩ | ⟨trails, htrails, hlearn⟩
  · refine ⟨h, ?_⟩
    intro hhalt
    obtain ⟨plan, -, hwalk⟩ := Run.trails_error htrails
    obtain ⟨g, hwalk⟩ := Run.walk_of_walkPlan hwalk
    cases halt with
    | failure v => cases hhalt
    | fault f =>
      cases hhalt
      exact Problem.walk_fault_ne hwalk
  · rcases Run.learn_error hlearn with ⟨-, rfl⟩ | ⟨hfree, -⟩
    · exact ⟨h, fun hhalt => by cases hhalt⟩
    · have hdrawn : P (run.drawn p).colony := h
      obtain ⟨next, hlearn', -⟩ :=
        hkept.learn_ok iteration hdrawn (Run.isReal_of_trails htrails hfree)
      rw [hlearn] at hlearn'
      cases hlearn'

/-- A run keeps the property, and does not end at a band in disorder. -/
theorem solveOn (hkept : Kept P) (h : P c) (source : G) :
    P (c.solveOn schedule p source).run.colony ∧
      (c.solveOn schedule p source).result ≠ .error (.fault .invertedBand) := by
  rw [Colony.solveOn_eq]
  split
  · exact ⟨h, fun hresult => by cases hresult⟩
  · have hbegun : P (Run.begun c p source).colony := hkept.restart h
    split
    · next stop hstop =>
      obtain ⟨before, k, hbefore, hiterate⟩ :=
        Run.iterations_error (P := fun run => P run.colony) hkept.iterate_ok hbegun hstop
      obtain ⟨hstopped, hhalt⟩ := hkept.iterate_error hbefore hiterate
      exact ⟨hstopped, fun hresult => hhalt (by simpa using hresult)⟩
    · next last hlast =>
      have hlast := Run.iterations_ok (P := fun run => P run.colony) hkept.iterate_ok hbegun hlast
      exact ⟨hlast, fun hresult => by cases hresult⟩

/-- What holds of a fresh colony and is kept holds of all that runs can leave. -/
theorem reachable (hkept : Kept P) {s : Settings α} (hfresh : P (Colony.fresh s))
    (hc : Reachable s c) : P c :=
  hc.invariant (fun _ => hfresh) (fun _ => hkept.restart)
    fun _ _ source h => (hkept.solveOn h source).1

end Kept

end Colony

end Stigmergy
