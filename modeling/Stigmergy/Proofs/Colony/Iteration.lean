import Stigmergy.Colony.Run
import Stigmergy.Proofs.Colony.Walks
import Stigmergy.Proofs.Deposit.Leader

/-!
# What an iteration does

* `Trail.IsReal`: what the trails are of an iteration that goes on.
* `Run.learn_ok`, `Run.learn_error`: everything that the second half of an iteration can do.
* `Run.iterate_ok`, `Run.iterate_error`: everything that an iteration can do.
* `Run.iterate_settled`: what an iteration that goes on has done.
* `Run.iterations_ok`, `Run.iterations_error`: what every iteration keeps holds after all of them,
  and before the one that halts.
-/

namespace Stigmergy

open Scalar Stigmergy.Random

variable {S α G : Type} [Ord S] [Scalar α]

/-- A trail with a state, at a cost above zero. -/
def Trail.IsReal {S α : Type} [Scalar α] (t : Trail S α) : Prop := t.path ≠ [] ∧ ofNat 0 < t.cost

/-- The colony with a trail taken over if it improves on the best one. -/
def Colony.adopt (c : Colony S α) (trail : Trail S α) : Colony S α :=
  if trail.cost < c.best.cost then { c with best := trail, band := c.bandFor trail } else c

@[simp]
theorem Colony.settings_adopt (c : Colony S α) (trail : Trail S α) :
    (c.adopt trail).settings = c.settings := by
  unfold adopt
  split <;> rfl

@[simp]
theorem Colony.pheromone_adopt (c : Colony S α) (trail : Trail S α) :
    (c.adopt trail).pheromone = c.pheromone := by
  unfold adopt
  split <;> rfl

theorem Colony.best_adopt (c : Colony S α) (trail : Trail S α) :
    (c.adopt trail).best = if trail.cost < c.best.cost then trail else c.best := by
  unfold adopt
  split <;> rfl

/-- The cheapest of an iteration's trails, the first one on a draw. -/
def Run.leader (trails : List (Trail S α)) : Trail S α :=
  ((Deposit.leader? trails).map Prod.fst).getD Trail.unbounded

def Colony.relaid [Std.TransOrd S] (c : Colony S α) (trails : List (Trail S α)) :
    Except Fault (Pheromone S α) :=
  let adopted := c.adopt (Run.leader trails)
  Deposit.update adopted.settings adopted.pheromone trails adopted.best adopted.band

namespace Run

omit [Ord S] in
theorem leader_mem (trails : List (Trail S α)) :
    leader trails ∈ trails ∨ leader trails = Trail.unbounded := by
  unfold leader
  cases h : Deposit.leader? trails with
  | none => exact .inr rfl
  | some found => exact .inl (List.mem_of_getElem? (Deposit.leader?_mem h))

omit [Ord S] in
/-- The leader of trails that are there stands among them, before all that cost the same. -/
theorem leader_least [Rounded α] {trails : List (Trail S α)} (hne : trails ≠ [])
    (hnumber : ∀ t ∈ trails, isNaN t.cost = false) :
    ∃ i : Nat, trails[i]? = some (leader trails) ∧ (∀ t ∈ trails, (leader trails).cost ≤ t.cost) ∧
      ∀ (j : Nat) t, j < i → trails[j]? = some t → (leader trails).cost < t.cost := by
  unfold leader
  cases h : Deposit.leader? trails with
  | none => exact absurd (Deposit.leader?_eq_none h) hne
  | some found =>
    obtain ⟨hleast, hfirst⟩ := Deposit.leader?_least hnumber h
    exact ⟨found.2, Deposit.leader?_mem h, hleast, hfirst⟩

theorem colony_adopt (run : Run S α G) (iteration : Nat) (trail : Trail S α) :
    (run.adopt iteration trail).colony = run.colony.adopt trail := by
  unfold adopt Colony.adopt
  split <;> rfl

theorem bestIteration_adopt (run : Run S α G) (iteration : Nat) (trail : Trail S α) :
    (run.adopt iteration trail).bestIteration =
      if trail.cost < run.colony.best.cost then iteration else run.bestIteration := by
  unfold adopt
  split <;> rfl

/-- The run once the leader of an iteration is known, before any pheromone is laid. -/
def judged (run : Run S α G) (iteration : Nat) (trails : List (Trail S α)) : Run S α G :=
  ((run.tell (reported run.colony.settings trails)).tell
    [.iterationBest (leader trails).cost]).adopt iteration (leader trails)

@[simp]
theorem colony_judged (run : Run S α G) (iteration : Nat) (trails : List (Trail S α)) :
    (run.judged iteration trails).colony = run.colony.adopt (leader trails) :=
  colony_adopt _ _ _

@[simp]
theorem source_judged (run : Run S α G) (iteration : Nat) (trails : List (Trail S α)) :
    (run.judged iteration trails).source = run.source := by
  unfold judged adopt
  split <;> rfl

@[simp]
theorem costs_judged (run : Run S α G) (iteration : Nat) (trails : List (Trail S α)) :
    (run.judged iteration trails).costs = run.costs := by
  unfold judged adopt
  split <;> rfl

@[simp]
theorem iterationBests_judged (run : Run S α G) (iteration : Nat) (trails : List (Trail S α)) :
    (run.judged iteration trails).iterationBests = run.iterationBests := by
  unfold judged adopt
  split <;> rfl

theorem bestIteration_judged (run : Run S α G) (iteration : Nat) (trails : List (Trail S α)) :
    (run.judged iteration trails).bestIteration =
      if (leader trails).cost < run.colony.best.cost then iteration else run.bestIteration :=
  bestIteration_adopt _ _ _

variable [Std.TransOrd S]

/-- The run after an iteration whose trails have left the given pheromone. -/
def settled (run : Run S α G) (iteration : Nat) (trails : List (Trail S α))
    (pheromone : Pheromone S α) : Run S α G :=
  let judged := run.judged iteration trails
  { judged with
    colony := { judged.colony with pheromone }
    costs := judged.costs.push judged.colony.best.cost
    iterationBests := judged.iterationBests.push (leader trails).cost
    events := judged.events.push (.iterationEnded iteration (leader trails).cost
      judged.colony.best.cost (Deposit.depositors judged.colony.settings trails) pheromone.size) }

theorem learn_eq (run : Run S α G) (iteration : Nat) (trails : List (Trail S α)) :
    run.learn iteration trails =
      if trails.any fun t => t.cost ≤ ofNat 0 then
        .error ⟨.failure .freeTrail, run.tell (reported run.colony.settings trails)⟩
      else match run.colony.relaid trails with
        | .error f => .error ⟨.fault f, run.judged iteration trails⟩
        | .ok pheromone => .ok (run.settled iteration trails pheromone) := by
  unfold learn Colony.relaid
  rw [← colony_judged run iteration trails]
  split <;> rfl

theorem learn_ok {run next : Run S α G} {iteration : Nat} {trails : List (Trail S α)}
    (h : run.learn iteration trails = .ok next) :
    (∀ t ∈ trails, ¬t.cost ≤ ofNat 0) ∧
      ∃ pheromone, run.colony.relaid trails = .ok pheromone ∧
        next = run.settled iteration trails pheromone := by
  rw [learn_eq] at h
  split at h
  · cases h
  · next hfree =>
    simp only [List.any_eq_true, decide_eq_true_eq, not_exists, not_and] at hfree
    split at h
    · cases h
    · next pheromone hrelaid =>
      cases h
      exact ⟨hfree, pheromone, hrelaid, rfl⟩

theorem learn_error {run : Run S α G} {iteration : Nat} {trails : List (Trail S α)}
    {stop : Stop S α G} (h : run.learn iteration trails = .error stop) :
    ((∃ t ∈ trails, t.cost ≤ ofNat 0) ∧
      stop = ⟨.failure .freeTrail, run.tell (reported run.colony.settings trails)⟩) ∨
    ((∀ t ∈ trails, ¬t.cost ≤ ofNat 0) ∧
      ∃ f, run.colony.relaid trails = .error f ∧
        stop = ⟨.fault f, run.judged iteration trails⟩) := by
  rw [learn_eq] at h
  split at h
  · next hfree =>
    simp only [List.any_eq_true, decide_eq_true_eq] at hfree
    cases h
    exact .inl ⟨hfree, rfl⟩
  · next hfree =>
    simp only [List.any_eq_true, decide_eq_true_eq, not_exists, not_and] at hfree
    split at h
    · next f hrelaid =>
      cases h
      exact .inr ⟨hfree, f, hrelaid, rfl⟩
    · cases h

variable {p : Problem S α} {schedule : Schedule}

/-! ## The walks of a run -/

/-- The trails of an iteration are those of its plans, whatever the schedule. -/
theorem trails_ok {run : Run S α G} {iteration : Nat} {plans : List Plan}
    {trails : List (Trail S α)} (h : run.trails p schedule iteration plans = .ok trails) :
    p.walkAll run.colony.guide plans = .ok trails := by
  unfold Run.trails at h
  split at h
  · exact Problem.walkScheduled_ok (schedule.complete _ _) h
  · exact h

theorem trails_error {run : Run S α G} {iteration : Nat} {plans : List Plan}
    {halt : Halt (Violation S α)} (h : run.trails p schedule iteration plans = .error halt) :
    ∃ plan ∈ plans, p.walkPlan run.colony.guide plan = .error halt := by
  unfold Run.trails at h
  split at h
  · exact Problem.walkScheduled_error (schedule.complete _ _) h
  · exact Problem.walkAll_error h

theorem exists_walk_of_mem {run : Run S α G} {iteration : Nat} {plans : List Plan}
    {trails : List (Trail S α)} (h : run.trails p schedule iteration plans = .ok trails)
    {trail : Trail S α} (hmem : trail ∈ trails) :
    ∃ plan ∈ plans, p.walkPlan run.colony.guide plan = .ok trail :=
  mem_of_mapM_ok (trails_ok h) hmem

theorem walk_of_walkPlan {guide : Guide S α} {plan : Plan}
    {result : Except (Halt (Violation S α)) (Trail S α)} (h : p.walkPlan guide plan = result) :
    ∃ g, p.walk guide (p.start plan.node) (Keystream.ofSeed plan.seed) = (result, g) :=
  ⟨_, Prod.ext h rfl⟩

variable [WordSource G]

theorem length_trails {run : Run S α G} {iteration : Nat} {trails : List (Trail S α)}
    (h : run.trails p schedule iteration (run.plans p).1 = .ok trails) :
    trails.length = run.colony.settings.antCount p.nodes := by
  have hlength := (Problem.walkAll_ok_iff.mp (trails_ok h)).length_eq
  rw [← hlength]
  exact Plan.length_drawMany _ _ _

/-- The trails of an iteration are real, if none of them is free. -/
theorem isReal_of_trails [Rounded α] {run : Run S α G} {iteration : Nat}
    {trails : List (Trail S α)}
    (htrails : run.trails p schedule iteration (run.plans p).1 = .ok trails)
    (hfree : ∀ t ∈ trails, ¬t.cost ≤ ofNat 0) : ∀ t ∈ trails, t.IsReal := by
  intro t ht
  obtain ⟨plan, -, hwalk⟩ := exists_walk_of_mem htrails ht
  obtain ⟨g, hwalk⟩ := walk_of_walkPlan hwalk
  have hcost := Problem.trail_cost_nonneg hwalk
  exact ⟨Problem.trail_nonempty hwalk,
    Rounded.lt_of_not_ge Rounded.number_zero (Rounded.number_of_le hcost).2 (hfree t ht)⟩

/-! ## One iteration -/

/-- The run after the plans of its next iteration are drawn. -/
def drawn (run : Run S α G) (p : Problem S α) : Run S α G := { run with source := (run.plans p).2 }

omit [Scalar α] [Std.TransOrd S] in
@[simp]
theorem colony_drawn (run : Run S α G) : (run.drawn p).colony = run.colony := rfl

theorem iterate_eq (run : Run S α G) (iteration : Nat) :
    run.iterate p schedule iteration =
      match run.trails p schedule iteration (run.plans p).1 with
      | .error halt => .error ⟨halt.map .violation, run.drawn p⟩
      | .ok trails => (run.drawn p).learn iteration trails := rfl

theorem iterate_of_halt {run : Run S α G} {iteration : Nat} {halt : Halt (Violation S α)}
    (h : run.trails p schedule iteration (run.plans p).1 = .error halt) :
    run.iterate p schedule iteration = .error ⟨halt.map .violation, run.drawn p⟩ := by
  rw [iterate_eq, h]

theorem iterate_of_trails {run : Run S α G} {iteration : Nat} {trails : List (Trail S α)}
    (h : run.trails p schedule iteration (run.plans p).1 = .ok trails) :
    run.iterate p schedule iteration = (run.drawn p).learn iteration trails := by
  rw [iterate_eq, h]

theorem iterate_ok {run next : Run S α G} {iteration : Nat}
    (h : run.iterate p schedule iteration = .ok next) :
    ∃ trails, run.trails p schedule iteration (run.plans p).1 = .ok trails ∧
      (run.drawn p).learn iteration trails = .ok next := by
  rw [iterate_eq] at h
  split at h
  · cases h
  · next trails htrails => exact ⟨trails, htrails, h⟩

/-- An iteration that goes on has as many trails as there are ants, all of them real, and is settled
with the pheromone that they leave. -/
theorem iterate_settled [Rounded α] {run next : Run S α G} {iteration : Nat}
    (h : run.iterate p schedule iteration = .ok next) :
    ∃ trails pheromone, run.trails p schedule iteration (run.plans p).1 = .ok trails ∧
      trails.length = run.colony.settings.antCount p.nodes ∧ (∀ t ∈ trails, t.IsReal) ∧
      run.colony.relaid trails = .ok pheromone ∧
      next = (run.drawn p).settled iteration trails pheromone := by
  obtain ⟨trails, htrails, hlearn⟩ := iterate_ok h
  obtain ⟨hfree, pheromone, hrelaid, hnext⟩ := learn_ok hlearn
  exact ⟨trails, pheromone, htrails, length_trails htrails, isReal_of_trails htrails hfree, hrelaid,
    hnext⟩

theorem iterate_error {run : Run S α G} {iteration : Nat} {stop : Stop S α G}
    (h : run.iterate p schedule iteration = .error stop) :
    (∃ halt, run.trails p schedule iteration (run.plans p).1 = .error halt ∧
      stop = ⟨halt.map .violation, run.drawn p⟩) ∨
    ∃ trails, run.trails p schedule iteration (run.plans p).1 = .ok trails ∧
      (run.drawn p).learn iteration trails = .error stop := by
  rw [iterate_eq] at h
  split at h
  · next halt htrails =>
    cases h
    exact .inl ⟨halt, htrails, rfl⟩
  · next trails htrails => exact .inr ⟨trails, htrails, h⟩

/-! ## Many iterations -/

theorem iterations_succ_eq (count iteration : Nat) (run : Run S α G) :
    run.iterations p schedule (count + 1) iteration =
      match run.iterate p schedule iteration with
      | .error stop => .error stop
      | .ok next => next.iterations p schedule count (iteration + 1) := by
  change (run.iterate p schedule iteration >>= _) = _
  cases run.iterate p schedule iteration <;> rfl

variable {P : Run S α G → Prop}

/-- What every iteration keeps holds after all of them. -/
theorem iterations_ok (hstep : ∀ {run next : Run S α G} {k : Nat}, P run →
      run.iterate p schedule k = .ok next → P next)
    {count iteration : Nat} {run last : Run S α G} (hrun : P run)
    (h : run.iterations p schedule count iteration = .ok last) : P last := by
  induction count generalizing iteration run with
  | zero =>
    cases h
    exact hrun
  | succ count ih =>
    rw [iterations_succ_eq] at h
    split at h
    · cases h
    · next next hnext => exact ih (hstep hrun hnext) h

/-- What every iteration keeps holds of the run that one of them halts. -/
theorem iterations_error (hstep : ∀ {run next : Run S α G} {k : Nat}, P run →
      run.iterate p schedule k = .ok next → P next)
    {count iteration : Nat} {run : Run S α G} {stop : Stop S α G} (hrun : P run)
    (h : run.iterations p schedule count iteration = .error stop) :
    ∃ before k, P before ∧ before.iterate p schedule k = .error stop := by
  induction count generalizing iteration run with
  | zero => cases h
  | succ count ih =>
    rw [iterations_succ_eq] at h
    split at h
    · next stop' hstop =>
      cases h
      exact ⟨run, iteration, hrun, hstop⟩
    · next next hnext => exact ih (hstep hrun hnext) h

/-- Iterations that all go on come to an end. -/
theorem iterations_total (hstep : ∀ (run : Run S α G) (k : Nat), P run →
      ∃ next, run.iterate p schedule k = .ok next ∧ P next)
    (count iteration : Nat) {run : Run S α G} (hrun : P run) :
    ∃ last, run.iterations p schedule count iteration = .ok last := by
  induction count generalizing iteration run with
  | zero => exact ⟨run, rfl⟩
  | succ count ih =>
    obtain ⟨next, hnext, hkept⟩ := hstep run iteration hrun
    rw [iterations_succ_eq, hnext]
    exact ih (iteration + 1) hkept

def begun (c : Colony S α) (p : Problem S α) (source : G) : Run S α G :=
  (Run.start c.restart source).tell
    [.started c.settings.variant p.nodes (c.settings.antCount p.nodes) c.settings.iterations]

end Run

theorem Colony.solveOn_eq [Std.TransOrd S] [WordSource G] (schedule : Schedule) (c : Colony S α)
    (p : Problem S α) (source : G) :
    c.solveOn schedule p source =
      if p.nodes < 2 then ⟨.error (.failure (.tooFewNodes p.nodes)), Run.start c source⟩
      else match (Run.begun c p source).iterations p schedule c.settings.iterations 1 with
        | .error stop => ⟨.error stop.halt, stop.run⟩
        | .ok run => ⟨.ok run.report, run.close⟩ := rfl

theorem Colony.solveOn_of_stop [Std.TransOrd S] [WordSource G] {c : Colony S α} {p : Problem S α}
    {schedule : Schedule} {source : G} {stop : Stop S α G} (hnodes : ¬p.nodes < 2)
    (h : (Run.begun c p source).iterations p schedule c.settings.iterations 1 = .error stop) :
    c.solveOn schedule p source = ⟨.error stop.halt, stop.run⟩ := by
  rw [solveOn_eq, if_neg hnodes, h]

theorem Colony.solveOn_of_last [Std.TransOrd S] [WordSource G] {c : Colony S α} {p : Problem S α}
    {schedule : Schedule} {source : G} {last : Run S α G} (hnodes : ¬p.nodes < 2)
    (h : (Run.begun c p source).iterations p schedule c.settings.iterations 1 = .ok last) :
    c.solveOn schedule p source = ⟨.ok last.report, last.close⟩ := by
  rw [solveOn_eq, if_neg hnodes, h]

theorem Colony.solveOn_ok [Std.TransOrd S] [WordSource G] {c : Colony S α} {p : Problem S α}
    {schedule : Schedule} {source : G} {report : Report S α}
    (h : (c.solveOn schedule p source).result = .ok report) :
    ¬p.nodes < 2 ∧ ∃ last,
      (Run.begun c p source).iterations p schedule c.settings.iterations 1 = .ok last ∧
        report = last.report ∧ (c.solveOn schedule p source).run = last.close := by
  rw [Colony.solveOn_eq] at h ⊢
  split at h
  · cases h
  · next hnodes =>
    refine ⟨hnodes, ?_⟩
    rw [if_neg hnodes]
    split at h
    · cases h
    · next last hlast =>
      cases h
      exact ⟨last, hlast, rfl, rfl⟩

end Stigmergy
