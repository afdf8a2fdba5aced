import Stigmergy.Binary64.Arithmetic
import Stigmergy.Graph
import Stigmergy.Proofs.Colony.Iteration
import Stigmergy.Random.Script

/-!
# Shorter runs are prefixes of longer ones

The number of iterations that a run may take shows in its first event and in its report, and nowhere
else. So runs that differ in it alone go through the same states.

* `Run.frame`: a run with another budget, and with events before its own.
* `Run.iterations_frame`: iterations take no notice of either.
* `Run.Extends`: a run's histories and events go on from those of another one.
* `Colony.runs_are_prefixes`: a run that succeeds has all shorter runs as its prefixes, and a run
  that fails leaves what the last run before the failure left.
-/

namespace Stigmergy

open Scalar Stigmergy.Random

variable {S α G : Type} [Ord S]

def Colony.withBudget (c : Colony S α) (budget : Nat) : Colony S α :=
  { c with settings := { c.settings with iterations := budget } }

namespace Run

/-- The run with another budget, and with events before its own. -/
def frame (budget : Nat) (earlier : Array (Event S α)) (run : Run S α G) : Run S α G :=
  { run with colony := run.colony.withBudget budget, events := earlier ++ run.events }

def frameStop (budget : Nat) (earlier : Array (Event S α)) (stop : Stop S α G) : Stop S α G :=
  { stop with run := stop.run.frame budget earlier }

def frameEnd (budget : Nat) (earlier : Array (Event S α)) :
    Except (Stop S α G) (Run S α G) → Except (Stop S α G) (Run S α G)
  | .error stop => .error (frameStop budget earlier stop)
  | .ok run => .ok (run.frame budget earlier)

variable {budget : Nat} {earlier : Array (Event S α)}

theorem tell_frame (run : Run S α G) (events : List (Event S α)) :
    (run.frame budget earlier).tell events = (run.tell events).frame budget earlier := by
  unfold tell frame
  simp only [Array.append_assoc]

variable [Scalar α]

theorem adopt_frame (run : Run S α G) (iteration : Nat) (trail : Trail S α) :
    (run.frame budget earlier).adopt iteration trail =
      (run.adopt iteration trail).frame budget earlier := by
  unfold adopt
  rw [apply_ite (frame budget earlier)]
  dsimp only
  rw [← tell_frame, ← tell_frame]
  rfl

theorem judged_frame (run : Run S α G) (iteration : Nat) (trails : List (Trail S α)) :
    (run.frame budget earlier).judged iteration trails =
      (run.judged iteration trails).frame budget earlier := by
  unfold judged
  rw [tell_frame, tell_frame, adopt_frame]
  rfl

theorem settled_frame (run : Run S α G) (iteration : Nat) (trails : List (Trail S α))
    (pheromone : Pheromone S α) :
    (run.frame budget earlier).settled iteration trails pheromone =
      (run.settled iteration trails pheromone).frame budget earlier := by
  unfold settled
  rw [judged_frame]
  unfold frame
  simp only [Array.push_append]
  rfl

variable [Std.TransOrd S]

theorem relaid_frame (run : Run S α G) (trails : List (Trail S α)) :
    (run.frame budget earlier).colony.relaid trails = run.colony.relaid trails := by
  have hadopt : (run.frame budget earlier).colony.adopt (leader trails) =
      (run.colony.adopt (leader trails)).withBudget budget := by
    unfold Colony.adopt
    rw [apply_ite (Colony.withBudget · budget)]
    rfl
  unfold Colony.relaid
  rw [hadopt]
  rfl

theorem learn_frame (run : Run S α G) (iteration : Nat) (trails : List (Trail S α)) :
    (run.frame budget earlier).learn iteration trails =
      frameEnd budget earlier (run.learn iteration trails) := by
  rw [learn_eq, learn_eq, relaid_frame]
  by_cases hfree : (trails.any fun t => t.cost ≤ ofNat 0) = true
  · rw [if_pos hfree, if_pos hfree, tell_frame]
    rfl
  · rw [if_neg hfree, if_neg hfree]
    cases run.colony.relaid trails with
    | error f =>
      dsimp only
      rw [judged_frame]
      rfl
    | ok pheromone =>
      dsimp only
      rw [settled_frame]
      rfl

variable [WordSource G] {p : Problem S α} {schedule : Schedule}

theorem iterate_frame (run : Run S α G) (iteration : Nat) :
    (run.frame budget earlier).iterate p schedule iteration =
      frameEnd budget earlier (run.iterate p schedule iteration) := by
  rw [iterate_eq, iterate_eq]
  have htrails : (run.frame budget earlier).trails p schedule iteration
      ((run.frame budget earlier).plans p).1 =
        run.trails p schedule iteration (run.plans p).1 := rfl
  rw [htrails]
  cases run.trails p schedule iteration (run.plans p).1 with
  | error halt => rfl
  | ok trails => exact learn_frame (run.drawn p) iteration trails

/-- **Iterations take no notice of the budget**, nor of what happened before them. -/
theorem iterations_frame (run : Run S α G) (count iteration : Nat) :
    (run.frame budget earlier).iterations p schedule count iteration =
      frameEnd budget earlier (run.iterations p schedule count iteration) := by
  induction count generalizing iteration run with
  | zero => rfl
  | succ count ih =>
    rw [iterations_succ_eq, iterations_succ_eq, iterate_frame]
    cases run.iterate p schedule iteration with
    | error stop => rfl
    | ok next => exact ih next (iteration + 1)

/-! ## Runs in parts -/

theorem iterations_add (run : Run S α G) (m n iteration : Nat) :
    run.iterations p schedule (m + n) iteration =
      match run.iterations p schedule m iteration with
      | .error stop => .error stop
      | .ok middle => middle.iterations p schedule n (iteration + m) := by
  induction m generalizing iteration run with
  | zero => rw [Nat.zero_add]; rfl
  | succ m ih =>
    rw [Nat.add_right_comm, iterations_succ_eq, iterations_succ_eq]
    cases run.iterate p schedule iteration with
    | error stop => rfl
    | ok next =>
      dsimp only
      rw [ih, Nat.add_assoc, Nat.add_comm 1 m]

/-- A run that halts has succeeded up to the iteration that halts it. -/
theorem iterations_error_split {run : Run S α G} {count iteration : Nat} {stop : Stop S α G}
    (h : run.iterations p schedule count iteration = .error stop) :
    ∃ j before, j < count ∧ run.iterations p schedule j iteration = .ok before ∧
      before.iterate p schedule (iteration + j) = .error stop := by
  induction count generalizing iteration run with
  | zero => cases h
  | succ count ih =>
    rw [iterations_succ_eq] at h
    cases hnext : run.iterate p schedule iteration with
    | error stop' =>
      rw [hnext] at h
      cases h
      exact ⟨0, run, by omega, rfl, hnext⟩
    | ok next =>
      rw [hnext] at h
      obtain ⟨j, before, hj, hbefore, hstop⟩ := ih h
      refine ⟨j + 1, before, by omega, ?_, ?_⟩
      · rw [iterations_succ_eq, hnext]
        exact hbefore
      · rw [← hstop, Nat.add_assoc, Nat.add_comm 1 j]

/-- After the iteration that halts a run, no budget helps. -/
theorem iterations_error_mono {run before : Run S α G} {j m iteration : Nat} {stop : Stop S α G}
    (hbefore : run.iterations p schedule j iteration = .ok before)
    (hstop : before.iterate p schedule (iteration + j) = .error stop) (hm : j < m) :
    run.iterations p schedule m iteration = .error stop := by
  obtain ⟨r, rfl⟩ : ∃ r, m = j + (r + 1) := ⟨m - j - 1, by omega⟩
  rw [iterations_add, hbefore]
  dsimp only
  rw [iterations_succ_eq, hstop]

/-- The histories and the events of a run go on from those of an earlier one. -/
structure Extends (run next : Run S α G) : Prop where
  costs : run.costs.toList <+: next.costs.toList
  iterationBests : run.iterationBests.toList <+: next.iterationBests.toList
  events : run.events.toList <+: next.events.toList

omit [Scalar α] [Std.TransOrd S] [WordSource G] in
theorem Extends.refl (run : Run S α G) : Extends run run :=
  ⟨List.prefix_rfl, List.prefix_rfl, List.prefix_rfl⟩

omit [Scalar α] [Std.TransOrd S] [WordSource G] in
theorem Extends.trans {a b c : Run S α G} (hab : Extends a b) (hbc : Extends b c) :
    Extends a c :=
  ⟨hab.costs.trans hbc.costs, hab.iterationBests.trans hbc.iterationBests,
    hab.events.trans hbc.events⟩

omit [Scalar α] [Std.TransOrd S] [WordSource G] in
theorem extends_tell (run : Run S α G) (events : List (Event S α)) :
    Extends run (run.tell events) := by
  refine ⟨List.prefix_rfl, List.prefix_rfl, ?_⟩
  unfold tell
  rw [Array.toList_append]
  exact List.prefix_append _ _

omit [Std.TransOrd S] [WordSource G] in
theorem extends_adopt (run : Run S α G) (iteration : Nat) (trail : Trail S α) :
    Extends run (run.adopt iteration trail) := by
  unfold adopt
  split
  · have hadopted : Extends run { run with
        colony := { run.colony with best := trail, band := run.colony.bandFor trail }
        bestIteration := iteration } := ⟨List.prefix_rfl, List.prefix_rfl, List.prefix_rfl⟩
    exact hadopted.trans ((extends_tell _ _).trans (extends_tell _ _))
  · exact Extends.refl run

omit [Std.TransOrd S] [WordSource G] in
theorem extends_judged (run : Run S α G) (iteration : Nat) (trails : List (Trail S α)) :
    Extends run (run.judged iteration trails) :=
  ((extends_tell run _).trans (extends_tell _ _)).trans (extends_adopt _ _ _)

omit [Std.TransOrd S] [WordSource G] in
theorem extends_settled (run : Run S α G) (iteration : Nat) (trails : List (Trail S α))
    (pheromone : Pheromone S α) : Extends run (run.settled iteration trails pheromone) := by
  refine (extends_judged run iteration trails).trans ?_
  unfold settled
  refine ⟨?_, ?_, ?_⟩ <;>
  · simp only [Array.toList_push]
    exact List.prefix_append _ _

theorem extends_iterate {run next : Run S α G} {iteration : Nat}
    (h : run.iterate p schedule iteration = .ok next) : Extends run next := by
  obtain ⟨trails, -, hlearn⟩ := iterate_ok h
  obtain ⟨-, pheromone, -, rfl⟩ := learn_ok hlearn
  have hdrawn : Extends run (run.drawn p) :=
    ⟨List.prefix_rfl, List.prefix_rfl, List.prefix_rfl⟩
  exact hdrawn.trans (extends_settled _ iteration trails pheromone)

theorem extends_iterations {run last : Run S α G} {count iteration : Nat}
    (h : run.iterations p schedule count iteration = .ok last) : Extends run last :=
  iterations_ok (P := Extends run) (fun hrun hnext => hrun.trans (extends_iterate hnext))
    (Extends.refl run) h

/-! ## Sources -/

omit [Ord S] [Scalar α] [Std.TransOrd S] in
theorem drawMany_add (nodes m n : Nat) (g : G) :
    (Plan.drawMany nodes (m + n) g).2 =
      (Plan.drawMany nodes n (Plan.drawMany nodes m g).2).2 := by
  induction m generalizing g with
  | zero =>
    rw [Nat.zero_add]
    rfl
  | succ m ih =>
    rw [Nat.add_right_comm]
    exact ih (Plan.draw nodes g).2

theorem settings_iterate {run next : Run S α G} {iteration : Nat}
    (h : run.iterate p schedule iteration = .ok next) :
    next.colony.settings = run.colony.settings := by
  obtain ⟨trails, -, hlearn⟩ := iterate_ok h
  obtain ⟨-, pheromone, -, rfl⟩ := learn_ok hlearn
  unfold settled
  simp only [colony_judged, Colony.settings_adopt, colony_drawn]

theorem source_iterate {run next : Run S α G} {iteration : Nat}
    (h : run.iterate p schedule iteration = .ok next) : next.source = (run.plans p).2 := by
  obtain ⟨trails, -, hlearn⟩ := iterate_ok h
  obtain ⟨-, pheromone, -, rfl⟩ := learn_ok hlearn
  exact source_judged (run.drawn p) iteration trails

/-- So many iterations draw so many times the plans of one. -/
theorem source_iterations {run last : Run S α G} {count iteration : Nat}
    (h : run.iterations p schedule count iteration = .ok last) :
    last.colony.settings = run.colony.settings ∧
      last.source = (Plan.drawMany p.nodes (count * run.colony.settings.antCount p.nodes)
        run.source).2 := by
  induction count generalizing iteration run with
  | zero =>
    cases h
    rw [Nat.zero_mul]
    exact ⟨rfl, rfl⟩
  | succ count ih =>
    rw [iterations_succ_eq] at h
    split at h
    · cases h
    · next next hnext =>
      obtain ⟨hsettings, hsource⟩ := ih h
      rw [settings_iterate hnext] at hsettings hsource
      refine ⟨hsettings, ?_⟩
      rw [hsource, source_iterate hnext, Nat.add_mul, Nat.one_mul, Nat.add_comm, drawMany_add]
      rfl

end Run

/-! ## Histories -/

namespace History

variable {S α : Type}

theorem ofEvents_eq (events : Array (Event S α)) :
    ofEvents events = events.toList.foldl record empty := by
  unfold ofEvents
  rw [Array.foldl_toList]

/-- Every field goes on from what it was. -/
structure Extends (h later : History S α) : Prop where
  antCosts : h.antCosts.toList <+: later.antCosts.toList
  iterationBests : h.iterationBests.toList <+: later.iterationBests.toList
  improvements : h.improvements.toList <+: later.improvements.toList

theorem extends_record (h : History S α) (event : Event S α) : Extends h (h.record event) := by
  have hrefl : Extends h h := ⟨List.prefix_rfl, List.prefix_rfl, List.prefix_rfl⟩
  cases event with
  | antFinished cost =>
    refine ⟨?_, List.prefix_rfl, List.prefix_rfl⟩
    simp only [record, addAnt, Array.toList_push]
    exact List.prefix_append _ _
  | iterationBest cost =>
    refine ⟨List.prefix_rfl, ?_, List.prefix_rfl⟩
    simp only [record, addIteration, Array.toList_push]
    exact List.prefix_append _ _
  | improved iteration trail =>
    refine ⟨List.prefix_rfl, List.prefix_rfl, ?_⟩
    simp only [record, addImprovement, Array.toList_push]
    exact List.prefix_append _ _
  | started | bandMoved | iterationEnded | finished => exact hrefl

theorem extends_foldl (h : History S α) (events : List (Event S α)) :
    Extends h (events.foldl record h) := by
  induction events generalizing h with
  | nil => exact ⟨List.prefix_rfl, List.prefix_rfl, List.prefix_rfl⟩
  | cons event events ih =>
    have hone := extends_record h event
    have hrest := ih (h.record event)
    exact ⟨hone.antCosts.trans hrest.antCosts, hone.iterationBests.trans hrest.iterationBests,
      hone.improvements.trans hrest.improvements⟩

theorem extends_of_prefix {events later : Array (Event S α)}
    (h : events.toList <+: later.toList) : Extends (ofEvents events) (ofEvents later) := by
  obtain ⟨more, hmore⟩ := h
  rw [ofEvents_eq, ofEvents_eq, ← hmore, List.foldl_append]
  exact extends_foldl _ more

/-- The costs of ants are recorded one by one. -/
theorem foldl_antFinished (h : History S α) (costs : List α) :
    (costs.map Event.antFinished).foldl record h =
      { h with antCosts := h.antCosts ++ costs.toArray } := by
  induction costs generalizing h with
  | nil => simp
  | cons cost costs ih =>
    rw [List.map_cons, List.foldl_cons, ih]
    simp [record, addAnt]

end History

variable [Scalar α]

namespace Run

def opening (c : Colony S α) (p : Problem S α) (budget : Nat) : Array (Event S α) :=
  #[.started c.settings.variant p.nodes (c.settings.antCount p.nodes) budget]

variable {c : Colony S α} {p : Problem S α} {budget : Nat} {source : G}

theorem begun_withBudget :
    begun (c.withBudget budget) p source =
      (Run.start c.restart source).frame budget (opening c p budget) := rfl

omit [Scalar α] in
theorem history_frame (run : Run S α G) :
    History.ofEvents (run.frame budget (opening c p budget)).events =
      History.ofEvents run.events := by
  have hevents : (run.frame budget (opening c p budget)).events =
      opening c p budget ++ run.events := rfl
  rw [hevents, History.ofEvents_eq, History.ofEvents_eq, Array.toList_append]
  rfl

omit [Scalar α] in
theorem history_close (run : Run S α G) :
    History.ofEvents run.close.events = History.ofEvents run.events := by
  have hevents : run.close.events = run.events ++
      #[.finished run.colony.best.cost run.bestIteration run.colony.pheromone.size] := rfl
  rw [hevents, History.ofEvents_eq, History.ofEvents_eq, Array.toList_append, List.foldl_append]
  rfl

theorem history_reported (run : Run S α G) (s : Settings α) (trails : List (Trail S α)) :
    History.ofEvents (run.tell (reported s trails)).events =
      { History.ofEvents run.events with
        antCosts := (History.ofEvents run.events).antCosts ++
          if s.reportsAnts then
            ((trails.takeWhile fun t => ¬t.cost ≤ ofNat 0).map Trail.cost).toArray
          else #[] } := by
  have hevents : (run.tell (reported s trails)).events =
      run.events ++ (reported s trails).toArray := rfl
  rw [hevents, History.ofEvents_eq, History.ofEvents_eq, Array.toList_append, List.foldl_append]
  unfold reported
  split
  · have hmap : ((trails.takeWhile fun t => ¬t.cost ≤ ofNat 0).map fun t =>
        (Event.antFinished t.cost : Event S α)) =
          ((trails.takeWhile fun t => ¬t.cost ≤ ofNat 0).map Trail.cost).map .antFinished := by
      rw [List.map_map]
      rfl
    rw [hmap, List.toList_toArray, History.foldl_antFinished]
  · simp

end Run

namespace Colony

variable [Std.TransOrd S] [WordSource G] {c : Colony S α} {p : Problem S α} {schedule : Schedule}
  {source : G} {budget : Nat}

/-- A run of any budget is the run without one, in a frame. -/
theorem solveOn_withBudget (hnodes : ¬p.nodes < 2) :
    (c.withBudget budget).solveOn schedule p source =
      match (Run.start c.restart source).iterations p schedule budget 1 with
      | .error stop =>
        ⟨.error stop.halt, stop.run.frame budget (Run.opening c p budget)⟩
      | .ok last =>
        ⟨.ok (last.frame budget (Run.opening c p budget)).report,
          (last.frame budget (Run.opening c p budget)).close⟩ := by
  rw [solveOn_eq, if_neg hnodes, Run.begun_withBudget, Run.iterations_frame]
  change (match Run.frameEnd budget (Run.opening c p budget)
    ((Run.start c.restart source).iterations p schedule budget 1) with
    | .error stop => _
    | .ok run => _) = _
  cases (Run.start c.restart source).iterations p schedule budget 1 <;> rfl

theorem solveOn_of_ok (hnodes : ¬p.nodes < 2) {last : Run S α G}
    (h : (Run.start c.restart source).iterations p schedule budget 1 = .ok last) :
    (c.withBudget budget).solveOn schedule p source =
      ⟨.ok (last.frame budget (Run.opening c p budget)).report,
        (last.frame budget (Run.opening c p budget)).close⟩ := by
  rw [solveOn_withBudget hnodes, h]

theorem solveOn_of_error (hnodes : ¬p.nodes < 2) {stop : Stop S α G}
    (h : (Run.start c.restart source).iterations p schedule budget 1 = .error stop) :
    (c.withBudget budget).solveOn schedule p source =
      ⟨.error stop.halt, stop.run.frame budget (Run.opening c p budget)⟩ := by
  rw [solveOn_withBudget hnodes, h]

/-- The history of a run is that of its iterations. -/
theorem history_of_ok (hnodes : ¬p.nodes < 2) {last : Run S α G}
    (h : (Run.start c.restart source).iterations p schedule budget 1 = .ok last) :
    History.ofEvents ((c.withBudget budget).solveOn schedule p source).run.events =
      History.ofEvents last.events := by
  rw [solveOn_of_ok hnodes h]
  dsimp only
  rw [Run.history_close, Run.history_frame]

/-- A shorter run succeeds where a longer one does, and its histories are prefixes. -/
theorem shorter_run {report : Report S α}
    (h : ((c.withBudget budget).solveOn schedule p source).result = .ok report) {m : Nat}
    (hm : m ≤ budget) :
    ∃ shorter, ((c.withBudget m).solveOn schedule p source).result = .ok shorter ∧
      shorter.costs.toList <+: report.costs.toList ∧
      shorter.iterationBests.toList <+: report.iterationBests.toList ∧
      History.Extends (History.ofEvents ((c.withBudget m).solveOn schedule p source).run.events)
        (History.ofEvents ((c.withBudget budget).solveOn schedule p source).run.events) := by
  have hnodes : ¬p.nodes < 2 := (solveOn_ok h).1
  cases hlast : (Run.start c.restart source).iterations p schedule budget 1 with
  | error stop =>
    rw [solveOn_of_error hnodes hlast] at h
    cases h
  | ok last =>
    obtain ⟨n, rfl⟩ : ∃ n, budget = m + n := ⟨budget - m, by omega⟩
    have hsplit := hlast
    rw [Run.iterations_add] at hsplit
    cases hmiddle : (Run.start c.restart source).iterations p schedule m 1 with
    | error stop =>
      rw [hmiddle] at hsplit
      cases hsplit
    | ok middle =>
      rw [hmiddle] at hsplit
      have hextends := Run.extends_iterations hsplit
      rw [history_of_ok hnodes hmiddle, history_of_ok hnodes hlast]
      rw [solveOn_of_ok hnodes hlast] at h
      cases h
      refine ⟨_, by rw [solveOn_of_ok hnodes hmiddle], hextends.costs, hextends.iterationBests, ?_⟩
      exact History.extends_of_prefix hextends.events

/-- What a run that fails after `k` iterations leaves, next to what a run of `k` iterations does. -/
structure LeftAsAfter (schedule : Schedule) (p : Problem S α) (k : Nat) (source : G)
    (failure : RunFailure S α) (failed before : Run S α G) : Prop where
  best : failed.colony.best = before.colony.best
  band : failed.colony.band = before.colony.band
  pheromone : failed.colony.pheromone = before.colony.pheromone
  source : failed.source =
    (Plan.drawMany p.nodes ((k + 1) * before.colony.settings.antCount p.nodes) source).2
  history :
    (∃ v, failure = .violation v ∧
      before.trails p schedule (k + 1) (before.plans p).1 = .error (.failure v) ∧
      History.ofEvents failed.events = History.ofEvents before.events) ∨
    failure = .freeTrail ∧ ∃ trails,
      before.trails p schedule (k + 1) (before.plans p).1 = .ok trails ∧
      (∃ t ∈ trails, t.cost ≤ ofNat 0) ∧
      History.ofEvents failed.events =
        { History.ofEvents before.events with
          antCosts := (History.ofEvents before.events).antCosts ++
            if before.colony.settings.reportsAnts then
              ((trails.takeWhile fun t => ¬t.cost ≤ ofNat 0).map Trail.cost).toArray
            else #[] }

/-- An iteration that fails leaves the run as it was, but for the source and the reported ants. -/
theorem leftAsAfter_of_iterate {start before : Run S α G} {k : Nat} {stop : Stop S α G}
    {failure : RunFailure S α} (hbefore : start.iterations p schedule k 1 = .ok before)
    (hstop : before.iterate p schedule (k + 1) = .error stop)
    (hhalt : stop.halt = .failure failure) :
    LeftAsAfter schedule p k start.source failure stop.run before := by
  obtain ⟨hsettings, hsource⟩ := Run.source_iterations hbefore
  have hdraws : (before.plans p).2 = (Plan.drawMany p.nodes
      ((k + 1) * before.colony.settings.antCount p.nodes) start.source).2 := by
    rw [Nat.add_mul, Nat.one_mul, Run.drawMany_add, hsettings, ← hsource, ← hsettings]
    rfl
  rcases Run.iterate_error hstop with ⟨halt, htrails, rfl⟩ | ⟨trails, htrails, hlearn⟩
  · cases halt with
    | fault f => cases hhalt
    | failure v =>
      cases hhalt
      exact
        { best := rfl
          band := rfl
          pheromone := rfl
          source := hdraws
          history := .inl ⟨v, rfl, htrails, rfl⟩ }
  · rcases Run.learn_error hlearn with ⟨hfree, rfl⟩ | ⟨-, f, -, rfl⟩
    · cases hhalt
      exact
        { best := rfl
          band := rfl
          pheromone := rfl
          source := hdraws
          history := .inr ⟨rfl, trails, htrails, hfree, Run.history_reported _ _ _⟩ }
    · cases hhalt

/-- A frame and an end change nothing of what is left. -/
theorem LeftAsAfter.frame {k m n : Nat} {failure : RunFailure S α} {failed before : Run S α G}
    (h : LeftAsAfter schedule p k source failure failed before) :
    LeftAsAfter schedule p k source failure (failed.frame m (Run.opening c p m))
      (before.frame n (Run.opening c p n)).close := by
  refine ⟨h.best, h.band, h.pheromone, h.source, ?_⟩
  rw [Run.history_close, Run.history_frame, Run.history_frame]
  exact h.history

/-- A run that fails has succeeded up to some iteration, and fails there with every larger
budget. -/
theorem failed_run (hnodes : ¬p.nodes < 2) {failure : RunFailure S α}
    (h : ((c.withBudget budget).solveOn schedule p source).result = .error (.failure failure)) :
    ∃ k, k < budget ∧
      (∃ report, ((c.withBudget k).solveOn schedule p source).result = .ok report) ∧
      (∀ m, k < m →
        ((c.withBudget m).solveOn schedule p source).result = .error (.failure failure)) ∧
      LeftAsAfter schedule p k source failure ((c.withBudget budget).solveOn schedule p source).run
        ((c.withBudget k).solveOn schedule p source).run := by
  cases hlast : (Run.start c.restart source).iterations p schedule budget 1 with
  | ok last =>
    rw [solveOn_of_ok hnodes hlast] at h
    cases h
  | error stop =>
    rw [solveOn_of_error hnodes hlast] at h
    have hhalt : stop.halt = .failure failure := by simpa using h
    obtain ⟨k, before, hk, hbefore, hstop⟩ := Run.iterations_error_split hlast
    refine ⟨k, hk, ⟨_, by rw [solveOn_of_ok hnodes hbefore]⟩, fun m hm => ?_, ?_⟩
    · rw [solveOn_of_error hnodes (Run.iterations_error_mono hbefore hstop hm)]
      exact congrArg Except.error hhalt
    · rw [Nat.add_comm] at hstop
      rw [solveOn_of_error hnodes hlast, solveOn_of_ok hnodes hbefore]
      exact (leftAsAfter_of_iterate hbefore hstop hhalt).frame

/-- **Failed and shorter runs are prefixes.** A run that succeeds goes on from every shorter run. A
run that fails after `k` iterations leaves what a run of `k` iterations does, but for the draws of
one more iteration and the ants reported in it. A problem with too few nodes leaves everything. -/
theorem runs_are_prefixes (c : Colony S α) (p : Problem S α) (schedule : Schedule) (source : G) :
    let outcome (n : Nat) := (c.withBudget n).solveOn schedule p source
    let history (n : Nat) := History.ofEvents (outcome n).run.events
    (∀ n report, (outcome n).result = .ok report → ∀ m ≤ n, ∃ shorter,
      (outcome m).result = .ok shorter ∧
      shorter.costs.toList <+: report.costs.toList ∧
      shorter.iterationBests.toList <+: report.iterationBests.toList ∧
      (history m).iterationBests.toList <+: (history n).iterationBests.toList ∧
      (history m).antCosts.toList <+: (history n).antCosts.toList ∧
      (history m).improvements.toList <+: (history n).improvements.toList) ∧
    (2 ≤ p.nodes → ∀ n failure, (outcome n).result = .error (.failure failure) →
      ∃ k, k < n ∧ (∃ report, (outcome k).result = .ok report) ∧
        (∀ m, k < m → (outcome m).result = .error (.failure failure)) ∧
        LeftAsAfter schedule p k source failure (outcome n).run (outcome k).run ∧
        (k = 0 → (outcome n).run.colony.best = c.restart.best ∧
          (outcome n).run.colony.band = c.restart.band ∧
          (outcome n).run.colony.pheromone = c.restart.pheromone)) ∧
    (p.nodes < 2 → ∀ n, (outcome n).result = .error (.failure (.tooFewNodes p.nodes)) ∧
      (outcome n).run.colony = c.withBudget n ∧ (outcome n).run.source = source ∧
      history n = History.empty) := by
  intro outcome history
  refine ⟨?_, ?_, ?_⟩
  · intro n report h m hm
    obtain ⟨shorter, hshorter, hcosts, hbests, hhistory⟩ := shorter_run h hm
    exact ⟨shorter, hshorter, hcosts, hbests, hhistory.iterationBests, hhistory.antCosts,
      hhistory.improvements⟩
  · intro hnodes n failure h
    have hnodes' : ¬p.nodes < 2 := by omega
    obtain ⟨k, hk, hok, hmono, hleft⟩ := failed_run hnodes' h
    refine ⟨k, hk, hok, hmono, hleft, ?_⟩
    rintro rfl
    have hzero : (outcome 0).run.colony = c.restart.withBudget 0 := by
      change ((c.withBudget 0).solveOn schedule p source).run.colony = _
      rw [solveOn_of_ok hnodes' rfl]
      rfl
    rw [hleft.best, hleft.band, hleft.pheromone, hzero]
    exact ⟨rfl, rfl, rfl⟩
  · intro hnodes n
    have houtcome : outcome n = ⟨.error (.failure (.tooFewNodes p.nodes)),
        Run.start (c.withBudget n) source⟩ := by
      change (c.withBudget n).solveOn schedule p source = _
      rw [solveOn_eq, if_pos hnodes]
    change _ ∧ _ ∧ _ ∧ History.ofEvents (outcome n).run.events = History.empty
    rw [houtcome]
    exact ⟨rfl, rfl, rfl, rfl⟩

/-- A run whose second ant finds a free way, after one iteration that succeeds. -/
theorem runs_are_prefixes_at_free_way :
    let s : Settings Float := { Settings.standard with ants := 1, reportsAnts := true }
    let ways : Graph Float := ⟨2, #[0, 1], [(0, [(2, 3)]), (1, [(2, 0)])], [2]⟩
    let c : Colony Int Float := Colony.fresh s
    let source := Script.mk #[0, 1, 0x80000000, 1] 0
    let outcome (n : Nat) := (c.withBudget n).solveOn .inOrder ways.problem source
    (outcome 2).result = .error (.failure .freeTrail) ∧ ∃ k < 2,
      (∃ report, (outcome k).result = .ok report) ∧
      (outcome 2).run.colony.best = (outcome k).run.colony.best := by
  intro s ways c source outcome
  have hfailed : (outcome 2).result = .error (.failure .freeTrail) := by
    have hfree : (match (outcome 2).result with
      | .error (.failure .freeTrail) => true
      | _ => false) = true := by decide +kernel
    split at hfree
    · next hresult => exact hresult
    · cases hfree
  obtain ⟨-, hfailures, -⟩ := runs_are_prefixes c ways.problem .inOrder source
  obtain ⟨k, hk, hok, -, hleft, -⟩ := hfailures (by decide) 2 .freeTrail hfailed
  exact ⟨hfailed, k, hk, hok, hleft.best⟩

end Colony

end Stigmergy
