import Stigmergy.Binary64.Arithmetic
import Stigmergy.Graph
import Stigmergy.Proofs.Colony.Prefix
import Stigmergy.Random.Script

/-!
# Walks at the same time

All words of an iteration are drawn before its walks, and a walk reads what the iteration before
has left. So the order in which walks are finished shows in one thing alone: an iteration that
several ants fail is stopped by the first of them that is finished.

* `Colony.withParallel`: the colony with the walks of an iteration one after the other, or at the
  same time.
* `Run.Halts`: an ant of a run's next iteration comes to some end that is no goal.
* `Run.iterate_withParallel_ok`, `Run.iterate_withParallel_error`: one iteration, both ways.
* `Colony.Rivals`: two ants of one iteration come to such ends.
* `Colony.schedules_show_in_failures_alone`: walks at the same time are as good as walks one after
  the other, unless two ants of an iteration fail in different ways.
-/

namespace Stigmergy

open Scalar Stigmergy.Random

/-- The order in which one ant of every iteration is finished before all others. -/
def Schedule.first (i : Nat) : Schedule where
  order _ ants := if i < ants then i :: (List.range ants).erase i else List.range ants
  complete _ ants := by
    split
    · next hi => exact (List.perm_cons_erase (List.mem_range.mpr hi)).symm
    · exact .refl _

variable {S α G : Type} [Ord S]

def Colony.withParallel (c : Colony S α) (parallel : Bool) : Colony S α :=
  { c with settings := { c.settings with parallel } }

def Run.withParallel (run : Run S α G) (parallel : Bool) : Run S α G :=
  { run with colony := run.colony.withParallel parallel }

variable [Scalar α] {parallel : Bool}

namespace Run

theorem judged_withParallel (run : Run S α G) (iteration : Nat) (trails : List (Trail S α)) :
    (run.withParallel parallel).judged iteration trails =
      (run.judged iteration trails).withParallel parallel := by
  unfold judged adopt
  rw [apply_ite (withParallel · parallel)]
  rfl

theorem settled_withParallel [Std.TransOrd S] (run : Run S α G) (iteration : Nat)
    (trails : List (Trail S α)) (pheromone : Pheromone S α) :
    (run.withParallel parallel).settled iteration trails pheromone =
      (run.settled iteration trails pheromone).withParallel parallel := by
  unfold settled
  rw [judged_withParallel]
  rfl

theorem relaid_withParallel [Std.TransOrd S] (c : Colony S α) (trails : List (Trail S α)) :
    (c.withParallel parallel).relaid trails = c.relaid trails := by
  have hadopt : (c.withParallel parallel).adopt (leader trails) =
      (c.adopt (leader trails)).withParallel parallel := by
    unfold Colony.adopt
    rw [apply_ite (Colony.withParallel · parallel)]
    rfl
  unfold Colony.relaid
  rw [hadopt]
  rfl

variable [Std.TransOrd S]

/-- What an iteration makes of its trails does not depend on how they came. -/
theorem learn_withParallel (parallel : Bool) (run : Run S α G) (iteration : Nat)
    (trails : List (Trail S α)) :
    (run.withParallel parallel).learn iteration trails =
      match run.learn iteration trails with
      | .error stop => .error ⟨stop.halt, stop.run.withParallel parallel⟩
      | .ok next => .ok (next.withParallel parallel) := by
  have hrelaid : (run.withParallel parallel).colony.relaid trails = run.colony.relaid trails :=
    relaid_withParallel run.colony trails
  rw [learn_eq, learn_eq, hrelaid, judged_withParallel]
  by_cases hfree : (trails.any fun t => t.cost ≤ ofNat 0) = true
  · rw [if_pos hfree, if_pos hfree]
    rfl
  · rw [if_neg hfree, if_neg hfree]
    cases run.colony.relaid trails with
    | error f => rfl
    | ok pheromone => exact congrArg Except.ok (settled_withParallel run iteration trails pheromone)

end Run

/-! ## Walks -/

namespace Problem

variable [Std.TransOrd S] {p : Problem S α} {guide : Guide S α} {plans : List Plan}

/-- Trails that are found one after the other are found in any order. -/
theorem walkScheduled_of_walkAll {order : List Nat}
    (horder : order.Perm (List.range plans.length)) {trails : List (Trail S α)}
    (h : p.walkAll guide plans = .ok trails) : p.walkScheduled guide plans order = .ok trails := by
  cases hscheduled : p.walkScheduled guide plans order with
  | ok found =>
    have hfound := walkScheduled_ok horder hscheduled
    rw [h] at hfound
    cases hfound
    rfl
  | error halt =>
    obtain ⟨plan, hplan, hhalt⟩ := walkScheduled_error horder hscheduled
    obtain ⟨trail, -, hwalk⟩ := of_mem_of_mapM_ok h hplan
    rw [hhalt] at hwalk
    cases hwalk

/-- A walk that comes to no goal stops all others, if it is finished first. -/
theorem walkScheduled_first {i : Nat} {plan : Plan} {halt : Halt (Violation S α)}
    (hplan : plans[i]? = some plan) (hwalk : p.walkPlan guide plan = .error halt)
    (iteration : Nat) :
    p.walkScheduled guide plans ((Schedule.first i).order iteration plans.length) =
      .error halt := by
  have hi : i < plans.length := (List.getElem?_eq_some_iff.mp hplan).1
  have horder : (Schedule.first i).order iteration plans.length =
      i :: (List.range plans.length).erase i := if_pos hi
  have hentry : p.walkEntry guide plans.toArray i = .error halt := by
    unfold walkEntry
    rw [List.getElem?_toArray, hplan]
    dsimp only
    rw [hwalk]
    rfl
  rw [walkScheduled_eq, horder, List.mapM_cons, hentry]
  rfl

end Problem

namespace Run

variable [Std.TransOrd S] [WordSource G] {p : Problem S α} {run next last : Run S α G}
  {schedule : Schedule} {iteration count : Nat}

/-- An ant of the run's next iteration comes to this end, and to no goal. -/
def Halts (run : Run S α G) (p : Problem S α) (halt : Halt (Violation S α)) : Prop :=
  ∃ plan ∈ (run.plans p).1, p.walkPlan run.colony.guide plan = .error halt

omit [WordSource G] in
theorem trails_withParallel_ok {plans : List Plan} {trails : List (Trail S α)}
    (h : p.walkAll run.colony.guide plans = .ok trails) :
    (run.withParallel parallel).trails p schedule iteration plans = .ok trails := by
  unfold Run.trails
  split
  · exact Problem.walkScheduled_of_walkAll (schedule.complete _ _) h
  · exact h

omit [WordSource G] in
theorem trails_withParallel_error {plans : List Plan} {halt : Halt (Violation S α)}
    (h : p.walkAll run.colony.guide plans = .error halt) (parallel : Bool) (schedule : Schedule)
    (iteration : Nat) :
    ∃ halt', (run.withParallel parallel).trails p schedule iteration plans = .error halt' ∧
      ∃ plan ∈ plans, p.walkPlan run.colony.guide plan = .error halt' := by
  cases htrails : (run.withParallel parallel).trails p schedule iteration plans with
  | error halt' =>
    have hplan := trails_error htrails
    exact ⟨halt', rfl, hplan⟩
  | ok trails =>
    have hall := trails_ok htrails
    cases h.symm.trans hall

/-- An iteration that goes on does so in any order of its walks, and leaves the same. -/
theorem iterate_withParallel_ok (h : run.iterate p schedule iteration = .ok next)
    (parallel : Bool) (schedule' : Schedule) :
    (run.withParallel parallel).iterate p schedule' iteration =
      .ok (next.withParallel parallel) := by
  obtain ⟨trails, htrails, hlearn⟩ := iterate_ok h
  have htrails' : (run.withParallel parallel).trails p schedule' iteration (run.plans p).1 = _ :=
    trails_withParallel_ok (trails_ok htrails)
  have hlearn' := learn_withParallel parallel (run.drawn p) iteration trails
  rw [hlearn] at hlearn'
  exact (iterate_of_trails htrails').trans hlearn'

/-- An iteration that halts does so in any order of its walks, and leaves the same. Only where ants
come to ends of their own can it halt in another way. -/
theorem iterate_withParallel_error {stop : Stop S α G}
    (h : run.iterate p schedule iteration = .error stop) (parallel : Bool)
    (schedule' : Schedule) :
    ∃ halt, (run.withParallel parallel).iterate p schedule' iteration =
        .error ⟨halt, stop.run.withParallel parallel⟩ ∧
      (halt = stop.halt ∨ ∃ v v', run.Halts p v ∧ run.Halts p v' ∧
        stop.halt = v.map .violation ∧ halt = v'.map .violation) := by
  cases hall : p.walkAll run.colony.guide (run.plans p).1 with
  | error first =>
    obtain ⟨v', htrails', hv'⟩ := trails_withParallel_error hall parallel schedule' iteration
    have hiterate : (run.withParallel parallel).iterate p schedule' iteration =
        .error ⟨v'.map .violation, (run.drawn p).withParallel parallel⟩ := iterate_of_halt htrails'
    obtain ⟨v, htrails, rfl⟩ | ⟨trails, htrails, -⟩ := iterate_error h
    · exact ⟨_, hiterate, .inr ⟨v, v', trails_error htrails, hv', rfl, rfl⟩⟩
    · rw [trails_ok htrails] at hall
      cases hall
  | ok trails =>
    have hiterate : (run.withParallel parallel).iterate p schedule' iteration =
        ((run.drawn p).withParallel parallel).learn iteration trails :=
      iterate_of_trails (trails_withParallel_ok hall)
    obtain ⟨v, htrails, -⟩ | ⟨trails', htrails, hlearn⟩ := iterate_error h
    · obtain ⟨plan, hplan, hhalt⟩ := trails_error htrails
      obtain ⟨trail, -, hwalk⟩ := of_mem_of_mapM_ok hall hplan
      rw [hhalt] at hwalk
      cases hwalk
    · have hsame := hall.symm.trans (trails_ok htrails)
      cases hsame
      have hlearn' := learn_withParallel parallel (run.drawn p) iteration trails
      rw [hlearn] at hlearn'
      exact ⟨stop.halt, hiterate.trans hlearn', .inl rfl⟩

/-! ## Runs -/

/-- Iterations that all go on do so in any order of their walks, and leave the same. -/
theorem iterations_withParallel_ok (h : run.iterations p schedule count iteration = .ok last)
    (parallel : Bool) (schedule' : Schedule) :
    (run.withParallel parallel).iterations p schedule' count iteration =
      .ok (last.withParallel parallel) := by
  induction count generalizing run iteration with
  | zero =>
    cases h
    rfl
  | succ count ih =>
    rw [iterations_succ_eq] at h ⊢
    split at h
    · cases h
    · next next hnext =>
      rw [iterate_withParallel_ok hnext parallel schedule']
      exact ih h

/-- Iterations that one of them halts are halted by it in any order of their walks. -/
theorem iterations_withParallel_error {stop : Stop S α G}
    (h : run.iterations p schedule count iteration = .error stop) (parallel : Bool)
    (schedule' : Schedule) :
    ∃ halt, (run.withParallel parallel).iterations p schedule' count iteration =
        .error ⟨halt, stop.run.withParallel parallel⟩ ∧
      (halt = stop.halt ∨ ∃ j < count, ∃ before,
        run.iterations p schedule j iteration = .ok before ∧
        ∃ v v', before.Halts p v ∧ before.Halts p v' ∧
          stop.halt = v.map .violation ∧ halt = v'.map .violation) := by
  obtain ⟨j, before, hj, hbefore, hstop⟩ := iterations_error_split h
  obtain ⟨halt, hhalt, hrivals⟩ := iterate_withParallel_error hstop parallel schedule'
  refine ⟨halt, ?_, ?_⟩
  · exact iterations_error_mono (iterations_withParallel_ok hbefore parallel schedule') hhalt hj
  · cases hrivals with
    | inl hsame => exact .inl hsame
    | inr hrivals => exact .inr ⟨j, hj, before, hbefore, hrivals⟩

/-- An iteration that an ant halts, halts with this ant's end if the ant is finished first. -/
theorem iterate_first {halt : Halt (Violation S α)} (h : run.Halts p halt) :
    ∃ i, ∀ iteration, (run.withParallel true).iterate p (.first i) iteration =
      .error ⟨halt.map .violation, (run.drawn p).withParallel true⟩ := by
  obtain ⟨plan, hplan, hwalk⟩ := h
  obtain ⟨i, hi⟩ := List.mem_iff_getElem?.mp hplan
  refine ⟨i, fun iteration => ?_⟩
  have htrails : (run.withParallel true).trails p (.first i) iteration (run.plans p).1 =
      .error halt := by
    unfold Run.trails
    rw [if_pos (show (run.withParallel true).colony.settings.parallel = true from rfl)]
    exact Problem.walkScheduled_first hi hwalk iteration
  exact iterate_of_halt htrails

end Run

namespace Colony

variable [Std.TransOrd S] [WordSource G] {c : Colony S α} {p : Problem S α} {source : G}

/-- Two ants of one iteration come to these ends, and to no goals. -/
def Rivals (c : Colony S α) (p : Problem S α) (source : G) (halt halt' : Halt (Violation S α)) :
    Prop :=
  2 ≤ p.nodes ∧ ∃ k < c.settings.iterations, ∃ before,
    (Run.begun (c.withParallel false) p source).iterations p .inOrder k 1 = .ok before ∧
      before.Halts p halt ∧ before.Halts p halt'

/-- An ant that comes to no goal ends a run at the same time as others, if it is finished first in
its iteration. -/
theorem solveOn_first {halt halt' : Halt (Violation S α)} (h : c.Rivals p source halt halt') :
    ∃ i, ((c.withParallel true).solveOn (.first i) p source).result =
      .error (halt.map .violation) := by
  obtain ⟨hnodes, k, hk, before, hbefore, hhalt, -⟩ := h
  obtain ⟨i, hi⟩ := Run.iterate_first hhalt
  refine ⟨i, ?_⟩
  have hbegun : (Run.begun (c.withParallel true) p source).iterations p (.first i) k 1 =
      .ok (before.withParallel true) := Run.iterations_withParallel_ok hbefore true (.first i)
  have hall : (Run.begun (c.withParallel true) p source).iterations p (.first i)
      c.settings.iterations 1 = _ := Run.iterations_error_mono hbegun (hi (1 + k)) hk
  have hmany : ¬p.nodes < 2 := by omega
  rw [solveOn_of_stop hmany hall]

/-- Walks at the same time leave the run that walks one after the other leave. Only where two ants
of an iteration come to ends of their own can the result differ. -/
theorem solveOn_withParallel (c : Colony S α) (p : Problem S α) (source : G)
    (schedule : Schedule) :
    let serial := (c.withParallel false).solve p source
    let outcome := (c.withParallel true).solveOn schedule p source
    outcome.run = serial.run.withParallel true ∧
      (outcome.result = serial.result ∨ ∃ halt halt', c.Rivals p source halt halt' ∧
        serial.result = .error (halt.map .violation) ∧
        outcome.result = .error (halt'.map .violation)) := by
  intro serial outcome
  by_cases hnodes : p.nodes < 2
  · have hserial : serial = _ := solveOn_eq .inOrder (c.withParallel false) p source
    have houtcome : outcome = _ := solveOn_eq schedule (c.withParallel true) p source
    rw [if_pos hnodes] at hserial houtcome
    rw [hserial, houtcome]
    exact ⟨rfl, .inl rfl⟩
  · cases hrun : (Run.begun (c.withParallel false) p source).iterations p .inOrder
      c.settings.iterations 1 with
    | ok last =>
      have hother : (Run.begun (c.withParallel true) p source).iterations p schedule
          c.settings.iterations 1 = .ok (last.withParallel true) :=
        Run.iterations_withParallel_ok hrun true schedule
      have hserial : serial = _ := solveOn_of_last hnodes hrun
      have houtcome : outcome = _ := solveOn_of_last hnodes hother
      rw [hserial, houtcome]
      exact ⟨rfl, .inl rfl⟩
    | error stop =>
      obtain ⟨halt, hother, hrivals⟩ := Run.iterations_withParallel_error hrun true schedule
      have hserial : serial = _ := solveOn_of_stop hnodes hrun
      have houtcome : outcome = _ := solveOn_of_stop hnodes hother
      rw [hserial, houtcome]
      refine ⟨rfl, ?_⟩
      cases hrivals with
      | inl hsame => exact .inl (congrArg Except.error hsame)
      | inr hrivals =>
        obtain ⟨k, hk, before, hbefore, v, v', hv, hv', hstop, hhalt⟩ := hrivals
        refine .inr ⟨v, v', ⟨by omega, k, hk, before, hbefore, hv, hv'⟩, ?_, ?_⟩
        · exact congrArg Except.error hstop
        · exact congrArg Except.error hhalt

omit [Ord S] [Std.TransOrd S] [WordSource G] [Scalar α] in
theorem violation_injective {halt halt' : Halt (Violation S α)}
    (h : halt.map RunFailure.violation = halt'.map .violation) : halt = halt' := by
  cases halt <;> cases halt' <;> cases h <;> rfl

/-- **Schedules show in failures alone.** Walks that run at the same time leave the same colony,
source and events as walks that run one after the other, and they bring the same report. A run that
fails the one way fails the other way, in the same iteration; it can name another cause only where
two ants of that iteration come to ends of their own, and then some schedule does. -/
theorem schedules_show_in_failures_alone (c : Colony S α) (p : Problem S α) (source : G) :
    let serial := (c.withParallel false).solve p source
    let outcome (schedule : Schedule) := (c.withParallel true).solveOn schedule p source
    (∀ schedule, (outcome schedule).run = serial.run.withParallel true) ∧
    (∀ schedule report, (outcome schedule).result = .ok report ↔ serial.result = .ok report) ∧
    (∀ schedule, (outcome schedule).result = serial.result ∨
      ∃ halt halt', c.Rivals p source halt halt' ∧ serial.result = .error (halt.map .violation) ∧
        (outcome schedule).result = .error (halt'.map .violation)) ∧
    ((∀ schedule, (outcome schedule).result = serial.result) ↔
      ∀ halt halt', c.Rivals p source halt halt' → halt = halt') := by
  intro serial outcome
  have hruns (schedule : Schedule) := solveOn_withParallel c p source schedule
  refine ⟨fun schedule => (hruns schedule).1, ?_, fun schedule => (hruns schedule).2, ?_, ?_⟩
  · intro schedule report
    cases (hruns schedule).2 with
    | inl hsame => rw [show (outcome schedule).result = serial.result from hsame]
    | inr hrivals =>
      obtain ⟨halt, halt', -, hserial, houtcome⟩ := hrivals
      rw [show serial.result = _ from hserial, show (outcome schedule).result = _ from houtcome]
      constructor <;> intro h <;> cases h
  · intro hsame halt halt' hrivals
    obtain ⟨hnodes, k, hk, before, hbefore, hhalt, hhalt'⟩ := hrivals
    obtain ⟨i, hi⟩ := solveOn_first ⟨hnodes, k, hk, before, hbefore, hhalt, hhalt'⟩
    obtain ⟨j, hj⟩ := solveOn_first ⟨hnodes, k, hk, before, hbefore, hhalt', hhalt⟩
    have heq := hi.symm.trans ((hsame (.first i)).trans ((hsame (.first j)).symm.trans hj))
    exact violation_injective (Except.error.inj heq)
  · intro hagree schedule
    cases (hruns schedule).2 with
    | inl hsame => exact hsame
    | inr hrivals =>
      obtain ⟨halt, halt', hrivals, hserial, houtcome⟩ := hrivals
      cases hagree halt halt' hrivals
      exact houtcome.trans hserial.symm

/-- Two ants on dead ends of their own: which of them is named depends on the schedule. -/
theorem failure_depends_on_schedule :
    let s : Settings Float := { Settings.standard with ants := 2, iterations := 1 }
    let ends : Graph Float := ⟨2, #[0, 1], [(0, []), (1, [])], []⟩
    let c : Colony Int Float := fresh s
    let source := Script.mk #[0, 7, 0x80000000, 7] 0
    s.Valid ∧
      ((c.withParallel false).solve ends.problem source).result =
        .error (.failure (.violation (.deadEnd 0 0))) ∧
      ((c.withParallel true).solveOn (.first 1) ends.problem source).result =
        .error (.failure (.violation (.deadEnd 1 0))) := by
  intro s ends c source
  have hvalid : s.Valid := by decide +kernel
  refine ⟨hvalid, ?_, ?_⟩
  · have hfirst : (match ((c.withParallel false).solve ends.problem source).result with
      | .error (.failure (.violation (.deadEnd 0 0))) => true
      | _ => false) = true := by decide +kernel
    split at hfirst
    · next hresult => exact hresult
    · cases hfirst
  · have hsecond : (match ((c.withParallel true).solveOn (.first 1) ends.problem source).result with
      | .error (.failure (.violation (.deadEnd 1 0))) => true
      | _ => false) = true := by decide +kernel
    split at hsecond
    · next hresult => exact hresult
    · cases hsecond

/-- Where every node is a dead end, the second of two ants can end a run in place of the first, and
leaves what the first would have left. -/
theorem schedules_show_on_dead_ends :
    let s : Settings Float := { Settings.standard with ants := 2, iterations := 3 }
    let ends : Graph Float := ⟨2, #[0, 1], [(0, []), (1, [])], []⟩
    let c : Colony Int Float := fresh s
    let source := Script.mk #[0x80000000, 7, 0, 7] 0
    let serial := (c.withParallel false).solve ends.problem source
    c.Rivals ends.problem source (.failure (.deadEnd 1 0)) (.failure (.deadEnd 0 0)) ∧
      ∃ schedule, ((c.withParallel true).solveOn schedule ends.problem source).result ≠
          serial.result ∧
        ((c.withParallel true).solveOn schedule ends.problem source).run =
          serial.run.withParallel true := by
  intro s ends c source serial
  have hrivals : c.Rivals ends.problem source (.failure (.deadEnd 1 0))
      (.failure (.deadEnd 0 0)) := by
    refine ⟨by decide, 0, by decide, _, rfl, ?_, ?_⟩
    · exact ⟨⟨1, 7⟩, by decide +kernel, rfl⟩
    · exact ⟨⟨0, 7⟩, by decide +kernel, rfl⟩
  obtain ⟨hrun, -, -, hiff⟩ := schedules_show_in_failures_alone c ends.problem source
  have hdiffer : ¬∀ schedule, ((c.withParallel true).solveOn schedule ends.problem source).result =
      serial.result := fun hsame => nomatch hiff.mp hsame _ _ hrivals
  obtain ⟨schedule, hschedule⟩ := not_forall.mp hdiffer
  exact ⟨hrivals, schedule, hschedule, hrun schedule⟩

end Colony

end Stigmergy
