import Mathlib.Logic.Function.Iterate
import Stigmergy.Binary64.Arithmetic
import Stigmergy.Graph
import Stigmergy.Proofs.Colony.Prefix
import Stigmergy.Random.Script

/-!
# What a run draws

A run draws its plans and nothing else, and so many for every iteration that it comes to. What it
finds shows in how many iterations these are, and in none of the plans.

* `Plan.skip`: a source after one plan.
* `Run.itinerary`: the plans of every iteration that a run comes to.
* `Run.getElem?_itinerary`: these are drawn from the source that the iterations before have left.
* `Colony.plans_ignore_search`: so runs from one source draw the same plans, whatever they search.
-/

namespace Stigmergy

open Stigmergy.Random

namespace Plan

variable {G : Type} [WordSource G]

/-- The source after one plan: a draw below the number of nodes, and then a word. -/
def skip (nodes : Nat) (g : G) : G := (WordSource.next64 (below nodes g).2).2

theorem source_drawMany (nodes ants : Nat) (g : G) :
    (drawMany nodes ants g).2 = (skip nodes)^[ants] g := by
  induction ants generalizing g with
  | zero => rfl
  | succ ants ih => exact ih (skip nodes g)

theorem getElem?_drawMany {nodes ants j : Nat} (g : G) (hj : j < ants) :
    (drawMany nodes ants g).1[j]? = some (draw nodes ((skip nodes)^[j] g)).1 := by
  induction ants generalizing g j with
  | zero => omega
  | succ ants ih =>
    cases j with
    | zero => rfl
    | succ j => exact ih (skip nodes g) (by omega)

end Plan

variable {S α G : Type} [Ord S] [Std.TransOrd S] [Scalar α] [WordSource G]

namespace Run

/-- The plans of so many iterations, the first of them numbered `iteration`, as far as the run
comes. -/
def itinerary (p : Problem S α) (schedule : Schedule) :
    (count iteration : Nat) → Run S α G → List (List Plan)
  | 0, _, _ => []
  | count + 1, iteration, run =>
    (run.plans p).1 :: match run.iterate p schedule iteration with
      | .error _ => []
      | .ok next => itinerary p schedule count (iteration + 1) next

variable {p : Problem S α} {schedule : Schedule} {run : Run S α G} {count iteration : Nat}

/-- A run comes to an iteration if all before it go on. -/
theorem getElem?_itinerary {k : Nat} {plans : List Plan} :
    (run.itinerary p schedule count iteration)[k]? = some plans ↔
      k < count ∧ ∃ next, run.iterations p schedule k iteration = .ok next ∧
        (next.plans p).1 = plans := by
  induction count generalizing k iteration run with
  | zero => simp [itinerary]
  | succ count ih =>
    unfold itinerary
    cases k with
    | zero => simp [iterations]
    | succ k =>
      rw [List.getElem?_cons_succ, iterations_succ_eq]
      cases run.iterate p schedule iteration with
      | error stop => simp
      | ok next => simpa using ih

theorem length_itinerary {last : Run S α G}
    (h : run.iterations p schedule count iteration = .ok last) :
    (run.itinerary p schedule count iteration).length = count := by
  induction count generalizing iteration run with
  | zero => rfl
  | succ count ih =>
    rw [iterations_succ_eq] at h
    unfold itinerary
    cases hnext : run.iterate p schedule iteration with
    | error stop =>
      rw [hnext] at h
      cases h
    | ok next =>
      rw [hnext] at h
      rw [List.length_cons, ih h]

/-- An iteration that halts a run has drawn its plans, as any other. -/
theorem source_iterate_error {stop : Stop S α G}
    (h : run.iterate p schedule iteration = .error stop) : stop.run.source = (run.plans p).2 := by
  cases iterate_error h with
  | inl hhalt =>
    obtain ⟨halt, -, rfl⟩ := hhalt
    rfl
  | inr hlearn =>
    obtain ⟨trails, -, hlearn⟩ := hlearn
    cases learn_error hlearn with
    | inl hfree =>
      obtain ⟨-, rfl⟩ := hfree
      rfl
    | inr hfault =>
      obtain ⟨-, f, -, rfl⟩ := hfault
      exact source_judged (run.drawn p) iteration trails

omit [Std.TransOrd S] [Scalar α] in
theorem source_plans (run : Run S α G) (p : Problem S α) :
    (run.plans p).2 =
      (Plan.skip p.nodes)^[run.colony.settings.antCount p.nodes] run.source :=
  Plan.source_drawMany _ _ _

theorem source_of_ok {last : Run S α G}
    (h : run.iterations p schedule count iteration = .ok last) :
    last.source =
      (Plan.skip p.nodes)^[count * run.colony.settings.antCount p.nodes] run.source := by
  rw [(source_iterations h).2, Plan.source_drawMany]

theorem source_of_error {stop : Stop S α G}
    (h : run.iterations p schedule count iteration = .error stop) :
    stop.run.source =
      (Plan.skip p.nodes)^[(run.itinerary p schedule count iteration).length *
        run.colony.settings.antCount p.nodes] run.source := by
  induction count generalizing iteration run with
  | zero => cases h
  | succ count ih =>
    rw [iterations_succ_eq] at h
    unfold itinerary
    cases hnext : run.iterate p schedule iteration with
    | error stop' =>
      rw [hnext] at h
      cases h
      rw [source_iterate_error hnext, source_plans, List.length_singleton, Nat.one_mul]
    | ok next =>
      rw [hnext] at h
      rw [ih h, settings_iterate hnext, source_iterate hnext, source_plans, List.length_cons,
        Nat.add_one_mul, Function.iterate_add_apply]

end Run

namespace Colony

def itinerary (schedule : Schedule) (c : Colony S α) (p : Problem S α) (source : G) :
    List (List Plan) :=
  (Run.begun c p source).itinerary p schedule c.settings.iterations 1

variable {c : Colony S α} {p : Problem S α} {schedule : Schedule} {source : G}

/-- Every iteration draws its plans where the one before it has left the source. -/
theorem plans_of_itinerary {k : Nat} {plans : List Plan}
    (h : (c.itinerary schedule p source)[k]? = some plans) :
    (Plan.drawMany p.nodes (c.settings.antCount p.nodes)
      ((Plan.skip p.nodes)^[k * c.settings.antCount p.nodes] source)).1 = plans := by
  obtain ⟨-, run, hrun, hplans⟩ := Run.getElem?_itinerary.mp h
  have hsource : run.source =
      (Plan.skip p.nodes)^[k * c.settings.antCount p.nodes] source := Run.source_of_ok hrun
  have hsettings : run.colony.settings = c.settings := (Run.source_iterations hrun).1
  rw [← hplans, ← hsource, ← hsettings]
  rfl

/-- What is left of the source tells how many iterations there were. -/
theorem source_solveOn (hnodes : 2 ≤ p.nodes) :
    (c.solveOn schedule p source).run.source =
      (Plan.skip p.nodes)^[(c.itinerary schedule p source).length *
        c.settings.antCount p.nodes] source := by
  have hmany : ¬p.nodes < 2 := by omega
  cases hall : (Run.begun c p source).iterations p schedule c.settings.iterations 1 with
  | ok last =>
    rw [solveOn_of_last hmany hall]
    unfold itinerary
    rw [Run.length_itinerary hall]
    exact Run.source_of_ok hall
  | error stop =>
    rw [solveOn_of_stop hmany hall]
    exact Run.source_of_error hall

theorem length_itinerary_of_ok {report : Report S α}
    (h : (c.solveOn schedule p source).result = .ok report) :
    (c.itinerary schedule p source).length = c.settings.iterations := by
  obtain ⟨-, last, hlast, -⟩ := solveOn_ok h
  exact Run.length_itinerary hlast

/-- **Plans take no notice of the search.** Two runs from one source, with as many ants on problems
with as many nodes, draw the same plans in every iteration that both come to. Each plan is found
behind all that were drawn before it and starts on a node of the problem. No run draws anything
else: it leaves its source behind the plans of all iterations it has come to, which are all of them
unless it fails. -/
theorem plans_ignore_search {S' α' : Type} [Ord S'] [Std.TransOrd S'] [Scalar α']
    (c : Colony S α) (c' : Colony S' α') (p : Problem S α) (p' : Problem S' α')
    (schedule schedule' : Schedule) (source : G) (hnodes : 2 ≤ p.nodes)
    (hsame : p'.nodes = p.nodes)
    (hants : c'.settings.antCount p'.nodes = c.settings.antCount p.nodes) :
    let ants := c.settings.antCount p.nodes
    let behind (plans : Nat) := (Plan.skip p.nodes)^[plans] source
    let itinerary := c.itinerary schedule p source
    let itinerary' := c'.itinerary schedule' p' source
    (∀ (k : Nat) (plans plans' : List Plan), itinerary[k]? = some plans →
      itinerary'[k]? = some plans' → plans = plans') ∧
    (∀ (k : Nat) (plans : List Plan), itinerary[k]? = some plans ↔ k < c.settings.iterations ∧
      ∃ run, (Run.begun c p source).iterations p schedule k 1 = .ok run ∧
        (run.plans p).1 = plans) ∧
    (∀ k run, (Run.begun c p source).iterations p schedule k 1 = .ok run →
      run.source = behind (k * ants)) ∧
    (∀ (k : Nat) (plans : List Plan), itinerary[k]? = some plans → plans.length = ants ∧
      ∀ (j : Nat) (plan : Plan), plans[j]? = some plan →
        plan = (Plan.draw p.nodes (behind (k * ants + j))).1 ∧ plan.node < p.nodes) ∧
    (c.solveOn schedule p source).run.source = behind (itinerary.length * ants) ∧
    ((∃ report, (c.solveOn schedule p source).result = .ok report) →
      itinerary.length = c.settings.iterations) := by
  intro ants behind itinerary itinerary'
  refine ⟨?_, fun _ _ => Run.getElem?_itinerary, fun _ _ hrun => Run.source_of_ok hrun, ?_,
    source_solveOn hnodes, fun ⟨_, hok⟩ => length_itinerary_of_ok hok⟩
  · intro k plans plans' hplans hplans'
    rw [← plans_of_itinerary hplans, ← plans_of_itinerary hplans', hants, hsame]
  · intro k plans hplans
    rw [← plans_of_itinerary hplans]
    refine ⟨Plan.length_drawMany _ _ _, ?_⟩
    intro j plan hplan
    have hnode := Plan.node_lt_of_mem_drawMany (by omega) (List.mem_of_getElem? hplan)
    have hj := (List.getElem?_eq_some_iff.mp hplan).1
    rw [Plan.length_drawMany] at hj
    rw [Plan.getElem?_drawMany _ hj, Option.some.injEq, ← Function.iterate_add_apply,
      Nat.add_comm] at hplan
    exact ⟨hplan.symm, hnode⟩

/-- A run that fails in its second iteration and a longer one of another variant, on states of
another type, draw the same plans in both. -/
theorem plans_ignore_search_of_free_way :
    let s : Settings Float := { Settings.standard with ants := 1, iterations := 2 }
    let s' : Settings Float := { Settings.preset .maxMin with ants := 1, iterations := 3 }
    let ways : Graph Float := ⟨2, #[0, 1], [(0, [(2, 3)]), (1, [(2, 0)])], [2]⟩
    let jumps : Problem Nat Float := ⟨2, id, fun n => some [(n + 2, 1)], (2 ≤ ·), 1, 1⟩
    let source := Script.mk #[0, 1, 0x80000000, 1] 0
    let outcome := (fresh s : Colony Int Float).solveOn .inOrder ways.problem source
    let itinerary := (fresh s : Colony Int Float).itinerary .inOrder ways.problem source
    let itinerary' := (fresh s' : Colony Nat Float).itinerary .inOrder jumps source
    outcome.result.toOption.isNone ∧ itinerary.length = 2 ∧ itinerary'.length = 3 ∧
      itinerary[1]? = itinerary'[1]? ∧ outcome.run.source = (Plan.skip 2)^[2] source := by
  intro s s' ways jumps source outcome itinerary itinerary'
  obtain ⟨hplans, -, -, -, hsource, -⟩ := plans_ignore_search (fresh s : Colony Int Float)
    (fresh s' : Colony Nat Float) ways.problem jumps .inOrder .inOrder source (by decide) rfl rfl
  have hlength : itinerary.length = 2 := by decide +kernel
  have hlength' : itinerary'.length = 3 := by decide +kernel
  have hsecond : itinerary[1]? = some itinerary[1] := List.getElem?_eq_getElem (by omega)
  have hsecond' : itinerary'[1]? = some itinerary'[1] := List.getElem?_eq_getElem (by omega)
  refine ⟨by decide +kernel, hlength, hlength', ?_, ?_⟩
  · rw [hsecond, hsecond', hplans 1 _ _ hsecond hsecond']
  · have hleft : outcome.run.source = (Plan.skip 2)^[itinerary.length * 1] source := hsource
    rw [hlength] at hleft
    exact hleft

end Colony

end Stigmergy
