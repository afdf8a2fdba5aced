import Stigmergy.Binary64.Arithmetic
import Stigmergy.Graph
import Stigmergy.Proofs.Colony.Reachable
import Stigmergy.Proofs.Deposit.Update
import Stigmergy.Random.Script

/-!
# Colonies that have run before

* `Colony.Alike`: two colonies are told the same, and their pheromone was the same at first.
* `Colony.alike_solveOn`: runs change neither, however they end.
* `Alike.restart_eq`, `Alike.solveOn_eq`: colonies that are alike restart in the same state, so they
  run alike.
* `Colony.reused_is_fresh`: a colony that has run before runs like a fresh one.
-/

namespace Stigmergy

open Scalar Stigmergy.Random

variable {S α G : Type} [Ord S] [Scalar α]

namespace Colony

/-- The second colony is told what the first one is, and its pheromone was the same at first. -/
structure Alike (c d : Colony S α) : Prop where
  settings : d.settings = c.settings
  initial : d.pheromone.initial = c.pheromone.initial

variable {c d e : Colony S α}

omit [Scalar α] in
theorem Alike.refl (c : Colony S α) : Alike c c := ⟨rfl, rfl⟩

omit [Scalar α] in
theorem Alike.trans (hcd : Alike c d) (hde : Alike d e) : Alike c e :=
  ⟨hde.settings.trans hcd.settings, hde.initial.trans hcd.initial⟩

theorem Alike.adopt (h : Alike c d) (trail : Trail S α) : Alike c (d.adopt trail) := by
  constructor
  · simp [h.settings]
  · simp [h.initial]

variable [Std.TransOrd S]

theorem initial_relaid {trails : List (Trail S α)} {pheromone : Pheromone S α}
    (h : c.relaid trails = .ok pheromone) : pheromone.initial = c.pheromone.initial := by
  have hinitial := Deposit.initial_update h
  simpa using hinitial

end Colony

open Colony (Alike)

variable [Std.TransOrd S] [WordSource G] {p : Problem S α} {schedule : Schedule} {c d : Colony S α}

namespace Run

variable {run next : Run S α G} {iteration : Nat}

theorem alike_iterate (h : run.iterate p schedule iteration = .ok next) :
    Alike run.colony next.colony := by
  obtain ⟨trails, -, hlearn⟩ := iterate_ok h
  obtain ⟨-, pheromone, hrelaid, rfl⟩ := learn_ok hlearn
  constructor
  · simp [settled]
  · exact Colony.initial_relaid hrelaid

/-- An iteration that halts has changed the colony's best trail and band at most. -/
theorem alike_stop {stop : Stop S α G} (h : run.iterate p schedule iteration = .error stop) :
    Alike run.colony stop.run.colony := by
  obtain ⟨halt, -, rfl⟩ | ⟨trails, -, hlearn⟩ := iterate_error h
  · exact .refl _
  · obtain ⟨-, rfl⟩ | ⟨-, f, -, rfl⟩ := learn_error hlearn
    · exact .refl _
    · simp only [colony_judged, colony_drawn]
      exact (Alike.refl _).adopt _

end Run

namespace Colony

/-- Runs change neither what a colony is told nor what its pheromone was at first. -/
theorem alike_solveOn (c : Colony S α) (p : Problem S α) (source : G) :
    Alike c (c.solveOn schedule p source).run.colony := by
  rw [solveOn_eq]
  split
  · exact .refl c
  · have hbegun : Alike c (Run.begun c p source).colony := ⟨rfl, rfl⟩
    have hstep {run next : Run S α G} {k : Nat} (hrun : Alike c run.colony)
        (hnext : run.iterate p schedule k = .ok next) : Alike c next.colony :=
      hrun.trans (Run.alike_iterate hnext)
    split
    · next stop hstop =>
      obtain ⟨before, k, hbefore, hiterate⟩ :=
        Run.iterations_error (P := fun run => Alike c run.colony) hstep hbegun hstop
      exact hbefore.trans (Run.alike_stop hiterate)
    · next last hlast =>
      have hkept : Alike c last.colony :=
        Run.iterations_ok (P := fun run => Alike c run.colony) hstep hbegun hlast
      exact hkept

theorem Reachable.alike {s : Settings α} (hc : Reachable s c) : Alike (fresh s) c := by
  apply hc.invariant (P := Alike (fresh s))
  · intro _
    exact .refl _
  · intro c h
    exact ⟨h.settings, h.initial⟩
  · intro c G _ schedule p source h
    exact h.trans (alike_solveOn c p source)

omit [Std.TransOrd S] in
/-- Whatever earlier runs have left, a restart takes away. -/
theorem Alike.restart_eq (h : Alike c d) : d.restart = c.restart := by
  unfold restart Pheromone.reset
  rw [h.settings, h.initial]

theorem Alike.solveOn_eq (h : Alike c d) (hnodes : 2 ≤ p.nodes) (source : G) :
    d.solveOn schedule p source = c.solveOn schedule p source := by
  have hbegun : Run.begun d p source = Run.begun c p source := by
    unfold Run.begun
    rw [h.restart_eq, h.settings]
  have hmany : ¬p.nodes < 2 := by omega
  rw [Colony.solveOn_eq, Colony.solveOn_eq, if_neg hmany, if_neg hmany, hbegun, h.settings]

theorem Alike.solveWithin_eq (h : Alike c d) (hnodes : 2 ≤ p.nodes) (source : G) :
    d.solveWithin p source = c.solveWithin p source := by
  unfold solveWithin solve
  rw [h.solveOn_eq hnodes, h.restart_eq, h.settings]

/-- **A colony that has run before runs like a fresh one**, with the same result, events, source and
colony in the end. On too few nodes both fail alike. -/
theorem reused_is_fresh {s : Settings α} (hc : Reachable s c) :
    ∃ new : Colony S α, Colony.ofSettings? s = .ok new ∧
      ∀ {G : Type} [WordSource G] (schedule : Schedule) (p : Problem S α) (source : G),
        (2 ≤ p.nodes → c.solveOn schedule p source = new.solveOn schedule p source ∧
          c.solveWithin p source = new.solveWithin p source) ∧
        (p.nodes < 2 →
          (c.solveOn schedule p source).result = .error (.failure (.tooFewNodes p.nodes)) ∧
          (new.solveOn schedule p source).result = .error (.failure (.tooFewNodes p.nodes)) ∧
          (c.solveWithin p source).result = (new.solveWithin p source).result) := by
  refine ⟨fresh s, ofSettings?_eq hc.valid, ?_⟩
  intro G _ schedule p source
  constructor
  · intro hnodes
    exact ⟨hc.alike.solveOn_eq hnodes source, hc.alike.solveWithin_eq hnodes source⟩
  · intro hfew
    simp [solveWithin, solve, Colony.solveOn_eq, hfew]

/-- A bounded colony that has failed after one iteration succeeds as a fresh one does. -/
theorem reused_is_fresh_after_free_way :
    let s : Settings Float := { Settings.preset .maxMin with ants := 1, iterations := 2 }
    let ways : Graph Float := ⟨2, #[0, 1], [(0, [(2, 3)]), (1, [(2, 0)])], [2]⟩
    let c : Colony Int Float :=
      ((fresh s).solve ways.problem (Script.mk #[0, 1, 0x80000000, 1] 0)).run.colony
    s.Valid ∧ c.best.path = [0, 2] ∧
      c.solve ways.problem (Script.mk #[0, 1] 0) =
        (fresh s).solve ways.problem (Script.mk #[0, 1] 0) := by
  intro s ways c
  have hvalid : s.Valid := by decide +kernel
  have hfresh : Reachable s (fresh s : Colony Int Float) := .new (ofSettings?_eq hvalid)
  obtain ⟨new, hnew, hruns⟩ := reused_is_fresh (c := c) (.run .inOrder ways.problem _ hfresh)
  obtain rfl : fresh s = new := by
    rw [ofSettings?_eq hvalid] at hnew
    exact Except.ok.inj hnew
  exact ⟨hvalid, by decide +kernel, ((hruns .inOrder ways.problem _).1 (by decide)).1⟩

end Colony

end Stigmergy
