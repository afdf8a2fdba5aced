import Stigmergy.Proofs.Colony.Kept

/-!
# Runs that come to a report

* `Run.trails_total`: where every ant finds its way, an iteration has its trails, at least one.
* `Kept.iterate_total`: where none of these is free, the iteration goes on.
* `Kept.exists_report`: and so the run comes to a report.
-/

namespace Stigmergy

open Scalar Stigmergy.Random

variable {S α G : Type} [Ord S] [Std.TransOrd S] [Scalar α] [WordSource G] {p : Problem S α}
  {schedule : Schedule} {iteration : Nat} {run : Run S α G}

/-- Where every ant finds its way, an iteration has its trails, at least one. -/
theorem Run.trails_total {Q : Trail S α → Prop} (hnodes : 0 < p.nodes)
    (hwalks : ∀ node < p.nodes, ∀ g : Keystream, ∃ trail g',
      p.walk run.colony.guide (p.start node) g = (.ok trail, g') ∧ Q trail) :
    ∃ trails, run.trails p schedule iteration (run.plans p).1 = .ok trails ∧ trails ≠ [] ∧
      ∀ t ∈ trails, Q t := by
  have hplans : ∀ plan ∈ (run.plans p).1, ∃ trail,
      p.walkPlan run.colony.guide plan = .ok trail ∧ Q trail := by
    intro plan hplan
    have hnode := Plan.node_lt_of_mem_drawMany hnodes hplan
    obtain ⟨trail, g', hwalk, htrail⟩ := hwalks plan.node hnode (Keystream.ofSeed plan.seed)
    exact ⟨trail, congrArg Prod.fst hwalk, htrail⟩
  cases htrails : run.trails p schedule iteration (run.plans p).1 with
  | error halt =>
    obtain ⟨plan, hplan, hhalt⟩ := Run.trails_error htrails
    obtain ⟨trail, hwalk, -⟩ := hplans plan hplan
    rw [hhalt] at hwalk
    cases hwalk
  | ok trails =>
    refine ⟨trails, rfl, ?_, ?_⟩
    · have hlength := Run.length_trails htrails
      have hants : 0 < run.colony.settings.antCount p.nodes := Settings.antCount_pos hnodes
      exact List.ne_nil_of_length_pos (by omega)
    · intro t ht
      obtain ⟨plan, hplan, hfound⟩ := Run.exists_walk_of_mem htrails ht
      obtain ⟨trail, hwalk, htrail⟩ := hplans plan hplan
      rw [hfound] at hwalk
      cases hwalk
      exact htrail

namespace Colony.Kept

variable [Rounded α] {P : Colony S α → Prop} (hkept : Kept P) (hnodes : 2 ≤ p.nodes)
  (hwalks : ∀ c : Colony S α, P c → ∀ node < p.nodes, ∀ g : Keystream, ∃ trail g',
    p.walk c.guide (p.start node) g = (.ok trail, g') ∧ ¬trail.cost ≤ ofNat 0)
include hkept hnodes hwalks

/-- Where every ant finds its way, and none for free, an iteration goes on. -/
theorem iterate_total (h : P run.colony) :
    ∃ next, run.iterate p schedule iteration = .ok next ∧ P next.colony := by
  obtain ⟨trails, htrails, -, hcosts⟩ := Run.trails_total (by omega) (hwalks run.colony h)
  have hdrawn : P (run.drawn p).colony := h
  rw [Run.iterate_of_trails htrails]
  exact hkept.learn_ok iteration hdrawn (Run.isReal_of_trails htrails hcosts)

/-- **Where every ant finds its way, and none for free, the run comes to a report.** -/
theorem exists_report {c : Colony S α} (h : P c) (source : G) :
    ∃ report, (c.solveOn schedule p source).result = .ok report := by
  have hbegun : P (Run.begun c p source).colony := hkept.restart h
  obtain ⟨last, hlast⟩ := Run.iterations_total (P := fun run => P run.colony)
    (fun _ _ hrun => hkept.iterate_total hnodes hwalks hrun) c.settings.iterations 1 hbegun
  rw [solveOn_of_last (Nat.not_lt.mpr hnodes) hlast]
  exact ⟨_, rfl⟩

end Colony.Kept

end Stigmergy
