import Stigmergy.Proofs.Binary64.Products
import Stigmergy.Proofs.Colony.Band
import Stigmergy.Proofs.Colony.Stored
import Stigmergy.Proofs.Pheromone.Cheaper
import Stigmergy.Proofs.Tour.RoundTrip
import Stigmergy.Random.Script

/-!
# Bands only move up

* `Run.best_iterate_cases`: an iteration leaves the best trail as it is, or finds a cheaper one.
* `Colony.Improves`: what the iterations after a best trail keep.
* `Colony.bands_move_up`: so a run's band never moves down once there is a best trail, and on cities
  it does so at neither end.
-/

namespace Stigmergy

open Scalar Stigmergy.Random
open Pheromone (Band ShrinkingPower)

variable {S α G : Type} [Ord S] [Std.TransOrd S] [Scalar α] [Rounded α] [WordSource G]
  {p : Problem S α} {schedule : Schedule} {iteration : Nat} {run next : Run S α G}

/-- An iteration leaves the best trail as it is, or puts a cheaper one of its ants' in its place. -/
theorem Run.best_iterate_cases (h : run.iterate p schedule iteration = .ok next) :
    next.colony.best = run.colony.best ∨
      next.colony.best.cost < run.colony.best.cost ∧ next.colony.best.IsReal ∧
        ∃ plan ∈ (run.plans p).1, p.IsWalk (p.start plan.node) next.colony.best.path := by
  obtain ⟨trails, -, htrails, -, hreal, -⟩ := iterate_settled h
  rw [best_iterate htrails h, Colony.best_adopt]
  split
  · next hlt =>
    obtain ⟨hleader, hfinite⟩ := Colony.isReal_of_adopted hreal hlt
    refine .inr ⟨hlt, hleader, ?_⟩
    have hmem : leader trails ∈ trails := by
      cases leader_mem trails with
      | inl hmem => exact hmem
      | inr hnone => exact absurd (by rw [hnone]; rfl) hleader.1
    obtain ⟨plan, hplan, hwalk⟩ := exists_walk_of_mem htrails hmem
    obtain ⟨g, hwalk⟩ := walk_of_walkPlan hwalk
    exact ⟨plan, hplan, Problem.isWalk_of_walk hwalk⟩
  · exact .inl rfl

/-- On cities, all best trails of a run are one state longer than there are cities. -/
theorem Run.length_best_iterations {cities : Tour.Cities α} (hsize : 2 ≤ cities.size)
    {count : Nat} {run last : Run Tour.State α G} (hrun : run.colony.best.path = [])
    (h : run.iterations cities.problem schedule count iteration = .ok last)
    (hfound : last.colony.best.path ≠ []) :
    last.colony.best.path.length = cities.size + 1 := by
  have hall : last.colony.best.path ≠ [] → last.colony.best.path.length = cities.size + 1 := by
    refine Run.iterations_ok (P := fun run => run.colony.best.path ≠ [] →
      run.colony.best.path.length = cities.size + 1) ?_ (fun hsome => absurd hrun hsome) h
    intro run next k hlength hiterate hsome
    rcases best_iterate_cases hiterate with hsame | ⟨-, -, plan, hplan, hwalk⟩
    · rw [hsame] at hsome ⊢
      exact hlength hsome
    · have hnodes : 0 < cities.problem.nodes := Nat.lt_of_lt_of_le (by decide) hsize
      have hcity : plan.node < cities.size := Plan.node_lt_of_mem_drawMany hnodes hplan
      exact (Tour.Cities.isRoundTrip_of_isWalk hsize hcity hwalk).1
  exact hall hfound

namespace Colony

variable {s : Settings α} {c c' : Colony S α} {cost : α}

/-- A banded colony has a best trail, which costs at most so much. -/
structure Improves (s : Settings α) (cost : α) (c : Colony S α) : Prop where
  banded : Banded s c
  found : c.best.path ≠ []
  cost_le : c.best.cost ≤ cost

omit [Rounded α] in
theorem Banded.band_of_found (h : Banded s c) (hfound : c.best.path ≠ []) :
    c.band = some (Band.ofTrail c.best s.rho s.q s.pBest) := by
  rw [h.band, bandOfBest_of_found hfound, h.settings]

omit [Std.TransOrd S] in
theorem BestIsReal.finite_of_found (h : c.BestIsReal) (hfound : c.best.path ≠ []) :
    isFinite c.best.cost = true := by
  rcases h with hnone | ⟨⟨-, hpos⟩, hlt⟩
  · rw [hnone] at hfound
    exact absurd rfl hfound
  · exact Rounded.isFinite_of_lt (Rounded.le_of_lt hpos) hlt

/-- A banded colony with a best trail improves on itself. -/
theorem Banded.improves (h : Banded s c) (hfound : c.best.path ≠ []) :
    Improves s c.best.cost c :=
  ⟨h, hfound, Rounded.le_refl (Rounded.number_of_lt h.best.cost_pos).2⟩

theorem Improves.iterate (hkept : Kept (Banded s : Colony S α → Prop))
    (h : Improves s cost run.colony) (hiterate : run.iterate p schedule iteration = .ok next) :
    Improves s cost next.colony := by
  have hbanded := hkept.iterate_ok h.banded hiterate
  rcases Run.best_iterate_cases hiterate with hsame | ⟨hlt, ⟨hfound, -⟩, -⟩
  · exact ⟨hbanded, hsame ▸ h.found, hsame ▸ h.cost_le⟩
  · exact ⟨hbanded, hfound, Rounded.le_trans (Rounded.le_of_lt hlt) h.cost_le⟩

/-- The band of a colony that improves on another one is not below the other's. -/
theorem Improves.band_le [Proportional α] (hpow : ShrinkingPower α) (hs : s.Common)
    (hb : s.Bounded) (hc : Banded s c) (hfound : c.best.path ≠ [])
    (h : Improves s c.best.cost c') :
    let b := Band.ofTrail c.best s.rho s.q s.pBest
    let b' := Band.ofTrail c'.best s.rho s.q s.pBest
    c.band = some b ∧ c'.band = some b' ∧ b.high ≤ b'.high ∧
      (c.best.path.length = c'.best.path.length → b.low ≤ b'.low) := by
  have hfinite := hc.best.finite_of_found hfound
  have hle := Band.ofTrail_le_ofTrail hpow hs.rho_pos hb.rho_lt hs.q.1 hs.q.2 hb.pBest_pos
    hb.pBest_lt hfound h.banded.best.cost_pos h.cost_le hfinite
  exact ⟨hc.band_of_found hfound, h.banded.band_of_found h.found, hle⟩

/-- The iterations of a run improve on its first best trail. -/
theorem Reachable.improves (hpow : ShrinkingPower α) (hvariant : s.variant = .maxMin)
    (hc : Reachable s c) {source : G} {i j : Nat} {earlier later : Run S α G} (hij : i ≤ j)
    (hearlier : (Run.begun c p source).iterations p schedule i 1 = .ok earlier)
    (hlater : (Run.begun c p source).iterations p schedule j 1 = .ok later)
    (hfound : earlier.colony.best.path ≠ []) :
    Banded s earlier.colony ∧ Improves s earlier.colony.best.cost later.colony := by
  have hb := hc.valid.bounded hvariant
  have hkept := Banded.kept (S := S) hpow hc.valid.common hb hvariant
  have hbegun : Banded s (Run.begun c p source).colony :=
    hkept.restart (hkept.reachable (Banded.fresh hb hvariant) hc)
  have hbanded : Banded s earlier.colony :=
    Run.iterations_ok (P := fun run => Banded s run.colony) hkept.iterate_ok hbegun hearlier
  obtain ⟨n, rfl⟩ : ∃ n, j = i + n := ⟨j - i, by omega⟩
  rw [Run.iterations_add, hearlier] at hlater
  exact ⟨hbanded, Run.iterations_ok (P := fun run => Improves s earlier.colony.best.cost run.colony)
    (Improves.iterate hkept) (hbanded.improves hfound) hlater⟩

/-- **Bands only move up**. From a run's first best trail on, the top of a bounded colony's band
never moves down, not even where it is infinite or zero. Nor does its bottom, between best trails
that have as many states, and on cities all best trails have. -/
theorem bands_move_up (α : Type) [Scalar α] [Rounded α] [Proportional α]
    (hpow : ShrinkingPower α) {s : Settings α} (hvariant : s.variant = .maxMin) :
    (∀ {S G : Type} [Ord S] [Std.TransOrd S] [WordSource G] {c : Colony S α} (p : Problem S α)
      (schedule : Schedule) (source : G) (i j : Nat) (earlier later : Run S α G),
      Reachable s c → i ≤ j →
      (Run.begun c p source).iterations p schedule i 1 = .ok earlier →
      (Run.begun c p source).iterations p schedule j 1 = .ok later →
      earlier.colony.best.path ≠ [] →
        let b := Band.ofTrail earlier.colony.best s.rho s.q s.pBest
        let b' := Band.ofTrail later.colony.best s.rho s.q s.pBest
        earlier.colony.band = some b ∧ later.colony.band = some b' ∧ b.high ≤ b'.high ∧
          (earlier.colony.best.path.length = later.colony.best.path.length → b.low ≤ b'.low)) ∧
    ∀ {G : Type} [WordSource G] {c : Colony Tour.State α} (cities : Tour.Cities α)
      (schedule : Schedule) (source : G) (i j : Nat) (earlier later : Run Tour.State α G),
      Reachable s c → 2 ≤ cities.size → i ≤ j →
      (Run.begun c cities.problem source).iterations cities.problem schedule i 1 = .ok earlier →
      (Run.begun c cities.problem source).iterations cities.problem schedule j 1 = .ok later →
      earlier.colony.best.path ≠ [] →
        let b := Band.ofTrail earlier.colony.best s.rho s.q s.pBest
        let b' := Band.ofTrail later.colony.best s.rho s.q s.pBest
        earlier.colony.band = some b ∧ later.colony.band = some b' ∧ b.high ≤ b'.high ∧
          b.low ≤ b'.low := by
  constructor
  · intro S G _ _ _ c p schedule source i j earlier later hc hij hearlier hlater hfound
    obtain ⟨hbanded, himproves⟩ := hc.improves hpow hvariant hij hearlier hlater hfound
    exact himproves.band_le hpow hc.valid.common (hc.valid.bounded hvariant) hbanded hfound
  · intro G _ c cities schedule source i j earlier later hc hsize hij hearlier hlater hfound
    obtain ⟨hbanded, himproves⟩ := hc.improves hpow hvariant hij hearlier hlater hfound
    obtain ⟨hband, hband', hhigh, hlow⟩ :=
      himproves.band_le hpow hc.valid.common (hc.valid.bounded hvariant) hbanded hfound
    have hlength := Run.length_best_iterations hsize rfl hearlier hfound
    have hlength' := Run.length_best_iterations hsize rfl hlater himproves.found
    exact ⟨hband, hband', hhigh, hlow (hlength.trans hlength'.symm)⟩

/-- On the graph as on the corners, the second trail is cheaper than the first and has as many
states. -/
theorem bands_move_up_to_second_trails :
    let _ : Scalar Float := Binary64.withPower Binary64.sketchedPower
    let s (pBest : Float) : Settings Float :=
      { Settings.preset .maxMin with ants := 1, beta := ofNat 1, pBest }
    let ways : Graph Float :=
      ⟨2, #[0, 1], [(0, [(2, 3)]), (1, [(3, 1)]), (2, [(4, 1)]), (3, [(4, 1)])], [4]⟩
    let corners : Tour.Cities Float :=
      ⟨#[⟨"a", 0, 0⟩, ⟨"b", 4, 0⟩, ⟨"c", 4, 3⟩, ⟨"d", 0, 3⟩], by decide, by decide +kernel⟩
    let onWays := Run.begun (fresh (s (ratio 1 8))) ways.problem
      (Script.mk #[0, 0, 4294967295, 0] 0)
    let onCorners := Run.begun (fresh (s (ratio 1 32))) corners.problem
      (Script.mk #[0, 5, 0, 0] 0)
    (s (ratio 1 8)).Valid ∧ (s (ratio 1 32)).Valid ∧
      (∃ first second, onWays.iterations ways.problem .inOrder 1 1 = .ok first ∧
        onWays.iterations ways.problem .inOrder 2 1 = .ok second ∧
        second.colony.best.cost < first.colony.best.cost ∧
        first.colony.best.path.length = second.colony.best.path.length ∧
        ∃ b b', first.colony.band = some b ∧ second.colony.band = some b' ∧ b.high ≤ b'.high ∧
          b.low ≤ b'.low) ∧
      ∃ first second, onCorners.iterations corners.problem .inOrder 1 1 = .ok first ∧
        onCorners.iterations corners.problem .inOrder 2 1 = .ok second ∧
        second.colony.best.cost < first.colony.best.cost ∧
        ∃ b b', first.colony.band = some b ∧ second.colony.band = some b' ∧ b.high ≤ b'.high ∧
          b.low ≤ b'.low := by
  intro _ s ways corners onWays onCorners
  let _ := Binary64.rounded_withPower Binary64.sketchedPower
  let _ := Binary64.proportional_withPower Binary64.sketchedPower
  have hways : (s (ratio 1 8)).Valid := by decide +kernel
  have hcorners : (s (ratio 1 32)).Valid := by decide +kernel
  refine ⟨hways, hcorners, ?_, ?_⟩
  · have hruns : ((onWays.iterations ways.problem .inOrder 1 1).toOption.any fun first =>
        (onWays.iterations ways.problem .inOrder 2 1).toOption.any fun second =>
          !first.colony.best.path.isEmpty &&
            decide (second.colony.best.cost < first.colony.best.cost ∧
              first.colony.best.path.length = second.colony.best.path.length)) = true := by
      decide +kernel
    obtain ⟨first, hfirst, hruns⟩ := exists_ok_of_any hruns
    obtain ⟨second, hsecond, hruns⟩ := exists_ok_of_any hruns
    obtain ⟨hfound, hcheaper, hlength⟩ : first.colony.best.path ≠ [] ∧
        second.colony.best.cost < first.colony.best.cost ∧
        first.colony.best.path.length = second.colony.best.path.length := by simpa using hruns
    obtain ⟨hgraphs, -⟩ := bands_move_up Float Binary64.shrinkingPower_sketched
      (show (s (ratio 1 8)).variant = .maxMin from rfl)
    obtain ⟨hband, hband', hhigh, hlow⟩ := hgraphs ways.problem .inOrder _ 1 2 first second
      (.new (Colony.ofSettings?_eq hways)) (by decide) hfirst hsecond hfound
    exact ⟨first, second, hfirst, hsecond, hcheaper, hlength, _, _, hband, hband', hhigh,
      hlow hlength⟩
  · have hruns : ((onCorners.iterations corners.problem .inOrder 1 1).toOption.any fun first =>
        (onCorners.iterations corners.problem .inOrder 2 1).toOption.any fun second =>
          !first.colony.best.path.isEmpty &&
            decide (second.colony.best.cost < first.colony.best.cost)) = true := by
      decide +kernel
    obtain ⟨first, hfirst, hruns⟩ := exists_ok_of_any hruns
    obtain ⟨second, hsecond, hruns⟩ := exists_ok_of_any hruns
    obtain ⟨hfound, hcheaper⟩ : first.colony.best.path ≠ [] ∧
        second.colony.best.cost < first.colony.best.cost := by simpa using hruns
    obtain ⟨-, hcities⟩ := bands_move_up Float Binary64.shrinkingPower_sketched
      (show (s (ratio 1 32)).variant = .maxMin from rfl)
    obtain ⟨hband, hband', hhigh, hlow⟩ := hcities corners .inOrder _ 1 2 first second
      (.new (Colony.ofSettings?_eq hcorners)) (by decide) (by decide) hfirst hsecond hfound
    exact ⟨first, second, hfirst, hsecond, hcheaper, _, _, hband, hband', hhigh, hlow⟩

end Colony

end Stigmergy
