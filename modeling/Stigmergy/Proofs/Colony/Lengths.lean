import Stigmergy.Proofs.Colony.Optimum
import Stigmergy.Proofs.Tour.Exact

/-!
# Trails cost what their tours measure

An ant adds the distances of its moves from zero on, as it makes them. The length of a way adds the
distances between its cities from negative zero on, afterwards.

* `Cities.length?_of_walk`: the two agree on every walk.
* `Colony.trails_cost_their_lengths`: and so they do on the best trail of a report.
-/

namespace Stigmergy

open Scalar Stigmergy.Random
open Tour (Cities State)

variable {α G : Type} [Scalar α] [WordSource G] [Rounded α] [Divisible α] [Unsigned α]

/-- An ant's trail costs the length of its tour. -/
theorem Tour.Cities.length?_of_walk {cities : Cities α} (hsize : 2 ≤ cities.size) {city : Nat}
    (hcity : city < cities.size) {guide : Guide State α} {g g' : G} {trail : Trail State α}
    (h : cities.problem.walk guide (cities.problem.start city) g = (.ok trail, g')) :
    cities.length? (State.tour trail.path) = some trail.cost := by
  have hwalk := Problem.isWalk_of_walk h
  obtain ⟨-, -, hround⟩ := Cities.isRoundTrip_of_isWalk hsize hcity hwalk
  rw [Cities.length?_of_isRoundTrip hround]
  exact Cities.total_of_walk h

namespace Colony

/-- **Trails cost what their tours measure**, to the last digit. The trail of an ant costs the
length of its tour, from whichever city and by whatever pheromone it went, and so does the best
trail of a report that names one. -/
theorem trails_cost_their_lengths (cities : Cities α) (hsize : 2 ≤ cities.size) :
    (∀ (guide : Guide State α) (city : Nat) (g g' : G) (trail : Trail State α),
      city < cities.size →
      cities.problem.walk guide (cities.problem.start city) g = (.ok trail, g') →
      cities.length? (State.tour trail.path) = some trail.cost) ∧
    ∀ (c : Colony State α) (schedule : Schedule) (source : G) (report : Report State α),
      (c.solveOn schedule cities.problem source).result = .ok report → report.best.path ≠ [] →
      cities.length? (State.tour report.best.path) = some report.best.cost := by
  constructor
  · intro guide city g g' trail hcity hwalk
    exact Cities.length?_of_walk hsize hcity hwalk
  · intro c schedule source report hreport hsome
    have hnames := names_of_path_ne_nil hreport hsome
    obtain ⟨city, -, hround⟩ := hnames.roundTrip hsize
    rw [Cities.length?_of_isRoundTrip hround]
    exact hnames.total hsize

/-- The sides of the triangle are irrational, and their sums are rounded. -/
theorem trails_cost_their_lengths_on_triangle :
    let _ : Scalar Float := Binary64.withPower Binary64.sketchedPower
    let s : Settings Float :=
      { Settings.preset .elitist with ants := 1, iterations := 1, beta := ofNat 1 }
    let corners : Cities Float :=
      ⟨#[⟨"a", 0, 0⟩, ⟨"b", 1, 2⟩, ⟨"c", 3, 1⟩], by decide, by decide +kernel⟩
    let guide : Guide State Float := ⟨Pheromone.uniform 1, 1, 1⟩
    let start := corners.problem.start 2
    2 ≤ corners.size ∧
      (∃ trail g', corners.problem.walk guide start (Script.mk #[7] 0) = (.ok trail, g') ∧
        corners.length? (State.tour trail.path) = some trail.cost) ∧
      ∃ report,
        ((fresh s).solveOn .inOrder corners.problem (Script.mk #[0] 0)).result = .ok report ∧
          report.best.path ≠ [] ∧
          corners.length? (State.tour report.best.path) = some report.best.cost := by
  intro _ s corners guide start
  let _ := Binary64.rounded_withPower Binary64.sketchedPower
  let _ := Binary64.divisible_withPower Binary64.sketchedPower
  let _ := Binary64.unsigned_withPower Binary64.sketchedPower
  have hsize : 2 ≤ corners.size := by decide
  obtain ⟨hwalks, hreports⟩ := trails_cost_their_lengths (G := Script) corners hsize
  refine ⟨hsize, ?_, ?_⟩
  · have hsome : ((corners.problem.walk guide start (Script.mk #[7] 0)).1.toOption.any
        fun _ => true) = true := by decide +kernel
    obtain ⟨trail, htrail, -⟩ := exists_ok_of_any hsome
    exact ⟨trail, _, Prod.ext htrail rfl,
      hwalks guide 2 _ _ trail (by decide) (Prod.ext htrail rfl)⟩
  · have hsome : (((fresh s).solveOn .inOrder corners.problem
        (Script.mk #[0] 0)).result.toOption.any
          fun report => !report.best.path.isEmpty) = true := by decide +kernel
    obtain ⟨report, hreport, hsome⟩ := exists_ok_of_any hsome
    have hnonempty : report.best.path ≠ [] := by simpa using hsome
    exact ⟨report, hreport, hnonempty, hreports _ _ _ report hreport hnonempty⟩

end Colony

end Stigmergy
