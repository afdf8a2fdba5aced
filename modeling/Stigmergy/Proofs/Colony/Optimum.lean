import Stigmergy.Proofs.Binary64.Power
import Stigmergy.Proofs.Colony.Reports
import Stigmergy.Proofs.Tour.Shortest
import Stigmergy.Random.Script

/-!
# No report beats the shortest trip

A colony finds its tours step by step from a city that it draws. The shortest trip is found among
all round trips from city zero.

* `Colony.Names.total`: a trail that a report names costs the distances of its tour.
* `Colony.shortest_trip_is_never_beaten`: where the distances of a round trip add up to the same
  in any order, such a tour is one of those round trips, and so it is not cheaper than the shortest.
-/

namespace Stigmergy.Colony

open Scalar Stigmergy.Random
open Tour (Cities)

variable {α G : Type} [Scalar α] [WordSource G] {c : Colony Tour.State α} {cities : Cities α}
  {schedule : Schedule} {source : G} {report : Report Tour.State α}

/-- A trail that a report names costs the distances of its tour, added as the ant went. -/
theorem Names.total (hsize : 2 ≤ cities.size)
    (h : c.Names schedule cities.problem source report) :
    Cities.total? cities.distance? (consecutive (Tour.State.tour report.best.path)) =
      some report.best.cost := by
  obtain ⟨i, htrail⟩ := h.isTrail
  have hnodes : 0 < cities.problem.nodes := by
    change 0 < cities.size
    omega
  obtain ⟨city, -, guide, g, g', hwalk⟩ := Run.exists_walk_of_transcript hnodes htrail
  exact Cities.total_of_walk hwalk

/-- **No report beats the shortest trip**, where the distances of a round trip have the same sum in
any order. The tour of a report that names a trail, turned to start at city zero, is one of the
round trips that the shortest is chosen from, and as long as the report says. -/
theorem shortest_trip_is_never_beaten [Rounded α] (hexact : cities.AddsExactly)
    (h : (c.solveOn schedule cities.problem source).result = .ok report)
    (hsome : report.best.path ≠ []) :
    let way := Tour.turned 0 (Tour.State.tour report.best.path)
    (∃ trip, cities.shortest? = some trip ∧ trip.cost ≤ report.best.cost) ∧
      way ∈ Tour.roundTrips cities.size ∧
      Cities.trip? cities.distance? way = some ⟨way, report.best.cost⟩ := by
  intro way
  have hsize : 2 ≤ cities.size := Nat.not_lt.mp (solveOn_ok h).1
  have hpos : 0 < cities.size := by omega
  have hnames : c.Names schedule cities.problem source report := names_of_path_ne_nil h hsome
  obtain ⟨city, hcity, htour⟩ := hnames.roundTrip hsize
  obtain ⟨hround, hsteps⟩ := htour.turned hcity hpos
  have htrip : Cities.trip? cities.distance? way = some ⟨way, report.best.cost⟩ := by
    rw [Cities.trip?_eq, ← hexact way hround _ hsteps, hnames.total hsize]
    rfl
  have hway : way ∈ Tour.roundTrips cities.size := (Tour.mem_roundTrips_iff hpos).mpr hround
  obtain ⟨trip, hshortest, -, hleast⟩ := Cities.shortest?_spec hsize
  exact ⟨⟨trip, hshortest, hleast way hway _ htrip⟩, hway, htrip⟩

/-- The sides of the triangle are 8, 15 and 17, and their sums are not rounded. -/
theorem shortest_trip_is_never_beaten_on_triangle :
    let _ : Scalar Float := Binary64.withPower Binary64.sketchedPower
    let s : Settings Float :=
      { Settings.preset .elitist with ants := 1, iterations := 1, beta := ofNat 1 }
    let corners : Cities Float :=
      ⟨#[⟨"a", 0, 0⟩, ⟨"b", 8, 0⟩, ⟨"c", 0, 15⟩], by decide, by decide +kernel⟩
    let c : Colony Tour.State Float := fresh s
    s.Valid ∧ corners.AddsExactly ∧
      ∃ report, (c.solveOn .inOrder corners.problem (Script.mk #[0] 0)).result = .ok report ∧
        report.best.path ≠ [] ∧
        let way := Tour.turned 0 (Tour.State.tour report.best.path)
        (∃ trip, corners.shortest? = some trip ∧ trip.cost ≤ report.best.cost) ∧
          way ∈ Tour.roundTrips 3 ∧
          Cities.trip? corners.distance? way = some ⟨way, report.best.cost⟩ := by
  intro _ s corners c
  let _ := Binary64.rounded_withPower Binary64.sketchedPower
  have hvalid : s.Valid := by decide +kernel
  have hexact : corners.AddsExactly := by
    intro way hway steps hsteps
    have hall : ∀ way ∈ Tour.roundTrips 3, ∀ steps ∈ Tour.arrangements (consecutive way),
        Cities.total? corners.distance? steps =
          Cities.total? corners.distance? (consecutive way) := by decide +kernel
    exact hall way ((Tour.mem_roundTrips_iff (by decide)).mpr hway) steps
      (Tour.mem_arrangements_iff.mpr hsteps)
  have hsome : (match (c.solveOn .inOrder corners.problem (Script.mk #[0] 0)).result with
      | .ok report => !report.best.path.isEmpty
      | .error _ => false) = true := by decide +kernel
  split at hsome
  · next report hreport =>
    have hnonempty : report.best.path ≠ [] := by simpa using hsome
    exact ⟨hvalid, hexact, report, hreport, hnonempty,
      shortest_trip_is_never_beaten hexact hreport hnonempty⟩
  · cases hsome

end Stigmergy.Colony
