import Stigmergy.Proofs.Binary64.Distances
import Stigmergy.Proofs.Binary64.Shares
import Stigmergy.Proofs.Colony.Alike
import Stigmergy.Proofs.Colony.Completion
import Stigmergy.Proofs.Colony.Sound
import Stigmergy.Proofs.Tour.Length
import Stigmergy.Random.Script

/-!
# Two cities

Between two cities there is nothing to choose: an ant goes to the other one and comes back, whatever
the pheromone, and the way back is as long as the way there.

* `Cities.exists_move`, `Cities.walk_of_few`: an ant that has at most one city left to visit has a
  single move each time, and so it closes its tour whatever guides it.
* `isRoundTrip_two_iff`: the only round trip from either of two cities.
* `Cities.trail_of_pair`, `Cities.walk_of_pair`: every trail goes there and back, at twice the
  distance, and every ant finds one.
* `two_cities_are_solved_exactly`: so every run on two cities is settled in its first iteration.
-/

namespace Stigmergy.Tour

open Scalar Stigmergy.Random

variable {α : Type} [Scalar α] {c : Cities α} {s : State} {d : α}

theorem Move.unvisited_le {move : State × α} (h : Move c s move) :
    (unvisited c.size move.1).length ≤ (unvisited c.size s).length := by
  apply List.Sublist.length_le
  apply List.monotone_filter_right
  intro i hi
  rw [Bool.not_eq_true', Bool.eq_false_iff] at hi ⊢
  exact fun hvisited => hi ((h.visited i).mpr (.inl hvisited))

/-- From either of two cities, the only round trip goes to the other one and back. -/
theorem isRoundTrip_two_iff {city : Nat} (hcity : city < 2) {way : List Nat} :
    IsRoundTrip 2 city way ↔ way = [city, 1 - city, city] := by
  have hother (i : Nat) : i < 2 ∧ i ≠ city ↔ i = 1 - city := by omega
  unfold IsRoundTrip
  simp only [hother]
  constructor
  · rintro ⟨inner, rfl, hnodup, hmem⟩
    have hperm : inner.Perm [1 - city] :=
      (List.perm_ext_iff_of_nodup hnodup (List.nodup_singleton _)).mpr (by simpa using hmem)
    rw [List.perm_singleton.mp hperm]
    rfl
  · rintro rfl
    exact ⟨[1 - city], rfl, List.nodup_singleton _, by simp⟩

namespace Cities

/-- The other city is at the same distance, from either of two. -/
theorem distance?_of_pair [Mirrored α] (hdistance : c.distance? 0 1 = some d) {city : Nat}
    (hcity : city < 2) :
    c.distance? city (1 - city) = some d ∧ c.distance? (1 - city) city = some d := by
  have hback := hdistance
  rw [c.distance?_comm] at hback
  obtain rfl | rfl : city = 0 ∨ city = 1 := by omega
  · exact ⟨hdistance, hback⟩
  · exact ⟨hback, hdistance⟩

variable [Rounded α]

/-- An ant that has at most one city left to visit has a single move. -/
theorem exists_move (h : OnTour c.size s) (hfew : (unvisited c.size s).length ≤ 1)
    (hopen : isClosed c.size s = false) :
    ∃ move, c.problem.successors s = some [move] ∧ Move c s move := by
  obtain ⟨candidates, hsuccessors, hne, hmoves⟩ := moves?_spec h hopen
  obtain ⟨candidates', hsuccessors', hstates⟩ := Cities.candidates h
  obtain rfl : candidates = candidates' := by simpa [hsuccessors] using hsuccessors'
  have hlength : candidates.length ≤ 1 := by
    rw [← List.length_map, hstates]
    split
    · exact Nat.le_refl 1
    · rwa [List.length_map]
  obtain ⟨move, rfl⟩ : ∃ move, candidates = [move] :=
    List.length_eq_one_iff.mp (Nat.le_antisymm hlength (List.length_pos_iff.mpr hne))
  exact ⟨move, hsuccessors, hmoves move List.mem_cons_self⟩

variable {G : Type} [WordSource G]

/-- **An ant that has at most one city left to visit closes its tour**, whatever guides it: the
pheromone, its weights and the draws have no say. -/
theorem walk_of_few (guide : Guide State α) {city : Nat} (hcity : city < c.size)
    (hfew : (unvisited c.size (State.start city)).length ≤ 1) (g : G) :
    ∃ trail g', c.problem.walk guide (c.problem.start city) g = (.ok trail, g') := by
  let Forced (ant : Ant State α) : Prop := Fares c ant ∧ (unvisited c.size ant.here).length ≤ 1
  have hstep (ant : Ant State α) (g : G) (hant : Forced ant)
      (hopen : c.problem.isGoal ant.here = false) :
      ∃ next g', ant.step c.problem guide g = (.ok next, g') ∧ Forced next ∧
        remaining c.size next.here < remaining c.size ant.here := by
    obtain ⟨hfares, hleft⟩ := hant
    obtain ⟨move, hsuccessors, hmove⟩ := exists_move hfares.onTour hleft hopen
    have hvalid := Ant.isInvalid_eq_false_iff.mpr hmove.nonneg
    exact ⟨ant.goTo move, g, Ant.step_of_single hsuccessors hvalid g,
      ⟨hfares.goTo hmove, Nat.le_trans hmove.unvisited_le hleft⟩, hmove.closer⟩
  obtain ⟨last, g', hwalk, -, -⟩ := Ant.walk_total hstep (remaining_le c.size _)
    ⟨Fares.setOut hcity, hfew⟩ (g := g)
  exact ⟨last.trail, g', hwalk⟩

section Pair

variable [Divisible α] [Mirrored α] (hsize : c.size = 2) (hdistance : c.distance? 0 1 = some d)
  (hpos : ofNat 0 < d)
include hsize hdistance hpos

/-- **Every trail of two cities goes there and back**, at twice the distance. -/
theorem trail_of_pair {guide : Guide State α} {city : Nat} (hcity : city < 2) {g g' : G}
    {trail : Trail State α} (h : c.problem.walk guide (c.problem.start city) g = (.ok trail, g')) :
    trail.cost = d + d ∧ State.tour trail.path = [city, 1 - city, city] := by
  obtain ⟨-, -, hround⟩ := isRoundTrip_of_isWalk (by omega) (by omega) (Problem.isWalk_of_walk h)
  rw [hsize] at hround
  have htour := (isRoundTrip_two_iff hcity).mp hround
  have hsteps : consecutive [city, 1 - city, city] = [(city, 1 - city), (1 - city, city)] := rfl
  have htotal := total_of_walk h
  rw [htour, hsteps] at htotal
  obtain ⟨hthere, hback⟩ := distance?_of_pair hdistance hcity
  -- The sum begins with zero, which is lost without a trace.
  have hzero : ofNat 0 + d = d :=
    have hself : (ofNat 0 : α) ≤ ofNat 0 := Rounded.le_refl Rounded.number_zero
    Divisible.add_of_isZero_left ⟨hself, hself⟩ hpos
  have hcost : d + d = trail.cost := by simpa [total?, addStep, hthere, hback, hzero] using htotal
  exact ⟨hcost.symm, htour⟩

/-- Every ant of two cities finds its way, and it is not free. -/
theorem walk_of_pair (guide : Guide State α) {city : Nat} (hcity : city < 2) (g : G) :
    ∃ trail g', c.problem.walk guide (c.problem.start city) g = (.ok trail, g') ∧
      ¬trail.cost ≤ ofNat 0 := by
  have hlt : city < c.size := hsize.symm ▸ hcity
  have hfew : (unvisited c.size (State.start city)).length ≤ 1 := by
    rw [length_unvisited_start hlt]
    omega
  obtain ⟨trail, g', hwalk⟩ := walk_of_few guide hlt hfew g
  refine ⟨trail, g', hwalk, ?_⟩
  intro hfree
  have hnonneg := Rounded.le_of_lt hpos
  rw [(trail_of_pair hsize hdistance hpos hcity hwalk).1] at hfree
  exact Rounded.not_ge_of_lt hpos (Rounded.le_trans (Rounded.le_add_left hnonneg hnonneg) hfree)

end Pair

end Cities

/-- **Two cities are solved exactly by every colony**, whatever its settings, what it has run
before, the schedule and the source. The best trail goes from one city to the other and back, at
twice the distance. It is found in the first iteration, which alone improves, and no other cost is
in the histories. Room for these is taken for granted, as in `solveOn`. -/
theorem two_cities_are_solved_exactly [Rounded α] [Divisible α] [Mirrored α] {G : Type}
    [WordSource G] {s : Settings α} {colony : Colony State α} (hcolony : Colony.Reachable s colony)
    (hsize : c.size = 2) (hdistance : c.distance? 0 1 = some d) (hpos : ofNat 0 < d)
    (hfinite : isFinite (d + d) = true) (schedule : Schedule) (source : G) :
    let outcome := colony.solveOn schedule c.problem source
    ∃ report, outcome.result = .ok report ∧ report.best.cost = d + d ∧
      report.bestIteration = 1 ∧ report.best.path.length = 3 ∧
      (∃ city < 2, State.tour report.best.path = [city, 1 - city, city]) ∧
      report.costs = Array.replicate s.iterations (d + d) ∧
      report.iterationBests = Array.replicate s.iterations (d + d) ∧
      (History.ofEvents outcome.run.events).improvements = #[report.best] := by
  intro outcome
  have hs := hcolony.valid
  have hsound := hcolony.sound
  have hnodes {node : Nat} (hnode : node < c.problem.nodes) : node < 2 := hsize ▸ hnode
  obtain ⟨report, hreport⟩ : ∃ report, outcome.result = .ok report := by
    apply (Colony.Sound.kept hs).exists_report (show 2 ≤ c.size by omega) _ hsound
    intro colony _ node hnode g
    exact Cities.walk_of_pair hsize hdistance hpos colony.guide (hnodes hnode) g
  have hwalks : ∀ node < c.problem.nodes, ∀ (guide : Guide State α) (g g' : Keystream)
      (trail : Trail State α), c.problem.walk guide (c.problem.start node) g = (.ok trail, g') →
      trail.cost = d + d ∧ ∃ city < 2, State.tour trail.path = [city, 1 - city, city] := by
    intro node hnode guide g g' trail hwalk
    obtain ⟨hcost, htour⟩ := Cities.trail_of_pair hsize hdistance hpos (hnodes hnode) hwalk
    exact ⟨hcost, node, hnodes hnode, htour⟩
  have hbelow : d + d < infinity := by
    have hnonneg := Rounded.le_of_lt hpos
    exact (Rounded.isFinite_iff_lt (Rounded.add_nonneg hnonneg hnonneg)).mp hfinite
  have hsettings : colony.settings = s := hsound.settings
  obtain ⟨⟨htour, hcost, hiteration⟩, hcosts, hbests, himprovements⟩ :=
    Colony.report_of_same_cost (hsettings ▸ hs) hwalks hbelow hreport
  rw [hsettings] at hcosts hbests
  have hlength : report.best.path.length = 3 := by
    obtain ⟨city, -, hpath⟩ := htour
    simpa [State.tour] using congrArg List.length hpath
  exact ⟨report, hreport, hcost, hiteration, hlength, htour, hcosts, hbests, himprovements⟩

/-- Two cities that are 13 apart, for a bounded colony. -/
theorem two_cities_are_solved_exactly_in_three_iterations :
    let s : Settings Float := { Settings.preset .maxMin with iterations := 3 }
    let pair : Cities Float := ⟨#[⟨"a", 0, 12⟩, ⟨"b", 5, 0⟩], by decide, by decide +kernel⟩
    let colony : Colony State Float := Colony.fresh s
    s.Valid ∧ pair.size = 2 ∧ pair.distance? 0 1 = some 13 ∧ ofNat 0 < (13 : Float) ∧
      isFinite ((13 : Float) + 13) = true ∧
      ∃ report, (colony.solveOn .inOrder pair.problem (Script.mk #[1, 2] 0)).result = .ok report ∧
        report.best.cost = 13 + 13 ∧ report.costs = Array.replicate 3 (13 + 13) := by
  intro s pair colony
  have hvalid : s.Valid := by decide +kernel
  have hcolony : Colony.Reachable s colony := .new (Colony.ofSettings?_eq hvalid)
  have hdistance : pair.distance? 0 1 = some 13 := by decide +kernel
  have hpos : ofNat 0 < (13 : Float) := by decide +kernel
  have hfinite : isFinite ((13 : Float) + 13) = true := by decide +kernel
  obtain ⟨report, hreport, hcost, -, -, -, hcosts, -⟩ :=
    two_cities_are_solved_exactly hcolony rfl hdistance hpos hfinite .inOrder
      (Script.mk #[1, 2] 0)
  exact ⟨hvalid, rfl, hdistance, hpos, hfinite, report, hreport, hcost, hcosts⟩

end Stigmergy.Tour
