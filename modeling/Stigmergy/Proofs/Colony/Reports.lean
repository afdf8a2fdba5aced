import Stigmergy.Proofs.Colony.Selection
import Stigmergy.Proofs.Tour.RoundTrip

/-!
# What reports name

The first best trail is one of no states at an infinite cost, and a trail has to be cheaper to take
its place. So a run whose trails are all infinite ends with a report of no trail.

* `Run.walk_of_transcript`: the trails of a run are walks of its ants.
* `Colony.FindsFinite`: some ant of a run comes to a goal at a cost that is not infinite.
* `Colony.Names`: a report names a trail of its run, at a finite cost.
* `Colony.reports_name_finite_trails`: a report names a trail if an ant has found a finite one, and
  names none otherwise.
-/

namespace Stigmergy

open Scalar Stigmergy.Random

variable {S α G : Type} [Ord S] [Std.TransOrd S] [Scalar α] [WordSource G]

/-- Every trail of a transcript is one that an ant has walked from a node. -/
theorem Run.exists_walk_of_transcript {p : Problem S α} {schedule : Schedule}
    (hnodes : 0 < p.nodes) {count iteration k i : Nat} {run : Run S α G} {trail : Trail S α}
    (h : IsTrailAt (run.transcript p schedule count iteration) k i trail) :
    ∃ node < p.nodes, ∃ (guide : Guide S α) (g g' : Keystream),
      p.walk guide (p.start node) g = (.ok trail, g') := by
  induction count generalizing iteration run k with
  | zero =>
    obtain ⟨trails, hk, -⟩ := h
    simp [transcript] at hk
  | succ count ih =>
    unfold transcript at h
    split at h
    · obtain ⟨trails, hk, -⟩ := h
      simp at hk
    · next trails htrails =>
      obtain ⟨found, hk, hi⟩ := h
      cases k with
      | zero =>
        obtain rfl : trails = found := by simpa using hk
        obtain ⟨plan, hplan, hwalk⟩ := exists_walk_of_mem htrails (List.mem_of_getElem? hi)
        obtain ⟨g, hwalk⟩ := walk_of_walkPlan hwalk
        have hnode : plan.node < p.nodes := Plan.node_lt_of_mem_drawMany hnodes hplan
        exact ⟨plan.node, hnode, _, _, g, hwalk⟩
      | succ k =>
        split at hk
        · simp at hk
        · exact ih ⟨found, by simpa using hk, hi⟩

/-- Every trail of a transcript is a walk from one of the problem's nodes. -/
theorem Run.walk_of_transcript {p : Problem S α} {schedule : Schedule} (hnodes : 0 < p.nodes)
    {count iteration k i : Nat} {run : Run S α G} {trail : Trail S α}
    (h : IsTrailAt (run.transcript p schedule count iteration) k i trail) :
    trail.path ≠ [] ∧ ∃ node < p.nodes, p.IsWalk (p.start node) trail.path := by
  obtain ⟨node, hnode, guide, g, g', hwalk⟩ := exists_walk_of_transcript hnodes h
  exact ⟨Problem.trail_nonempty hwalk, node, hnode, Problem.isWalk_of_walk hwalk⟩

namespace Colony

/-- Some ant of a run comes to a goal at a cost that is not infinite. -/
def FindsFinite (schedule : Schedule) (c : Colony S α) (p : Problem S α) (source : G) : Prop :=
  ∃ k i trail, IsTrailAt (c.transcript schedule p source) k i trail ∧ isFinite trail.cost = true

/-- A report names a trail that an ant has walked in the iteration it names, at a finite cost. -/
structure Names (schedule : Schedule) (c : Colony S α) (p : Problem S α) (source : G)
    (report : Report S α) : Prop where
  nonempty : report.best.path ≠ []
  finite : isFinite report.best.cost = true
  first : 1 ≤ report.bestIteration
  last : report.bestIteration ≤ c.settings.iterations
  isTrail : ∃ i,
    IsTrailAt (c.transcript schedule p source) (report.bestIteration - 1) i report.best
  walked : ∃ node < p.nodes, p.IsWalk (p.start node) report.best.path

variable [Rounded α] {c : Colony S α} {p : Problem S α} {schedule : Schedule} {source : G}
  {report : Report S α}

/-- A report names one of its run's finite trails, or it names none as there is none. -/
theorem names_or_infinite (h : (c.solveOn schedule p source).result = .ok report) :
    c.FindsFinite schedule p source ∧ c.Names schedule p source report ∨
      ¬c.FindsFinite schedule p source ∧ report.best = Trail.unbounded ∧
        report.bestIteration = 0 := by
  obtain ⟨hmany, last, hlast, rfl, -⟩ := solveOn_ok h
  have hnodes : 0 < p.nodes := by omega
  have hants : 0 < c.settings.antCount p.nodes := Settings.antCount_pos hnodes
  have hbegun : Run.Chronicle c.settings p.nodes [] (Run.begun c p source) := Run.chronicle_begun
  have hchronicle : Run.Chronicle c.settings p.nodes (c.transcript schedule p source) last :=
    hbegun.iterations hants hlast
  have hlength : (c.transcript schedule p source).length = c.settings.iterations :=
    Run.length_transcript hlast
  cases hchronicle.selected with
  | inl hnone =>
    obtain ⟨hinfinite, hbest, hiteration⟩ := hnone
    refine .inr ⟨?_, hbest, hiteration⟩
    intro ⟨k, i, trail, htrail, hfinite⟩
    simp [hinfinite htrail] at hfinite
  | inr hsome =>
    obtain ⟨k, i, hfirst, hfinite, hiteration⟩ := hsome
    have hk := hfirst.isTrail.lt_length
    obtain ⟨hnonempty, hwalked⟩ := Run.walk_of_transcript hnodes hfirst.isTrail
    have hnumber : last.report.bestIteration = k + 1 := hiteration
    refine .inl ⟨⟨k, i, _, hfirst.isTrail, hfinite⟩, ?_⟩
    exact
      { nonempty := hnonempty
        finite := hfinite
        first := by omega
        last := by omega
        isTrail := ⟨i, hnumber ▸ hfirst.isTrail⟩
        walked := hwalked }

/-- A report whose best trail has states names it. -/
theorem names_of_path_ne_nil (h : (c.solveOn schedule p source).result = .ok report)
    (hsome : report.best.path ≠ []) : c.Names schedule p source report := by
  cases names_or_infinite h with
  | inl hfinds => exact hfinds.2
  | inr hnone =>
    rw [hnone.2.1] at hsome
    exact absurd rfl hsome

omit [Rounded α] in
/-- A trail that a report names on cities is a round trip. -/
theorem Names.roundTrip {c : Colony Tour.State α} {cities : Tour.Cities α}
    {report : Report Tour.State α} (hsize : 2 ≤ cities.size)
    (h : c.Names schedule cities.problem source report) :
    ∃ city < cities.size,
      Tour.IsRoundTrip cities.size city (Tour.State.tour report.best.path) := by
  obtain ⟨city, hcity, hwalk⟩ := h.walked
  obtain ⟨-, -, htrip⟩ := Tour.Cities.isRoundTrip_of_isWalk hsize hcity hwalk
  exact ⟨city, hcity, htrip⟩

/-- **A report names a trail of its run if one of them is finite**, on cities a round trip. Where
all trails are infinite it names none. Costs and places may be as large as they like: a move fails
only at a cost that is negative or no number, and up to 64 cities with finite places are taken. -/
theorem reports_name_finite_trails (α : Type) [Scalar α] [Rounded α] :
    (∀ {S G : Type} [Ord S] [Std.TransOrd S] [WordSource G] (c : Colony S α) (p : Problem S α)
      (schedule : Schedule) (source : G) (report : Report S α),
      (c.solveOn schedule p source).result = .ok report →
        (c.FindsFinite schedule p source → c.Names schedule p source report) ∧
        (¬c.FindsFinite schedule p source →
          report.best = Trail.unbounded ∧ report.bestIteration = 0)) ∧
    (∀ {G : Type} [WordSource G] (c : Colony Tour.State α) (cities : Tour.Cities α)
      (schedule : Schedule) (source : G) (report : Report Tour.State α),
      (c.solveOn schedule cities.problem source).result = .ok report →
      c.FindsFinite schedule cities.problem source →
        ∃ city < cities.size,
          Tour.IsRoundTrip cities.size city (Tour.State.tour report.best.path)) ∧
    (∀ {S G : Type} [Ord S] [Std.TransOrd S] [WordSource G] (p : Problem S α) (guide : Guide S α)
      (ant : Ant S α) (g : G) (candidates : List (S × α)),
      p.successors ant.here = some candidates →
        ((∃ target cost, (ant.step p guide g).1 =
          .error (.failure (.invalidCost ant.here target cost))) ↔
            ∃ c ∈ candidates, isNaN c.2 = true ∨ c.2 < ofNat 0)) ∧
    ∀ cities : List (Tour.City α), (∃ c, Tour.Cities.ofList? cities = .ok c) ↔
      cities.length ≤ Tour.maxCities ∧
        ∀ city ∈ cities, isFinite city.x = true ∧ isFinite city.y = true := by
  refine ⟨?_, ?_, ?_, ?_⟩
  · intro S G _ _ _ c p schedule source report h
    obtain ⟨hfinds, hnames⟩ | ⟨hnone, hbest, hiteration⟩ := names_or_infinite h
    · exact ⟨fun _ => hnames, fun hnone => absurd hfinds hnone⟩
    · exact ⟨fun hfinds => absurd hfinds hnone, fun _ => ⟨hbest, hiteration⟩⟩
  · intro G _ c cities schedule source report h hfinds
    have hsize : 2 ≤ cities.size := Nat.not_lt.mp (solveOn_ok h).1
    obtain ⟨-, hnames⟩ | ⟨hnone, -⟩ := names_or_infinite h
    · exact hnames.roundTrip hsize
    · exact absurd hfinds hnone
  · intro S G _ _ _ p guide ant g candidates hsuccessors
    have hiff := Ant.step_invalidCost_iff guide ant g hsuccessors
    simpa [Ant.isInvalid] using hiff
  · intro cities
    have hiff : (∃ c, Tour.Cities.ofList? cities = .ok c) ↔ _ := Tour.Cities.ofList?_ok_iff
    simpa [Tour.City.isPlaced] using hiff

/-- Two cities further apart than any finite distance are taken, and a run on them succeeds, but its
report names no trail. -/
theorem report_is_empty_on_far_cities :
    let s : Settings Float := { Settings.standard with ants := 1, iterations := 1 }
    let far : Tour.Cities Float :=
      ⟨#[⟨"1", 1e308, 0⟩, ⟨"2", -1e308, 0⟩], by decide, by decide +kernel⟩
    s.Valid ∧ ∃ report,
      ((Colony.fresh s).solve far.problem (Script.mk #[0] 0)).result = .ok report ∧
        report.best.path = [] ∧ isFinite report.best.cost = false ∧ report.bestIteration = 0 := by
  intro s far
  have hvalid : s.Valid := by decide +kernel
  have hempty : (match ((Colony.fresh s).solve far.problem (Script.mk #[0] 0)).result with
      | .ok report =>
        report.best.path.isEmpty && !isFinite report.best.cost && report.bestIteration = 0
      | .error _ => false) = true := by decide +kernel
  split at hempty
  · next report hreport =>
    simp only [Bool.and_eq_true, List.isEmpty_iff, Bool.not_eq_true', decide_eq_true_eq] at hempty
    exact ⟨hvalid, report, hreport, hempty.1.1, hempty.1.2, hempty.2⟩
  · cases hempty

/-- On a triangle with short sides, every ant's way is finite. -/
theorem reports_name_finite_trails_on_triangle :
    let _ : Scalar Float := Binary64.withPower Binary64.sketchedPower
    let s : Settings Float :=
      { Settings.preset .elitist with ants := 1, iterations := 1, beta := ofNat 1 }
    let corners : Tour.Cities Float :=
      ⟨#[⟨"a", 0, 0⟩, ⟨"b", 5, 0⟩, ⟨"c", 0, 12⟩], by decide, by decide +kernel⟩
    let c : Colony Tour.State Float := fresh s
    let source := Script.mk #[0] 0
    s.Valid ∧ c.FindsFinite .inOrder corners.problem source ∧
      ∃ report, (c.solve corners.problem source).result = .ok report ∧
        c.Names .inOrder corners.problem source report ∧
        ∃ city < 3, Tour.IsRoundTrip 3 city (Tour.State.tour report.best.path) := by
  intro _ s corners c source
  let _ := Binary64.rounded_withPower Binary64.sketchedPower
  have hvalid : s.Valid := by decide +kernel
  have hany : ((c.transcript .inOrder corners.problem source).any fun trails =>
      trails.any fun trail => isFinite trail.cost) = true := by decide +kernel
  have hfinds : c.FindsFinite .inOrder corners.problem source := by
    obtain ⟨trails, htrails, hany⟩ := List.any_eq_true.mp hany
    obtain ⟨trail, htrail, hfinite⟩ := List.any_eq_true.mp hany
    obtain ⟨k, hk⟩ := List.mem_iff_getElem?.mp htrails
    obtain ⟨i, hi⟩ := List.mem_iff_getElem?.mp htrail
    exact ⟨k, i, trail, ⟨trails, hk, hi⟩, hfinite⟩
  have hsome : (c.solve corners.problem source).result.toOption.isSome = true := by decide +kernel
  cases hresult : (c.solve corners.problem source).result with
  | error halt =>
    rw [hresult] at hsome
    cases hsome
  | ok report =>
    obtain ⟨hreports, htours, -, -⟩ := reports_name_finite_trails Float
    have hnames := (hreports c corners.problem .inOrder source report hresult).1 hfinds
    exact ⟨hvalid, hfinds, report, rfl, hnames,
      htours c corners .inOrder source report hresult hfinds⟩

end Colony

end Stigmergy
