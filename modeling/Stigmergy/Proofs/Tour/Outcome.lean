import Stigmergy.Proofs.Binary64.Power
import Stigmergy.Proofs.Colony.Completion
import Stigmergy.Proofs.Colony.Sound
import Stigmergy.Proofs.Tour.Walk
import Stigmergy.Random.Script

/-!
# How runs on cities end

* `walk_total`: every ant of a sound colony closes its tour, free or not as the cities are at one
  place or not.
* `Tour.outcome_is_told_by_places`: so the cities alone tell how a run ends.
-/

namespace Stigmergy

open Scalar Stigmergy.Random

namespace Tour

variable {α G : Type} [Scalar α] [Rounded α] [WordSource G] {s : Settings α}
  {colony : Colony State α} {c : Cities α} {schedule : Schedule} {iteration : Nat}
  {run : Run State α G}

omit [Rounded α] in
theorem Cities.nodes_problem (c : Cities α) : c.problem.nodes = c.size := rfl

/-- Every ant of a sound colony closes its tour, free or not as the cities are at one place or
not. -/
theorem walk_total (hpow : Walk.PowerKeepsSign α) (hs : s.Valid) (h : colony.Sound s) :
    ∀ node < c.problem.nodes, ∀ g : Keystream, ∃ trail g',
      c.problem.walk colony.guide (c.problem.start node) g = (.ok trail, g') ∧
        (trail.cost ≤ ofNat 0 ↔ c.Coincide) := by
  have halpha : ofNat 0 ≤ colony.guide.alpha := by
    change ofNat 0 ≤ colony.settings.alpha
    rw [h.settings]
    exact hs.common.alpha.1
  have hbeta : ofNat 0 ≤ colony.guide.beta := by
    change ofNat 0 ≤ colony.settings.beta
    rw [h.settings]
    exact hs.common.beta.1
  have hlevels (source target : State) :
      NotNegative (colony.guide.pheromone.level source target) := h.levels.level source target
  intro node hnode g
  exact Cities.walk_total hpow hlevels halpha hbeta hnode g

/-- At one place the first iteration fails, as it finds a free trail. -/
theorem iterate_of_coincide (hpow : Walk.PowerKeepsSign α) (hs : s.Valid) (h : run.colony.Sound s)
    (hsize : 2 ≤ c.size) (hplace : c.Coincide) (schedule : Schedule) (iteration : Nat) :
    ∃ stop, run.iterate c.problem schedule iteration = .error stop ∧
      stop.halt = .failure .freeTrail := by
  obtain ⟨trails, htrails, hne, hfree⟩ :=
    Run.trails_total (show 0 < c.size by omega) (walk_total hpow hs h)
  have hany : (trails.any fun t => t.cost ≤ ofNat 0) = true := by
    obtain ⟨t, ht⟩ := List.exists_mem_of_ne_nil trails hne
    exact List.any_eq_true.mpr ⟨t, ht, decide_eq_true ((hfree t ht).mpr hplace)⟩
  rw [Run.iterate_eq, htrails]
  dsimp only
  rw [Run.learn_eq, if_pos hany]
  exact ⟨_, rfl, rfl⟩

/-! ## Runs -/

omit [Rounded α] in
theorem result_of_few (colony : Colony State α) (source : G) (hsize : c.size < 2) :
    (colony.solveOn schedule c.problem source).result =
      .error (.failure (.tooFewNodes c.size)) := by
  rw [Colony.solveOn_eq, Cities.nodes_problem, if_pos hsize]

theorem result_of_coincide (hpow : Walk.PowerKeepsSign α) (hs : s.Valid) (h : colony.Sound s)
    (source : G) (hsize : 2 ≤ c.size) (hplace : c.Coincide) :
    (colony.solveOn schedule c.problem source).result = .error (.failure .freeTrail) := by
  have hbegun : (Run.begun colony c.problem source).colony.Sound s := h.restart hs
  obtain ⟨count, hcount⟩ := Nat.exists_eq_succ_of_ne_zero hs.common.iterations
  obtain ⟨stop, hstop, hhalt⟩ := iterate_of_coincide hpow hs hbegun hsize hplace schedule 1
  rw [Colony.solveOn_eq, Cities.nodes_problem, if_neg (Nat.not_lt.mpr hsize), h.settings, hcount,
    Run.iterations_succ_eq, hstop]
  dsimp only
  rw [hhalt]

theorem result_of_not_coincide (hpow : Walk.PowerKeepsSign α) (hs : s.Valid) (h : colony.Sound s)
    (source : G) (hsize : 2 ≤ c.size) (hplaces : ¬c.Coincide) :
    ∃ report, (colony.solveOn schedule c.problem source).result = .ok report := by
  apply (Colony.Sound.kept hs).exists_report hsize _ h
  intro colony h node hnode g
  obtain ⟨trail, g', hwalk, hfree⟩ := walk_total hpow hs h node hnode g
  exact ⟨trail, g', hwalk, fun hcost => hplaces (hfree.mp hcost)⟩

/-- **The cities alone tell how a run ends**: fewer than two are too few, several at one place make
free trails, and all others get a report. -/
theorem outcome_is_told_by_places (hpow : Walk.PowerKeepsSign α)
    (hcolony : Colony.Reachable s colony) (c : Cities α) (schedule : Schedule) (source : G) :
    let result := (colony.solveOn schedule c.problem source).result
    (∀ n, result = .error (.failure (.tooFewNodes n)) ↔ n = c.size ∧ c.size < 2) ∧
      (result = .error (.failure .freeTrail) ↔ 2 ≤ c.size ∧ c.Coincide) ∧
      ((∃ report, result = .ok report) ↔ 2 ≤ c.size ∧ ¬c.Coincide) ∧
      (∀ v, result ≠ .error (.failure (.violation v))) ∧ ∀ f, result ≠ .error (.fault f) := by
  intro result
  have hs := hcolony.valid
  have hsound := hcolony.sound
  by_cases hsize : c.size < 2
  · have hresult : result = _ := result_of_few colony source hsize
    rw [hresult]
    simp [hsize, eq_comm]
  · have hlarge : 2 ≤ c.size := Nat.not_lt.mp hsize
    by_cases hplace : c.Coincide
    · have hresult : result = _ := result_of_coincide hpow hs hsound source hlarge hplace
      rw [hresult]
      simp [hsize, hlarge, hplace]
    · obtain ⟨report, hreport⟩ : ∃ report, result = .ok report :=
        result_of_not_coincide hpow hs hsound source hlarge hplace
      rw [hreport]
      simp [hsize, hlarge, hplace]

/-- A colony that has failed at one place succeeds at two. -/
theorem outcome_is_told_by_places_on_pairs :
    let _ : Scalar Float := Binary64.withPower Binary64.sketchedPower
    let s : Settings Float := { Settings.preset .antSystem with beta := ofNat 1, iterations := 2 }
    let near : Cities Float := ⟨#[⟨"a", 1, 2⟩, ⟨"b", 1, 2⟩], by decide, by decide +kernel⟩
    let far : Cities Float := ⟨#[⟨"a", 1, 2⟩, ⟨"b", 4, 6⟩], by decide, by decide +kernel⟩
    let source := Script.mk #[1, 2] 0
    let failed := (Colony.fresh s).solveOn .inOrder near.problem source
    s.Valid ∧ Walk.PowerKeepsSign Float ∧ failed.result = .error (.failure .freeTrail) ∧
      ∃ report, (failed.run.colony.solveOn .inOrder far.problem source).result = .ok report := by
  intro _ s near far source failed
  let _ := Binary64.rounded_withPower Binary64.sketchedPower
  have hvalid : s.Valid := by decide +kernel
  have hfresh : Colony.Reachable s (Colony.fresh s : Colony State Float) :=
    .new (Colony.ofSettings?_eq hvalid)
  have hnear : near.Coincide := by decide +kernel
  have hfar : ¬far.Coincide := by decide +kernel
  have hpow := Binary64.powerKeepsSign_sketched
  exact ⟨hvalid, hpow,
    (outcome_is_told_by_places hpow hfresh near .inOrder source).2.1.mpr ⟨by decide, hnear⟩,
    (outcome_is_told_by_places hpow (.run .inOrder near.problem source hfresh) far .inOrder
      source).2.2.1.mpr ⟨by decide, hfar⟩⟩

end Tour

end Stigmergy
