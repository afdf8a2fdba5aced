import Stigmergy.Graph
import Stigmergy.Proofs.Binary64.Laws
import Stigmergy.Proofs.Colony.Prefix
import Stigmergy.Proofs.Colony.Reports
import Stigmergy.Proofs.Colony.Reuse
import Stigmergy.Proofs.Deposit.Depositors
import Stigmergy.Random.Script

/-!
# The edges that a run stores

A run begins with nothing stored. Each iteration stores the edges of the trails that lay pheromone
in it, and nothing is ever forgotten.

* `Run.HasLaid`: a trail has laid pheromone in one of a run's iterations.
* `Run.best_walked`: the best trail's edges have been walked.
* `Run.stores_iterations`: the edges stored are those of the trails that have laid pheromone.
* `Colony.stored_edges_are_laid`: this holds after every iteration of a run, and of what a run
  leaves in the end, with a result or without one.
-/

namespace Stigmergy

open Scalar Stigmergy.Random
open Pheromone (Edge)

variable {S α G : Type} [Ord S] [Std.TransOrd S] [Scalar α] [WordSource G]

/-- The colony is unbounded, and edges that are not stored have the given level. -/
structure Colony.Unbounded (background : α) (c : Colony S α) : Prop where
  variant : c.settings.variant ≠ .maxMin
  band : c.band = none
  background : c.pheromone.background = background

omit [WordSource G] in
theorem Colony.Unbounded.relaid {background : α} {c : Colony S α} (h : c.Unbounded background)
    {trails : List (Trail S α)} {pheromone : Pheromone S α}
    (hrelaid : c.relaid trails = .ok pheromone) :
    (c.adopt (Run.leader trails)).band = none ∧ pheromone.background = background := by
  have hband : (c.adopt (Run.leader trails)).band = none := by
    have hnone : c.bandFor (Run.leader trails) = none :=
      if_neg (by rw [Settings.isBounded_iff]; exact h.variant)
    unfold adopt
    split
    · exact hnone
    · exact h.band
  unfold Colony.relaid at hrelaid
  dsimp only at hrelaid
  rw [hband] at hrelaid
  refine ⟨hband, (Deposit.background_update hrelaid).trans ?_⟩
  rw [pheromone_adopt]
  exact h.background

namespace Run

variable {p : Problem S α} {schedule : Schedule} {start last middle : Run S α G}
  {k m n iteration : Nat} {trail : Trail S α}

/-! ## Runs that go on -/

/-- The last of several iterations starts from what those before it leave. -/
theorem iterations_succ_last (h : start.iterations p schedule (k + 1) iteration = .ok last) :
    ∃ middle, start.iterations p schedule k iteration = .ok middle ∧
      middle.iterate p schedule (iteration + k) = .ok last := by
  rw [iterations_add] at h
  cases hmiddle : start.iterations p schedule k iteration with
  | error stop =>
    rw [hmiddle] at h
    cases h
  | ok middle =>
    rw [hmiddle] at h
    dsimp only at h
    rw [iterations_succ_eq] at h
    cases hlast : middle.iterate p schedule (iteration + k) with
    | error stop =>
      rw [hlast] at h
      cases h
    | ok next =>
      rw [hlast] at h
      cases h
      exact ⟨middle, rfl, hlast⟩

theorem iterations_prefix (h : start.iterations p schedule k iteration = .ok last) (hm : m ≤ k) :
    ∃ middle, start.iterations p schedule m iteration = .ok middle := by
  obtain ⟨n, rfl⟩ : ∃ n, k = m + n := ⟨k - m, by omega⟩
  rw [iterations_add] at h
  cases hmiddle : start.iterations p schedule m iteration with
  | error stop =>
    rw [hmiddle] at h
    cases h
  | ok middle => exact ⟨middle, rfl⟩

theorem transcript_add (h : start.iterations p schedule m iteration = .ok middle) :
    start.transcript p schedule (m + n) iteration =
      start.transcript p schedule m iteration ++
        middle.transcript p schedule n (iteration + m) := by
  induction m generalizing start iteration with
  | zero =>
    cases h
    rw [Nat.zero_add]
    rfl
  | succ m ih =>
    rw [iterations_succ_eq] at h
    split at h
    · cases h
    · next next hnext =>
      obtain ⟨trails, htrails, -⟩ := iterate_ok hnext
      rw [Nat.add_right_comm, transcript_succ htrails hnext, transcript_succ htrails hnext, ih h,
        List.cons_append, Nat.add_assoc, Nat.add_comm 1 m]

/-- The last iteration adds its trails to the transcript. -/
theorem transcript_succ_last {trails : List (Trail S α)}
    (hmiddle : start.iterations p schedule k iteration = .ok middle)
    (htrails : middle.trails p schedule (iteration + k) (middle.plans p).1 = .ok trails)
    (hlast : middle.iterate p schedule (iteration + k) = .ok last) :
    start.transcript p schedule (k + 1) iteration =
      start.transcript p schedule k iteration ++ [trails] := by
  rw [transcript_add hmiddle, transcript_succ htrails hlast, transcript]

/-! ## Trails that have laid pheromone -/

/-- The trail has laid pheromone in one of the run's first `k` iterations, all of them completed. -/
def HasLaid (start : Run S α G) (p : Problem S α) (schedule : Schedule) (k : Nat)
    (trail : Trail S α) : Prop :=
  ∃ j < k, ∃ trails after, (start.transcript p schedule k 1)[j]? = some trails ∧
    start.iterations p schedule (j + 1) 1 = .ok after ∧
    Deposit.Lays start.colony.settings trails after.colony.best trail

/-- An edge that an ant has walked in one of the run's first `k` iterations. -/
def Walked (start : Run S α G) (p : Problem S α) (schedule : Schedule) (k : Nat) (s t : S) : Prop :=
  ∃ trails ∈ start.transcript p schedule k 1, ∃ trail ∈ trails, (s, t) ∈ trail.edges

/-- One more iteration adds those that lay pheromone in it. -/
theorem hasLaid_succ {trails : List (Trail S α)}
    (hmiddle : start.iterations p schedule k 1 = .ok middle)
    (htrails : middle.trails p schedule (1 + k) (middle.plans p).1 = .ok trails)
    (hlast : middle.iterate p schedule (1 + k) = .ok last)
    (hall : start.iterations p schedule (k + 1) 1 = .ok last) :
    start.HasLaid p schedule (k + 1) trail ↔
      start.HasLaid p schedule k trail ∨
        Deposit.Lays start.colony.settings trails last.colony.best trail := by
  have hlength := length_transcript hmiddle
  have hnew : (start.transcript p schedule k 1 ++ [trails])[k]? = some trails := by
    rw [List.getElem?_append_right (by omega), hlength, Nat.sub_self]
    rfl
  unfold HasLaid
  rw [transcript_succ_last hmiddle htrails hlast]
  constructor
  · intro ⟨j, hj, found, after, hfound, hafter, hlays⟩
    by_cases hlt : j < k
    · rw [List.getElem?_append_left (by omega)] at hfound
      exact .inl ⟨j, hlt, found, after, hfound, hafter, hlays⟩
    · obtain rfl : j = k := by omega
      rw [hnew] at hfound
      cases hfound
      rw [hall] at hafter
      cases hafter
      exact .inr hlays
  · intro h
    cases h with
    | inl hearlier =>
      obtain ⟨j, hj, found, after, hfound, hafter, hlays⟩ := hearlier
      refine ⟨j, by omega, found, after, ?_, hafter, hlays⟩
      rw [List.getElem?_append_left (by omega)]
      exact hfound
    | inr hlays =>
      exact ⟨k, by omega, trails, last, hnew, hall, hlays⟩

theorem walked_succ {trails : List (Trail S α)} {s t : S}
    (hmiddle : start.iterations p schedule k 1 = .ok middle)
    (htrails : middle.trails p schedule (1 + k) (middle.plans p).1 = .ok trails)
    (hlast : middle.iterate p schedule (1 + k) = .ok last) :
    start.Walked p schedule (k + 1) s t ↔
      start.Walked p schedule k s t ∨ ∃ trail ∈ trails, (s, t) ∈ trail.edges := by
  unfold Walked
  rw [transcript_succ_last hmiddle htrails hlast]
  simp only [List.mem_append, List.mem_singleton, or_and_right, exists_or, exists_eq_left]

theorem walked_mono {s t : S} (h : start.iterations p schedule k 1 = .ok last) (hm : m ≤ k)
    (hwalked : start.Walked p schedule m s t) : start.Walked p schedule k s t := by
  obtain ⟨middle, hmiddle⟩ := iterations_prefix h hm
  obtain ⟨n, rfl⟩ : ∃ n, k = m + n := ⟨k - m, by omega⟩
  obtain ⟨trails, htrails, hedge⟩ := hwalked
  refine ⟨trails, ?_, hedge⟩
  rw [transcript_add hmiddle]
  exact List.mem_append_left _ htrails

theorem hasLaid_mono (h : start.iterations p schedule m 1 = .ok middle) (hm : m ≤ k)
    (hlaid : start.HasLaid p schedule m trail) : start.HasLaid p schedule k trail := by
  obtain ⟨n, rfl⟩ : ∃ n, k = m + n := ⟨k - m, by omega⟩
  obtain ⟨j, hj, trails, after, htrails, hafter, hlays⟩ := hlaid
  refine ⟨j, by omega, trails, after, ?_, hafter, hlays⟩
  rw [transcript_add h, List.getElem?_append_left (by rw [length_transcript h]; exact hj)]
  exact htrails

/-- What an ant has walked, a problem offers. -/
theorem Walked.moves {s t : S} (hnodes : 0 < p.nodes) (h : start.Walked p schedule k s t) :
    p.Moves s t := by
  obtain ⟨trails, htrails, trail, htrail, hedge⟩ := h
  obtain ⟨j, hj⟩ := List.mem_iff_getElem?.mp htrails
  obtain ⟨i, hi⟩ := List.mem_iff_getElem?.mp htrail
  obtain ⟨-, node, -, hwalk⟩ := walk_of_transcript hnodes ⟨trails, hj, hi⟩
  exact rel_of_mem_consecutive hwalk.1.2 hedge

variable [Rounded α]

theorem best_iterate {trails : List (Trail S α)}
    (htrails : middle.trails p schedule iteration (middle.plans p).1 = .ok trails)
    (hlast : middle.iterate p schedule iteration = .ok last) :
    last.colony.best = (middle.colony.adopt (leader trails)).best := by
  obtain ⟨found, pheromone, hfound, -, -, -, rfl⟩ := iterate_settled hlast
  cases htrails.symm.trans hfound
  change ((middle.drawn p).judged iteration trails).colony.best = _
  rw [colony_judged, colony_drawn]

/-- The best trail's edges have been walked. -/
theorem best_walked (hbest : start.colony.best = Trail.unbounded)
    (h : start.iterations p schedule k 1 = .ok last) {s t : S}
    (hedge : (s, t) ∈ last.colony.best.edges) : start.Walked p schedule k s t := by
  induction k generalizing last with
  | zero =>
    cases h
    rw [hbest] at hedge
    cases hedge
  | succ k ih =>
    obtain ⟨middle, hmiddle, hlast⟩ := iterations_succ_last h
    obtain ⟨trails, -, htrails, -⟩ := iterate_settled hlast
    rw [walked_succ hmiddle htrails hlast]
    rw [best_iterate htrails hlast, Colony.best_adopt] at hedge
    split at hedge
    · cases leader_mem trails with
      | inl hmem => exact .inr ⟨_, hmem, hedge⟩
      | inr hnone =>
        rw [hnone] at hedge
        cases hedge
    · exact .inl (ih hmiddle hedge)

/-- Edges that have pheromone laid on them have been walked. -/
theorem walked_of_hasLaid (hbest : start.colony.best = Trail.unbounded)
    (h : start.iterations p schedule k 1 = .ok last) (hlaid : start.HasLaid p schedule k trail)
    {s t : S} (hedge : (s, t) ∈ trail.edges) : start.Walked p schedule k s t := by
  obtain ⟨j, hj, trails, after, htrails, hafter, hlays⟩ := hlaid
  have hmem := List.mem_of_getElem? htrails
  unfold Deposit.Lays at hlays
  cases hvariant : start.colony.settings.variant with
  | antSystem | elitist =>
    rw [hvariant] at hlays
    exact ⟨trails, hmem, trail, hlays, hedge⟩
  | maxMin =>
    rw [hvariant] at hlays
    subst hlays
    exact walked_mono h hj (best_walked hbest hafter hedge)
  | rankBased =>
    rw [hvariant] at hlays
    obtain ⟨i, hi, -⟩ := hlays
    exact ⟨trails, hmem, trail, List.mem_of_getElem? hi, hedge⟩

omit [Rounded α] in
/-- Where all trails lay pheromone, so do those that an ant has walked. -/
theorem Walked.hasLaid (helitist : start.colony.settings.variant = .elitist)
    (h : start.iterations p schedule k 1 = .ok last) {s t : S}
    (hwalked : start.Walked p schedule k s t) :
    ∃ trail, start.HasLaid p schedule k trail ∧ (s, t) ∈ trail.edges := by
  obtain ⟨trails, htrails, trail, htrail, hedge⟩ := hwalked
  obtain ⟨j, hj⟩ := List.mem_iff_getElem?.mp htrails
  have hlt : j < k := by
    rw [← length_transcript h]
    exact (List.getElem?_eq_some_iff.mp hj).1
  obtain ⟨after, hafter⟩ := iterations_prefix h hlt
  refine ⟨trail, ⟨j, hlt, trails, after, hj, hafter, ?_⟩, hedge⟩
  unfold Deposit.Lays
  rw [helitist]
  exact htrail

/-- **A run stores the edges of the trails that have laid pheromone**, and no others. -/
theorem stores_iterations [Std.LawfulEqOrd S] (hbest : start.colony.best = Trail.unbounded)
    (hempty : ∀ e, ¬start.colony.pheromone.Stores e)
    (h : start.iterations p schedule k 1 = .ok last) (e : Edge S) :
    last.colony.pheromone.Stores e ↔
      ∃ trail, start.HasLaid p schedule k trail ∧ (e.source, e.target) ∈ trail.edges := by
  induction k generalizing last with
  | zero =>
    cases h
    constructor
    · intro hstored
      exact absurd hstored (hempty e)
    · intro ⟨_, ⟨j, hj, _⟩, _⟩
      omega
  | succ k ih =>
    obtain ⟨middle, hmiddle, hlast⟩ := iterations_succ_last h
    obtain ⟨trails, pheromone, htrails, -, hreal, hrelaid, hsettled⟩ := iterate_settled hlast
    have hnumber : ∀ t ∈ trails, isNaN t.cost = false := fun t ht =>
      (Rounded.number_of_lt (hreal t ht).2).2
    have hsettings := (source_iterations hmiddle).1
    have hpheromone : last.colony.pheromone = pheromone := by
      rw [hsettled]
      rfl
    -- The bonus falls on edges that all ants' trails store anyway.
    have hbonus : start.colony.settings.variant = .elitist ∧
        (e.source, e.target) ∈ last.colony.best.edges →
          ∃ trail, start.HasLaid p schedule (k + 1) trail ∧ (e.source, e.target) ∈ trail.edges :=
      fun ⟨helitist, hedge⟩ => (best_walked hbest h hedge).hasLaid helitist h
    have hupdate := Deposit.stores_update_iff (e := e) hnumber hrelaid
    rw [Colony.settings_adopt, Colony.pheromone_adopt, ← best_iterate htrails hlast, hsettings,
      ih hmiddle] at hupdate
    rw [hpheromone, hupdate]
    constructor
    · intro hstored
      cases hstored with
      | inl hnew =>
        obtain ⟨trail, hlays, hedge⟩ := hnew
        exact ⟨trail, (hasLaid_succ hmiddle htrails hlast h).mpr (.inr hlays), hedge⟩
      | inr hrest =>
        cases hrest with
        | inl hbest => exact hbonus hbest
        | inr hearlier =>
          obtain ⟨trail, hlaid, hedge⟩ := hearlier
          exact ⟨trail, (hasLaid_succ hmiddle htrails hlast h).mpr (.inl hlaid), hedge⟩
    · intro ⟨trail, hlaid, hedge⟩
      cases (hasLaid_succ hmiddle htrails hlast h).mp hlaid with
      | inl hearlier => exact .inr (.inr ⟨trail, hearlier, hedge⟩)
      | inr hlays => exact .inl ⟨trail, hlays, hedge⟩

omit [Rounded α] in
/-- An iteration that halts leaves the pheromone alone. -/
theorem pheromone_stop {stop : Stop S α G}
    (h : start.iterate p schedule iteration = .error stop) :
    stop.run.colony.pheromone = start.colony.pheromone := by
  obtain ⟨halt, -, rfl⟩ | ⟨trails, -, hlearn⟩ := iterate_error h
  · rfl
  · obtain ⟨-, rfl⟩ | ⟨-, f, -, rfl⟩ := learn_error hlearn
    · rfl
    · rw [colony_judged, Colony.pheromone_adopt, colony_drawn]

/-- Without a band, the edges that are not stored keep the level they had at first. -/
theorem unbounded_iterations {background : α} (hstart : start.colony.Unbounded background)
    (h : start.iterations p schedule k 1 = .ok last) : last.colony.Unbounded background := by
  refine iterations_ok (P := fun run => run.colony.Unbounded background) ?_ hstart h
  intro run next k hrun hnext
  obtain ⟨trails, pheromone, -, -, -, hrelaid, rfl⟩ := iterate_settled hnext
  obtain ⟨hband, hbackground⟩ := hrun.relaid hrelaid
  refine ⟨?_, ?_, hbackground⟩
  · change ((run.drawn p).judged k trails).colony.settings.variant ≠ .maxMin
    rw [colony_judged, Colony.settings_adopt]
    exact hrun.variant
  · change ((run.drawn p).judged k trails).colony.band = none
    rw [colony_judged]
    exact hband

end Run

namespace Colony

variable [Std.LawfulEqOrd S] [Rounded α] {s : Settings α} {c : Colony S α}

/-- **The edges stored are those of the trails that have laid pheromone**, after every iteration
that a run completes. So they have been walked, in this direction, by an ant, and they stay. All
other edges have one level, which for an unbounded colony is the first one. A run leaves what the
last iteration it has completed left. -/
theorem stored_edges_are_laid (hc : Reachable s c) (p : Problem S α) (hnodes : 2 ≤ p.nodes)
    (schedule : Schedule) (source : G) :
    let start := Run.begun c p source
    let outcome := c.solveOn schedule p source
    (∀ k last, start.iterations p schedule k 1 = .ok last →
      (∀ e, last.colony.pheromone.Stores e ↔
        ∃ trail, start.HasLaid p schedule k trail ∧ (e.source, e.target) ∈ trail.edges) ∧
      (∀ j ≤ k, ∀ earlier, start.iterations p schedule j 1 = .ok earlier →
        ∀ e, earlier.colony.pheromone.Stores e → last.colony.pheromone.Stores e) ∧
      (∀ e, last.colony.pheromone.Stores e →
        start.Walked p schedule k e.source e.target ∧ p.Moves e.source e.target) ∧
      (∀ e, ¬last.colony.pheromone.Stores e →
        last.colony.pheromone.level e.source e.target = last.colony.pheromone.background) ∧
      (s.variant ≠ .maxMin → last.colony.pheromone.background = s.initialPheromone)) ∧
    ∃ k ≤ s.iterations, ∃ last, start.iterations p schedule k 1 = .ok last ∧
      outcome.run.colony.pheromone = last.colony.pheromone ∧
      ((∃ report, outcome.result = .ok report) ↔ k = s.iterations) := by
  intro start outcome
  have hsettings : c.settings = s := hc.alike.settings
  have hbest : start.colony.best = Trail.unbounded := rfl
  have hempty (e : Edge S) : ¬start.colony.pheromone.Stores e :=
    Option.not_isSome_iff_eq_none.mpr (Pheromone.stored?_uniform c.pheromone.initial e)
  refine ⟨?_, ?_⟩
  · intro k last hlast
    have hstores := Run.stores_iterations hbest hempty hlast
    refine ⟨hstores, ?_, ?_, ?_, ?_⟩
    · intro j hj earlier hearlier e hstored
      obtain ⟨trail, hlaid, hedge⟩ := (Run.stores_iterations hbest hempty hearlier e).mp hstored
      exact (hstores e).mpr ⟨trail, Run.hasLaid_mono hearlier hj hlaid, hedge⟩
    · intro e hstored
      obtain ⟨trail, hlaid, hedge⟩ := (hstores e).mp hstored
      have hwalked := Run.walked_of_hasLaid hbest hlast hlaid hedge
      exact ⟨hwalked, hwalked.moves (by omega)⟩
    · intro e hstored
      exact Pheromone.level_of_not_stores hstored
    · intro hvariant
      have hunbounded : start.colony.Unbounded s.initialPheromone := by
        rw [← hsettings] at hvariant
        exact ⟨hvariant, if_neg (by rw [Settings.isBounded_iff]; exact hvariant),
          hc.alike.initial⟩
      exact (Run.unbounded_iterations hunbounded hlast).background
  · have hmany : ¬p.nodes < 2 := by omega
    rw [← hsettings]
    cases hall : start.iterations p schedule c.settings.iterations 1 with
    | ok last =>
      have houtcome : outcome = _ := solveOn_of_last hmany hall
      rw [houtcome]
      exact ⟨_, Nat.le_refl _, last, hall, rfl, fun _ => rfl, fun _ => ⟨_, rfl⟩⟩
    | error stop =>
      have houtcome : outcome = _ := solveOn_of_stop hmany hall
      rw [houtcome]
      obtain ⟨k, before, hk, hbefore, hstop⟩ := Run.iterations_error_split hall
      refine ⟨k, by omega, before, hbefore, Run.pheromone_stop hstop, ?_, ?_⟩
      · intro ⟨_, hok⟩
        cases hok
      · omega

/-- Of two ways to a goal, a bounded colony stores the best one only. -/
theorem stored_edges_are_laid_by_best :
    let s : Settings Float := { Settings.preset .maxMin with ants := 2, iterations := 2 }
    let ways : Graph Float := ⟨2, #[0, 1], [(0, [(2, 3)]), (1, [(2, 1)])], [2]⟩
    let c : Colony Int Float := fresh s
    let source := Script.mk #[0, 1, 0x80000000, 1] 0
    let outcome := c.solveOn .inOrder ways.problem source
    s.Valid ∧ Reachable s c ∧ outcome.run.colony.pheromone.Stores ⟨1, 2⟩ ∧
      ¬outcome.run.colony.pheromone.Stores ⟨0, 2⟩ ∧
      ∀ e, outcome.run.colony.pheromone.Stores e ↔ ∃ trail,
        (Run.begun c ways.problem source).HasLaid ways.problem .inOrder 2 trail ∧
          (e.source, e.target) ∈ trail.edges := by
  intro s ways c source outcome
  have hvalid : s.Valid := by decide +kernel
  have hfresh : Reachable s c := .new (ofSettings?_eq hvalid)
  have hsome : outcome.result.toOption.isSome = true := by decide +kernel
  obtain ⟨hiterations, k, -, last, hlast, hleft, hall⟩ :=
    stored_edges_are_laid hfresh ways.problem (by decide) .inOrder source
  have hok : ∃ report, outcome.result = .ok report := by
    cases hresult : outcome.result with
    | error halt =>
      rw [hresult] at hsome
      cases hsome
    | ok report => exact ⟨report, rfl⟩
  obtain rfl : k = 2 := hall.mp hok
  obtain ⟨hstores, -⟩ := hiterations 2 last hlast
  refine ⟨hvalid, hfresh, ?_, ?_, ?_⟩
  · unfold Pheromone.Stores
    decide +kernel
  · unfold Pheromone.Stores
    decide +kernel
  · intro e
    rw [hleft]
    exact hstores e

end Colony

end Stigmergy
