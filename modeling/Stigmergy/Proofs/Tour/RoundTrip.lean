import Stigmergy.Proofs.Binary64.Power
import Stigmergy.Proofs.Pheromone.Levels
import Stigmergy.Proofs.Tour.Walk
import Stigmergy.Proofs.Walk.Path
import Stigmergy.Random.Script

/-!
# Walks on cities are round trips

* `IsRoundTrip`: a way that leaves a city, visits every other one once and comes back.
* `Cities.moves_iff`: from a state that is not closed there is a move to every unvisited city, and
  only where there is none, one back.
* `State.along`: the states of a tour through given cities.
* `Cities.isWalk_iff`: the walks from a state are the tours through its unvisited cities, in any
  order.
* `Cities.walks_are_round_trips`: so the walks from a start are the round trips, one each, and every
  ant makes one of them.
-/

namespace Stigmergy.Tour

open Scalar Stigmergy.Random

/-- From a city through every other one of the first `n`, once each, and back. -/
def IsRoundTrip (n city : Nat) (way : List Nat) : Prop :=
  ∃ inner : List Nat, way = city :: (inner ++ [city]) ∧ inner.Nodup ∧
    ∀ i, i ∈ inner ↔ i < n ∧ i ≠ city

/-- The states of a tour that goes on to the given cities one by one, and then back. -/
def State.along (s : State) : List Nat → List State
  | [] => [s, s.home]
  | city :: cities => s :: (s.visit city).along cities

variable {n city : Nat} {s t : State} {cities : List Nat}

namespace State

@[simp]
theorem length_along (s : State) (cities : List Nat) :
    (s.along cities).length = cities.length + 2 := by
  induction cities generalizing s with
  | nil => rfl
  | cons city cities ih => simp [along, ih]

@[simp]
theorem tour_along (s : State) (cities : List Nat) :
    tour (s.along cities) = s.current :: (cities ++ [s.origin]) := by
  induction cities generalizing s with
  | nil => rfl
  | cons city cities ih =>
    have hrest := ih (s.visit city)
    simp only [tour] at hrest
    simp only [tour, along, List.map_cons, hrest]
    rfl

/-- A tour forgets no city that it has visited. -/
theorem hasVisited_of_mem_along {i : Nat} (hmem : t ∈ s.along cities)
    (hi : s.hasVisited i = true) : t.hasVisited i = true := by
  induction cities generalizing s with
  | nil =>
    simp only [along, List.mem_cons, List.not_mem_nil, or_false] at hmem
    obtain rfl | rfl := hmem
    · exact hi
    · exact hi
  | cons city cities ih =>
    simp only [along, List.mem_cons] at hmem
    obtain rfl | hrest := hmem
    · exact hi
    · apply ih hrest
      simp [hi]

end State

/-! ## Moves -/

theorem nodup_unvisited (n : Nat) (s : State) : (unvisited n s).Nodup :=
  List.nodup_range.filter _

theorem unvisited_visit (n : Nat) (s : State) (city : Nat) :
    unvisited n (s.visit city) = (unvisited n s).erase city := by
  rw [(nodup_unvisited n s).erase_eq_filter]
  unfold unvisited
  rw [List.filter_filter]
  congr 1
  funext i
  by_cases heq : city = i
  · simp [heq]
  · simp [heq, Ne.symm heq]

/-- The cities that are left after a move are the others. -/
theorem cons_perm_unvisited :
    (city :: cities).Perm (unvisited n s) ↔
      city ∈ unvisited n s ∧ cities.Perm (unvisited n (s.visit city)) := by
  rw [List.cons_perm_iff_perm_erase, unvisited_visit]

theorem perm_unvisited_start :
    cities.Perm (unvisited n (State.start city)) ↔
      cities.Nodup ∧ ∀ i, i ∈ cities ↔ i < n ∧ i ≠ city := by
  have hmem (i : Nat) : i ∈ unvisited n (State.start city) ↔ i < n ∧ i ≠ city := by
    simp [mem_unvisited, eq_comm]
  constructor
  · intro hperm
    refine ⟨hperm.nodup_iff.mpr (nodup_unvisited _ _), ?_⟩
    intro i
    rw [hperm.mem_iff, hmem]
  · intro ⟨hnodup, hcities⟩
    apply (List.perm_ext_iff_of_nodup hnodup (nodup_unvisited _ _)).mpr
    intro i
    rw [hcities, hmem]

/-- At the start, one city of `n` has been visited. -/
theorem length_unvisited_start (hcity : city < n) :
    (unvisited n (State.start city)).length = n - 1 := by
  have hperm : ((List.range n).erase city).Perm (unvisited n (State.start city)) := by
    apply perm_unvisited_start.mpr
    refine ⟨List.nodup_range.erase _, ?_⟩
    intro i
    rw [List.nodup_range.mem_erase_iff, List.mem_range, and_comm]
  rw [← hperm.length_eq, List.length_erase_of_mem (List.mem_range.mpr hcity), List.length_range]

/-- A tour that goes on to another city does not close there. -/
theorem OnTour.open_visit (h : OnTour n s) (hcity : city ∈ unvisited n s) :
    isClosed n (s.visit city) = false := by
  obtain ⟨hlt, hnew⟩ := mem_unvisited.mp hcity
  apply Bool.eq_false_iff.mpr
  intro hclosed
  obtain ⟨-, hback⟩ := ((h.visit hlt).isClosed_iff).mp hclosed
  have horigin : city = s.origin := hback
  rw [horigin, h.origin] at hnew
  cases hnew

theorem OnTour.closed_home (h : OnTour n s) (hnone : unvisited n s = []) :
    isClosed n s.home = true := h.home.isClosed_iff.mpr ⟨hnone, rfl⟩

theorem open_start (hsize : 2 ≤ n) (hcity : city < n) : isClosed n (State.start city) = false := by
  apply Bool.eq_false_iff.mpr
  intro hclosed
  obtain ⟨hnone, -⟩ := ((OnTour.start hcity).isClosed_iff).mp hclosed
  have hzero := hasVisited_of_unvisited (i := 0) hnone (by omega)
  have hone := hasVisited_of_unvisited (i := 1) hnone (by omega)
  simp only [State.hasVisited_start, decide_eq_true_eq] at hzero hone
  omega

/-- Where values are paired with what is looked up for them, only the look-up can fail. -/
theorem map_fst_of_mapM {A B C : Type} {look : A → Option C} {value : A → B} {xs : List A}
    {ys : List (B × C)} (h : (xs.mapM fun x => (look x).map fun y => (value x, y)) = some ys) :
    ys.map Prod.fst = xs.map value := by
  induction xs generalizing ys with
  | nil =>
    cases h
    rfl
  | cons x xs ih =>
    cases hx : look x with
    | none => simp [hx] at h
    | some y =>
      cases hrest : xs.mapM fun x => (look x).map fun y => (value x, y) with
      | none => simp [hx, hrest] at h
      | some rest =>
        obtain rfl : (value x, y) :: rest = ys := by simpa [hx, hrest] using h
        simp [ih hrest]

variable {α : Type} [Scalar α] {c : Cities α}

theorem Cities.exists_distance {u v : Nat} (hu : u < c.size) (hv : v < c.size) :
    ∃ d, c.distance? u v = some d := by
  obtain ⟨a, ha⟩ := Cities.exists_city hu
  obtain ⟨b, hb⟩ := Cities.exists_city hv
  exact ⟨Cities.between a b, by simp [Cities.distance?, ha, hb]⟩

/-- The candidates of a state are the unvisited cities, or the way back if there are none. -/
theorem Cities.candidates (h : OnTour c.size s) :
    ∃ candidates, c.problem.successors s = some candidates ∧
      candidates.map Prod.fst =
        if unvisited c.size s = [] then [s.home] else (unvisited c.size s).map s.visit := by
  change ∃ candidates, moves? c.size (Cities.cell? c.table) s = some candidates ∧ _
  rw [Cities.cell?_table]
  unfold moves?
  split
  · next hnone =>
    obtain ⟨d, hd⟩ := Cities.exists_distance h.current_lt h.origin_lt
    exact ⟨[(s.home, d)], by simp [hd], by simp [hnone]⟩
  · next hsome =>
    have hmove : ∀ city ∈ unvisited c.size s, ∃ candidate,
        ((c.distance? s.current city).map fun d => (s.visit city, d)) = some candidate ∧ True := by
      intro city hcity
      obtain ⟨d, hd⟩ := Cities.exists_distance h.current_lt (mem_unvisited.mp hcity).1
      exact ⟨(s.visit city, d), by simp [hd], trivial⟩
    obtain ⟨candidates, hcandidates, -⟩ := mapM_some hmove
    refine ⟨candidates, hcandidates, ?_⟩
    rw [if_neg hsome]
    exact map_fst_of_mapM hcandidates

/-- There is a move to every unvisited city, and only where there is none, one back. -/
theorem Cities.moves_iff (h : OnTour c.size s) (hopen : isClosed c.size s = false) :
    c.problem.Moves s t ↔ (∃ city ∈ unvisited c.size s, t = s.visit city) ∨
      unvisited c.size s = [] ∧ t = s.home := by
  obtain ⟨candidates, hsuccessors, hstates⟩ := Cities.candidates h
  have hmoves : c.problem.Moves s t ↔ t ∈ candidates.map Prod.fst := by
    simp [Problem.Moves, hsuccessors, show c.problem.isGoal s = false from hopen]
  rw [hmoves, hstates]
  by_cases hnone : unvisited c.size s = []
  · simp [hnone]
  · simp [hnone, eq_comm]

/-! ## Walks -/

/-- A tour through all unvisited cities, in an order of choice, is a walk. -/
theorem Cities.isWalk_along (h : OnTour c.size s) (hopen : isClosed c.size s = false)
    (hcities : cities.Perm (unvisited c.size s)) : c.problem.IsWalk s (s.along cities) := by
  induction cities generalizing s with
  | nil =>
    have hnone := List.nil_perm.mp hcities
    apply Problem.isWalk_cons_iff.mpr
    refine ⟨rfl, .inr ⟨s.home, (Cities.moves_iff h hopen).mpr (.inr ⟨hnone, rfl⟩), ?_⟩⟩
    exact Problem.isWalk_singleton (h.closed_home hnone)
  | cons city cities ih =>
    obtain ⟨hnew, hrest⟩ := cons_perm_unvisited.mp hcities
    apply Problem.isWalk_cons_iff.mpr
    refine ⟨rfl, .inr ⟨s.visit city, (Cities.moves_iff h hopen).mpr (.inl ⟨city, hnew, rfl⟩), ?_⟩⟩
    exact ih (h.visit (mem_unvisited.mp hnew).1) (h.open_visit hnew) hrest

/-- **The walks of a tour under way** go through all unvisited cities, in any order. -/
theorem Cities.isWalk_iff (h : OnTour c.size s) (hopen : isClosed c.size s = false)
    {path : List State} :
    c.problem.IsWalk s path ↔
      ∃ cities : List Nat, path = s.along cities ∧ cities.Perm (unvisited c.size s) := by
  constructor
  · intro hwalk
    induction path generalizing s with
    | nil => cases hwalk.1.1
    | cons first rest ih =>
      obtain ⟨rfl, ⟨-, hgoal⟩ | ⟨t, hmove, hrest⟩⟩ := Problem.isWalk_cons_iff.mp hwalk
      · rw [show isClosed c.size first = true from hgoal] at hopen
        cases hopen
      · obtain ⟨city, hcity, rfl⟩ | ⟨hnone, rfl⟩ := (Cities.moves_iff h hopen).mp hmove
        · obtain ⟨cities, rfl, hcities⟩ :=
            ih (h.visit (mem_unvisited.mp hcity).1) (h.open_visit hcity) hrest
          exact ⟨city :: cities, rfl, cons_perm_unvisited.mpr ⟨hcity, hcities⟩⟩
        · have hhome : rest = [first.home] :=
            Problem.path_of_isGoal (h.closed_home hnone) hrest.1
          exact ⟨[], by rw [hhome]; rfl, List.nil_perm.mpr hnone⟩
  · rintro ⟨cities, rfl, hcities⟩
    exact Cities.isWalk_along h hopen hcities

/-- No path is a dead end, whatever it has chosen so far. -/
theorem Cities.exists_walk_of_path (h : OnTour c.size s) (hopen : isClosed c.size s = false)
    {path : List State} (hpath : c.problem.IsPath s path) :
    ∃ rest, c.problem.IsWalk s (path ++ rest) := by
  induction path generalizing s with
  | nil => cases hpath.1
  | cons first rest ih =>
    obtain ⟨rfl, rfl | ⟨t, hmove, hrest⟩⟩ := Problem.isPath_cons_iff.mp hpath
    · have hwalk := Cities.isWalk_along h hopen (.refl _)
      cases hunvisited : unvisited c.size first with
      | nil => exact ⟨[first.home], by simpa [hunvisited, State.along] using hwalk⟩
      | cons city cities =>
        exact ⟨(first.visit city).along cities, by simpa [hunvisited, State.along] using hwalk⟩
    · obtain ⟨city, hcity, rfl⟩ | ⟨hnone, rfl⟩ := (Cities.moves_iff h hopen).mp hmove
      · obtain ⟨more, hwalk⟩ := ih (h.visit (mem_unvisited.mp hcity).1) (h.open_visit hcity) hrest
        exact ⟨more, Problem.isWalk_cons_iff.mpr ⟨rfl, .inr ⟨_, hmove, hwalk⟩⟩⟩
      · have hgoal := h.closed_home hnone
        have hhome : rest = [first.home] := Problem.path_of_isGoal hgoal hrest
        refine ⟨[], Problem.isWalk_cons_iff.mpr ⟨rfl, .inr ⟨_, hmove, ?_⟩⟩⟩
        rw [hhome]
        exact Problem.isWalk_singleton hgoal

/-- A tour never comes to the same state twice: it has visited more cities each time, but for the
last move, which leads to another city. -/
theorem OnTour.nodup_along (h : OnTour n s) (hopen : isClosed n s = false)
    (hcities : cities.Perm (unvisited n s)) : (s.along cities).Nodup := by
  induction cities generalizing s with
  | nil =>
    have hnone := List.nil_perm.mp hcities
    have hclosed := h.closed_home hnone
    simp only [State.along, List.nodup_cons, List.mem_singleton, List.not_mem_nil,
      not_false_eq_true, List.nodup_nil, and_self, and_true]
    intro heq
    rw [← heq, hopen] at hclosed
    cases hclosed
  | cons city cities ih =>
    obtain ⟨hnew, hrest⟩ := cons_perm_unvisited.mp hcities
    obtain ⟨hlt, hnot⟩ := mem_unvisited.mp hnew
    apply List.nodup_cons.mpr
    refine ⟨?_, ih (h.visit hlt) (h.open_visit hnew) hrest⟩
    intro hagain
    have hvisited := State.hasVisited_of_mem_along (i := city) hagain (by simp)
    rw [hnot] at hvisited
    cases hvisited

/-! ## Round trips -/

/-- The walks from the start of a tour. -/
theorem Cities.isWalk_start_iff (hsize : 2 ≤ c.size) (hcity : city < c.size)
    {path : List State} :
    c.problem.IsWalk (c.problem.start city) path ↔ ∃ inner : List Nat,
      path = (State.start city).along inner ∧ inner.Nodup ∧
        ∀ i, i ∈ inner ↔ i < c.size ∧ i ≠ city := by
  have hopen := open_start hsize hcity
  have hwalks : c.problem.IsWalk (c.problem.start city) path ↔ _ :=
    Cities.isWalk_iff (OnTour.start hcity) hopen
  simp only [perm_unvisited_start] at hwalks
  exact hwalks

/-- What is true of every walk from the start of a tour. -/
theorem Cities.isRoundTrip_of_isWalk (hsize : 2 ≤ c.size) (hcity : city < c.size)
    {path : List State} (hwalk : c.problem.IsWalk (c.problem.start city) path) :
    path.length = c.size + 1 ∧ path.Nodup ∧ IsRoundTrip c.size city (State.tour path) := by
  obtain ⟨inner, rfl, hinner⟩ := (Cities.isWalk_start_iff hsize hcity).mp hwalk
  have hperm := perm_unvisited_start.mpr hinner
  refine ⟨?_, (OnTour.start hcity).nodup_along (open_start hsize hcity) hperm, ?_⟩
  · rw [State.length_along, hperm.length_eq, length_unvisited_start hcity]
    omega
  · exact ⟨inner, State.tour_along _ _, hinner⟩

/-- Every round trip is the tour of one walk. -/
theorem Cities.existsUnique_walk (hsize : 2 ≤ c.size) (hcity : city < c.size) {way : List Nat}
    (htrip : IsRoundTrip c.size city way) :
    ∃! path, c.problem.IsWalk (c.problem.start city) path ∧ State.tour path = way := by
  obtain ⟨inner, rfl, hinner⟩ := htrip
  refine ⟨(State.start city).along inner,
    ⟨(Cities.isWalk_start_iff hsize hcity).mpr ⟨inner, rfl, hinner⟩, State.tour_along _ _⟩, ?_⟩
  rintro path ⟨hwalk, htour⟩
  obtain ⟨inner', rfl, -⟩ := (Cities.isWalk_start_iff hsize hcity).mp hwalk
  rw [State.tour_along] at htour
  have hsame : inner' = inner := List.append_cancel_right (List.cons.inj htour).2
  rw [hsame]

variable [Rounded α]

/-- **Walks on cities are round trips.** The walks from a city are as many states long as there are
cities and one more. They lead through every other city once and back, each in an order of its own,
and no order is left out. No path is a dead end or goes on for ever, and every ant makes its way,
with as many moves as there are cities. -/
theorem Cities.walks_are_round_trips (hpow : Walk.PowerKeepsSign α) (hsize : 2 ≤ c.size)
    (hcity : city < c.size) :
    let start := c.problem.start city
    (∀ path, c.problem.IsWalk start path →
      path.length = c.size + 1 ∧ IsRoundTrip c.size city (State.tour path)) ∧
    (∀ way, IsRoundTrip c.size city way →
      ∃! path, c.problem.IsWalk start path ∧ State.tour path = way) ∧
    (∀ path, c.problem.IsPath start path → ∃ rest, c.problem.IsWalk start (path ++ rest)) ∧
    ∀ {G : Type} [WordSource G] (guide : Guide State α) (g : G),
      (∀ source target, NotNegative (guide.pheromone.level source target)) →
      ofNat 0 ≤ guide.alpha → ofNat 0 ≤ guide.beta →
      ∃ trail g', c.problem.walk guide start g = (.ok trail, g') ∧
        (∀ moves, Ant.walk c.problem guide moves (Ant.setOut start) g = (.ok trail, g') ↔
          c.size ≤ moves) ∧
        c.problem.IsWalk start trail.path ∧ trail.path.length = c.size + 1 ∧ trail.path.Nodup ∧
        IsRoundTrip c.size city (State.tour trail.path) := by
  intro start
  refine ⟨?_, ?_, ?_, ?_⟩
  · intro path hwalk
    obtain ⟨hlength, -, htrip⟩ := Cities.isRoundTrip_of_isWalk hsize hcity hwalk
    exact ⟨hlength, htrip⟩
  · intro way htrip
    exact Cities.existsUnique_walk hsize hcity htrip
  · intro path hpath
    exact Cities.exists_walk_of_path (OnTour.start hcity) (open_start hsize hcity) hpath
  · intro G _ guide g hlevels halpha hbeta
    obtain ⟨trail, g', hwalk, -⟩ := Cities.walk_total hpow hlevels halpha hbeta hcity g
    have hway := Problem.isWalk_of_walk hwalk
    obtain ⟨hlength, hnodup, htrip⟩ := Cities.isRoundTrip_of_isWalk hsize hcity hway
    refine ⟨trail, g', hwalk, ?_, hway, hlength, hnodup, htrip⟩
    obtain ⟨made, hmade, hiff⟩ := Ant.walk_iff_le hwalk
    have hmade : made = c.size := by
      simp only [Ant.setOut, List.length_nil] at hmade
      omega
    rw [hmade] at hiff
    exact hiff

/-- A tour of a triangle's corners, from the second one. -/
theorem Cities.walks_are_round_trips_on_triangle :
    let _ : Scalar Float := Binary64.withPower Binary64.sketchedPower
    let corners : Cities Float :=
      ⟨#[⟨"a", 0, 0⟩, ⟨"b", 3, 0⟩, ⟨"c", 0, 4⟩], by decide, by decide +kernel⟩
    let guide : Guide State Float := ⟨Pheromone.uniform 1, 1, 1⟩
    let start := corners.problem.start 1
    2 ≤ corners.size ∧ 1 < corners.size ∧ Walk.PowerKeepsSign Float ∧
      (∃! path, corners.problem.IsWalk start path ∧ State.tour path = [1, 2, 0, 1]) ∧
      ∃ trail g', corners.problem.walk guide start (Script.mk #[7] 0) = (.ok trail, g') ∧
        trail.path.length = 4 ∧ IsRoundTrip 3 1 (State.tour trail.path) := by
  intro _ corners guide start
  let _ := Binary64.rounded_withPower Binary64.sketchedPower
  have hpow := Binary64.powerKeepsSign_sketched
  obtain ⟨-, htrips, -, hants⟩ :=
    walks_are_round_trips hpow (show 2 ≤ corners.size by decide) (show 1 < corners.size by decide)
  have htrip : IsRoundTrip corners.size 1 [1, 2, 0, 1] := by
    refine ⟨[2, 0], rfl, by decide, ?_⟩
    intro i
    change i ∈ [2, 0] ↔ i < 3 ∧ i ≠ 1
    simp only [List.mem_cons, List.not_mem_nil, or_false]
    omega
  have hlevels (source target : State) : NotNegative (guide.pheromone.level source target) := by
    have hall : guide.pheromone.All NotNegative := Pheromone.All.uniform (by decide +kernel)
    exact hall.level source target
  obtain ⟨trail, g', hwalk, -, -, hlength, -, hround⟩ :=
    hants guide (Script.mk #[7] 0) hlevels (by decide +kernel) (by decide +kernel)
  exact ⟨by decide, by decide, hpow, htrips _ htrip, trail, g', hwalk, hlength, hround⟩

end Stigmergy.Tour
