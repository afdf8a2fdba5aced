import Stigmergy.Proofs.Tour.Distance
import Stigmergy.Proofs.Walk.Steps
import Stigmergy.Tour.Problem

/-!
# Tours always close

* `OnTour`: the invariant of an ant's state.
* `remaining`: the number of moves that are left, one for each city to visit and one to go home.
* `moves?_spec`: in every state that is not closed there are moves, and each of them leaves fewer.
* `Fares`: the invariant of the ant, whose way is free as long as it stays at one place.
* `Cities.walk_total`: so every walk closes, and is free if and only if all cities are at one place.
-/

namespace Stigmergy.Tour

open Scalar Stigmergy.Random

namespace State

@[simp]
theorem hasVisited_start (city i : Nat) : (start city).hasVisited i = decide (city = i) := by
  unfold hasVisited start
  rw [Nat.one_shiftLeft, Nat.testBit_two_pow]

@[simp]
theorem hasVisited_visit (s : State) (city i : Nat) :
    (s.visit city).hasVisited i = (s.hasVisited i || decide (city = i)) := by
  unfold hasVisited visit
  rw [Nat.testBit_or, Nat.one_shiftLeft, Nat.testBit_two_pow]

end State

/-- An ant has visited some of the first `n` cities, among them the one it stands on and the one its
tour began in. -/
structure OnTour (n : Nat) (s : State) : Prop where
  lt : ∀ i, s.hasVisited i = true → i < n
  current : s.hasVisited s.current = true
  origin : s.hasVisited s.origin = true

def remaining (n : Nat) (s : State) : Nat :=
  (unvisited n s).length + if isClosed n s then 0 else 1

variable {n city : Nat} {s : State}

theorem mem_unvisited {i : Nat} : i ∈ unvisited n s ↔ i < n ∧ s.hasVisited i = false := by
  simp [unvisited]

theorem hasVisited_of_unvisited {i : Nat} (hnone : unvisited n s = []) (hi : i < n) :
    s.hasVisited i = true := by
  cases hvisited : s.hasVisited i with
  | true => rfl
  | false =>
    have hmem : i ∈ unvisited n s := mem_unvisited.mpr ⟨hi, hvisited⟩
    rw [hnone] at hmem
    cases hmem

theorem OnTour.current_lt (h : OnTour n s) : s.current < n := h.lt _ h.current

theorem OnTour.origin_lt (h : OnTour n s) : s.origin < n := h.lt _ h.origin

theorem OnTour.start (hcity : city < n) : OnTour n (State.start city) := by
  refine ⟨?_, ?_, ?_⟩
  · intro i hi
    have : city = i := by simpa using hi
    omega
  · rw [State.hasVisited_start]
    simp [State.start]
  · rw [State.hasVisited_start]
    simp [State.start]

theorem OnTour.visit (h : OnTour n s) (hcity : city < n) : OnTour n (s.visit city) := by
  refine ⟨?_, ?_, ?_⟩
  · intro i hi
    rw [State.hasVisited_visit, Bool.or_eq_true] at hi
    rcases hi with hold | hnew
    · exact h.lt i hold
    · have : city = i := by simpa using hnew
      omega
  · rw [State.hasVisited_visit]
    simp [State.visit]
  · rw [State.hasVisited_visit]
    change (s.hasVisited s.origin || _) = true
    rw [h.origin, Bool.true_or]

theorem OnTour.home (h : OnTour n s) : OnTour n s.home := ⟨h.lt, h.origin, h.origin⟩

/-- The bits of the visited cities are all set when no city is left. -/
theorem OnTour.isClosed_iff (h : OnTour n s) :
    isClosed n s = true ↔ unvisited n s = [] ∧ s.current = s.origin := by
  have hfull : s.visited = (1 <<< n) - 1 ↔ unvisited n s = [] := by
    constructor
    · intro hvisited
      apply List.eq_nil_iff_forall_not_mem.mpr
      intro i hi
      obtain ⟨hlt, hnot⟩ := mem_unvisited.mp hi
      rw [State.hasVisited, hvisited, Nat.one_shiftLeft, Nat.testBit_two_pow_sub_one] at hnot
      simp [hlt] at hnot
    · intro hnone
      apply Nat.eq_of_testBit_eq
      intro i
      rw [Nat.one_shiftLeft, Nat.testBit_two_pow_sub_one]
      change s.hasVisited i = _
      by_cases hi : i < n
      · simpa [hi] using hasVisited_of_unvisited hnone hi
      · have hnot : ¬s.hasVisited i = true := fun hvisited => hi (h.lt i hvisited)
        simpa [hi] using hnot
  rw [← hfull]
  simp [isClosed]

theorem remaining_le_succ (n : Nat) (s : State) : remaining n s ≤ (unvisited n s).length + 1 := by
  unfold remaining
  split <;> omega

theorem remaining_of_open (hopen : isClosed n s = false) :
    remaining n s = (unvisited n s).length + 1 := by
  unfold remaining
  rw [hopen]
  rfl

theorem remaining_le (n : Nat) (s : State) : remaining n s ≤ n + 1 := by
  have hle := List.length_filter_le (fun i => !s.hasVisited i) (List.range n)
  rw [List.length_range] at hle
  exact Nat.le_trans (remaining_le_succ n s) (Nat.succ_le_succ hle)

theorem remaining_visit (hcity : city ∈ unvisited n s) (hopen : isClosed n s = false) :
    remaining n (s.visit city) < remaining n s := by
  have hfilter : unvisited n (s.visit city) =
      (unvisited n s).filter fun i => !decide (city = i) := by
    unfold unvisited
    rw [List.filter_filter]
    congr 1
    funext i
    rw [State.hasVisited_visit, Bool.not_or, Bool.and_comm]
  have hfewer : (unvisited n (s.visit city)).length < (unvisited n s).length := by
    rw [hfilter]
    exact List.length_filter_lt_length_iff_exists.mpr ⟨city, hcity, by simp⟩
  have hle := remaining_le_succ n (s.visit city)
  rw [remaining_of_open hopen]
  omega

theorem OnTour.remaining_home (h : OnTour n s) (hnone : unvisited n s = [])
    (hopen : isClosed n s = false) : remaining n s.home < remaining n s := by
  have hclosed : isClosed n s.home = true := h.home.isClosed_iff.mpr ⟨hnone, rfl⟩
  rw [remaining_of_open hopen]
  unfold remaining
  rw [if_pos hclosed]
  exact Nat.lt_succ_self _

/-! ## Moves -/

variable {α : Type} [Scalar α] {c : Cities α}

/-- What a move from a state to another at some distance does. -/
structure Move (c : Cities α) (s : State) (move : State × α) : Prop where
  onTour : OnTour c.size move.1
  visited : ∀ i, move.1.hasVisited i = true ↔ s.hasVisited i = true ∨ i = move.1.current
  nonneg : ofNat 0 ≤ move.2
  free_iff : move.2 ≤ ofNat 0 ↔ c.Together s.current move.1.current
  closer : remaining c.size move.1 < remaining c.size s

/-- Values with a property, one for each entry of a list. -/
theorem mapM_some {A B : Type} {f : A → Option B} {P : B → Prop} {xs : List A}
    (h : ∀ x ∈ xs, ∃ y, f x = some y ∧ P y) :
    ∃ ys, xs.mapM f = some ys ∧ ys.length = xs.length ∧ ∀ y ∈ ys, P y := by
  induction xs with
  | nil => exact ⟨[], rfl, rfl, fun y hy => by cases hy⟩
  | cons x xs ih =>
    obtain ⟨hx, hxs⟩ := List.forall_mem_cons.mp h
    obtain ⟨y, hy, hPy⟩ := hx
    obtain ⟨ys, hys, hlength, hall⟩ := ih hxs
    refine ⟨y :: ys, ?_, by rw [List.length_cons, List.length_cons, hlength], ?_⟩
    · rw [List.mapM_cons, hy, hys]
      rfl
    · exact List.forall_mem_cons.mpr ⟨hPy, hall⟩

/-- The values of the entries of a list are looked up there. -/
theorem mem_of_mapM_some {A B : Type} {f : A → Option B} {xs : List A} {ys : List B}
    (h : xs.mapM f = some ys) {y : B} (hy : y ∈ ys) : ∃ x ∈ xs, f x = some y := by
  induction xs generalizing ys with
  | nil =>
    cases h
    cases hy
  | cons x xs ih =>
    rw [List.mapM_cons] at h
    obtain ⟨first, hfirst, h⟩ := Option.bind_eq_some_iff.mp h
    obtain ⟨rest, hrest, h⟩ := Option.bind_eq_some_iff.mp h
    obtain rfl := Option.some.inj h
    cases List.mem_cons.mp hy with
    | inl heq => exact ⟨x, List.mem_cons_self, heq ▸ hfirst⟩
    | inr hmem =>
      obtain ⟨x', hx', hvalue⟩ := ih hrest hmem
      exact ⟨x', List.mem_cons_of_mem _ hx', hvalue⟩

variable [Rounded α]

theorem Move.visit (h : OnTour c.size s) (hcity : city ∈ unvisited c.size s)
    (hopen : isClosed c.size s = false) :
    ∃ move, (c.distance? s.current city).map (fun d => (s.visit city, d)) = some move ∧
      Move c s move := by
  have hlt := (mem_unvisited.mp hcity).1
  obtain ⟨d, hd, hnonneg, hfree⟩ := Cities.distance?_spec h.current_lt hlt
  rw [hd]
  refine ⟨(s.visit city, d), rfl, h.visit hlt, ?_, hnonneg, hfree, remaining_visit hcity hopen⟩
  intro i
  rw [State.hasVisited_visit, Bool.or_eq_true, decide_eq_true_eq]
  exact or_congr_right eq_comm

theorem Move.home (h : OnTour c.size s) (hnone : unvisited c.size s = [])
    (hopen : isClosed c.size s = false) :
    ∃ d, c.distance? s.current s.origin = some d ∧ Move c s (s.home, d) := by
  obtain ⟨d, hd, hnonneg, hfree⟩ := Cities.distance?_spec h.current_lt h.origin_lt
  refine ⟨d, hd, h.home, ?_, hnonneg, hfree, h.remaining_home hnone hopen⟩
  intro i
  constructor
  · intro hi
    exact .inl hi
  · rintro (hi | rfl)
    · exact hi
    · exact h.origin

/-- There is a way on until the tour is closed. -/
theorem moves?_spec (h : OnTour c.size s) (hopen : isClosed c.size s = false) :
    ∃ candidates, c.problem.successors s = some candidates ∧ candidates ≠ [] ∧
      ∀ move ∈ candidates, Move c s move := by
  change ∃ candidates, moves? c.size (Cities.cell? c.table) s = _ ∧ _
  rw [Cities.cell?_table]
  unfold moves?
  split
  · next hnone =>
    obtain ⟨d, hd, hmove⟩ := Move.home h hnone hopen
    rw [hd]
    refine ⟨[(s.home, d)], rfl, List.cons_ne_nil _ _, ?_⟩
    intro move hmem
    rw [List.mem_singleton.mp hmem]
    exact hmove
  · next hsome =>
    obtain ⟨candidates, hcandidates, hlength, hall⟩ :=
      mapM_some fun city hcity => Move.visit h hcity hopen
    refine ⟨candidates, hcandidates, ?_, hall⟩
    intro hnil
    rw [hnil, List.length_nil] at hlength
    exact hsome (List.length_eq_zero_iff.mp hlength.symm)

/-! ## Walks -/

/-- An ant on tour, whose way has been free if it has seen one place alone. -/
structure Fares (c : Cities α) (ant : Ant State α) : Prop where
  onTour : OnTour c.size ant.here
  nonneg : ofNat 0 ≤ ant.cost
  free_iff : ant.cost ≤ ofNat 0 ↔
    ∀ i, ant.here.hasVisited i = true → c.Together i ant.here.current

theorem Fares.setOut (hcity : city < c.size) :
    Fares c (Ant.setOut (State.start city) : Ant State α) := by
  have hzero : (ofNat 0 : α) ≤ ofNat 0 := Rounded.le_refl Rounded.number_zero
  refine ⟨OnTour.start hcity, hzero, ?_, fun _ => hzero⟩
  intro _ i hi
  have hsame : city = i := by simpa [Ant.setOut] using hi
  rw [← hsame]
  exact Cities.Together.refl hcity

theorem Fares.goTo {ant : Ant State α} (h : Fares c ant) {move : State × α}
    (hmove : Move c ant.here move) : Fares c (ant.goTo move) := by
  refine ⟨hmove.onTour, Rounded.add_nonneg h.nonneg hmove.nonneg, ?_⟩
  change ant.cost + move.2 ≤ ofNat 0 ↔
    ∀ i, move.1.hasVisited i = true → c.Together i move.1.current
  constructor
  · intro hfree i hi
    have hcost := Rounded.le_trans (Rounded.le_add_right h.nonneg hmove.nonneg) hfree
    have hstep := Rounded.le_trans (Rounded.le_add_left h.nonneg hmove.nonneg) hfree
    rcases (hmove.visited i).mp hi with hold | rfl
    · exact (h.free_iff.mp hcost i hold).trans (hmove.free_iff.mp hstep)
    · exact Cities.Together.refl hmove.onTour.current_lt
  · intro hplace
    have hcurrent := hplace _ ((hmove.visited _).mpr (.inl h.onTour.current))
    have hstep := hmove.free_iff.mpr hcurrent
    have hcost : ant.cost ≤ ofNat 0 := by
      apply h.free_iff.mpr
      intro i hi
      exact (hplace i ((hmove.visited i).mpr (.inl hi))).trans hcurrent.symm
    exact (Rounded.isZero_add ⟨hcost, h.nonneg⟩ ⟨hstep, hmove.nonneg⟩).1

/-- A closed tour has seen all cities. -/
theorem Fares.free_iff_of_isClosed {ant : Ant State α} (h : Fares c ant)
    (hclosed : isClosed c.size ant.here = true) : ant.cost ≤ ofNat 0 ↔ c.Coincide := by
  have hall : ∀ i, i < c.size → ant.here.hasVisited i = true := fun i hi =>
    hasVisited_of_unvisited (h.onTour.isClosed_iff.mp hclosed).1 hi
  rw [h.free_iff, Cities.coincide_iff]
  constructor
  · intro hplace u v hu hv
    exact (hplace u (hall u hu)).trans (hplace v (hall v hv)).symm
  · intro hplace i hi
    exact hplace i _ (h.onTour.lt i hi) h.onTour.current_lt

variable {G : Type} [WordSource G]

/-- **Every walk closes its tour**, by any pheromone that is not negative, and its trail is free if
and only if all cities are at one place. -/
theorem Cities.walk_total (hpow : Walk.PowerKeepsSign α) {guide : Guide State α}
    (hlevels : ∀ source target, NotNegative (guide.pheromone.level source target))
    (halpha : ofNat 0 ≤ guide.alpha) (hbeta : ofNat 0 ≤ guide.beta) (hcity : city < c.size)
    (g : G) :
    ∃ trail g', c.problem.walk guide (c.problem.start city) g = (.ok trail, g') ∧
      (trail.cost ≤ ofNat 0 ↔ c.Coincide) := by
  have hstep (ant : Ant State α) (g : G) (hant : Fares c ant)
      (hopen : c.problem.isGoal ant.here = false) :
      ∃ next g', ant.step c.problem guide g = (.ok next, g') ∧ Fares c next ∧
        remaining c.size next.here < remaining c.size ant.here := by
    obtain ⟨candidates, hsuccessors, hne, hmoves⟩ := moves?_spec hant.onTour hopen
    obtain ⟨move, hmem, g', hmove⟩ := Ant.step_total hpow hlevels halpha hbeta hsuccessors hne
      (fun move hmem => (hmoves move hmem).nonneg) g
    exact ⟨_, g', hmove, hant.goTo (hmoves move hmem), (hmoves move hmem).closer⟩
  obtain ⟨last, g', hwalk, hlast, hclosed⟩ :=
    Ant.walk_total hstep (remaining_le c.size _) (Fares.setOut hcity) (g := g)
  exact ⟨last.trail, g', hwalk, hlast.free_iff_of_isClosed hclosed⟩

end Stigmergy.Tour
