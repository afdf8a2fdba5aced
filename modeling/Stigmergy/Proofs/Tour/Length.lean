import Mathlib.Data.List.Rotate
import Stigmergy.Proofs.Tour.RoundTrip
import Stigmergy.Tour.Shortest

/-!
# How long a way is

* `turned`: a round trip made to start at another of its cities.
* `IsRoundTrip.turned`: it still is a round trip, with the same steps in another order.
* `Cities.total?`: the distances of some steps, added from zero on.
* `Cities.total_of_walk`: an ant's trail costs the distances of its tour.
* `Cities.AddsExactly`: the length of a round trip does not depend on the order of its steps.
* `Cities.exists_trip`: every way through cities has a length.
-/

namespace Stigmergy.Tour

open Scalar Stigmergy.Random

/-! ## Round trips from another city -/

/-- A round trip, made to start at another of its cities. -/
def turned (city : Nat) (way : List Nat) : List Nat :=
  let loop := way.dropLast
  loop.rotate (loop.idxOf city) ++ [city]

variable {n home city : Nat} {way inner : List Nat}

/-- Around a city, the others stand in some order. -/
theorem isRoundTrip_iff (hcity : city < n) :
    IsRoundTrip n city way ↔
      ∃ inner, way = city :: (inner ++ [city]) ∧ (city :: inner).Perm (List.range n) := by
  constructor
  · rintro ⟨inner, rfl, hnodup, hmem⟩
    refine ⟨inner, rfl, ?_⟩
    have hnew : city ∉ inner := fun hagain => ((hmem city).mp hagain).2 rfl
    apply (List.perm_ext_iff_of_nodup (List.nodup_cons.mpr ⟨hnew, hnodup⟩) List.nodup_range).mpr
    intro i
    rw [List.mem_cons, hmem, List.mem_range]
    by_cases heq : i = city
    · simp [heq, hcity]
    · simp [heq]
  · rintro ⟨inner, rfl, hperm⟩
    obtain ⟨hnew, hnodup⟩ := List.nodup_cons.mp (hperm.nodup_iff.mpr List.nodup_range)
    refine ⟨inner, rfl, hnodup, ?_⟩
    intro i
    rw [← List.mem_range, ← hperm.mem_iff, List.mem_cons]
    by_cases heq : i = city
    · simp [heq, hnew]
    · simp [heq]

theorem IsRoundTrip.lt_of_mem (hcity : city < n) (h : IsRoundTrip n city way) {i : Nat}
    (hi : i ∈ way) : i < n := by
  obtain ⟨inner, rfl, -, hmem⟩ := h
  by_cases heq : i = city
  · exact heq ▸ hcity
  · have hinner : i ∈ inner := by simpa [heq] using hi
    exact ((hmem i).mp hinner).1

/-- A round trip is cut at the city, and the two parts change places. -/
theorem turned_eq {before after : List Nat} (hnot : city ∉ before)
    (hloop : home :: inner = before ++ city :: after) :
    turned city (home :: (inner ++ [home])) = city :: (after ++ before ++ [city]) := by
  have hdrop : (home :: (inner ++ [home])).dropLast = before ++ city :: after := by
    rw [← List.cons_append, List.dropLast_concat, hloop]
  have hindex : (before ++ city :: after).idxOf city = before.length := by
    simp [List.idxOf_append_of_notMem hnot]
  simp only [turned, hdrop, hindex, List.rotate_append_length_eq, List.cons_append]

/-- The two parts keep their steps when they change places. -/
theorem consecutive_turned_perm {before after : List Nat}
    (hloop : home :: inner = before ++ city :: after) :
    (consecutive (home :: (inner ++ [home]))).Perm
      (consecutive (city :: (after ++ before ++ [city]))) := by
  cases before with
  | nil =>
    obtain ⟨rfl, rfl⟩ := List.cons.inj hloop
    simp
  | cons first rest =>
    have hhome : home = first := (List.cons.inj hloop).1
    have hinner : inner = rest ++ city :: after := (List.cons.inj hloop).2
    have hway : home :: (inner ++ [home]) = (home :: rest) ++ city :: (after ++ [home]) := by
      simp [hinner]
    have hturned : city :: (after ++ first :: rest ++ [city]) =
        (city :: after) ++ home :: (rest ++ [city]) := by
      simp [hhome]
    rw [hway, hturned, consecutive_append_cons (home :: rest),
      consecutive_append_cons (city :: after)]
    exact List.perm_append_comm

/-- Turned, a round trip still is one, and has the same steps in another order. -/
theorem IsRoundTrip.turned (hhome : home < n) (hcity : city < n) (h : IsRoundTrip n home way) :
    IsRoundTrip n city (turned city way) ∧
      (consecutive way).Perm (consecutive (Tour.turned city way)) := by
  obtain ⟨inner, rfl, hperm⟩ := (isRoundTrip_iff hhome).mp h
  have hmem : city ∈ home :: inner := hperm.mem_iff.mpr (List.mem_range.mpr hcity)
  obtain ⟨before, after, hloop, hnot⟩ := List.eq_append_cons_of_mem hmem
  rw [turned_eq hnot hloop]
  have hparts : (city :: after ++ before).Perm (before ++ city :: after) := List.perm_append_comm
  have hturned := (isRoundTrip_iff hcity).mpr ⟨after ++ before, rfl, hparts.trans (hloop ▸ hperm)⟩
  exact ⟨hturned, consecutive_turned_perm hloop⟩

/-! ## Sums of distances -/

variable {α : Type}

/-- The move to a candidate is as long as its distance. -/
theorem distance_of_mem_moves {n : Nat} {distance? : Nat → Nat → Option α} {s : State}
    {candidates : List (State × α)} (h : moves? n distance? s = some candidates)
    {candidate : State × α} (hmem : candidate ∈ candidates) :
    distance? s.current candidate.1.current = some candidate.2 := by
  unfold moves? at h
  split at h
  · obtain ⟨d, hd, rfl⟩ := Option.map_eq_some_iff.mp h
    rw [List.mem_singleton.mp hmem]
    exact hd
  · obtain ⟨city, -, hcity⟩ := mem_of_mapM_some h hmem
    obtain ⟨d, hd, rfl⟩ := Option.map_eq_some_iff.mp hcity
    exact hd

variable [Scalar α]

namespace Cities

/-- The sum of the distances so far and that of one more step. -/
def addStep (distance? : Nat → Nat → Option α) (sum : α) (step : Nat × Nat) : Option α :=
  (distance? step.1 step.2).map (sum + ·)

/-- The sum of the distances of some steps, from zero on. -/
def total? (distance? : Nat → Nat → Option α) (steps : List (Nat × Nat)) : Option α :=
  steps.foldlM (addStep distance?) (ofNat 0)

theorem trip?_eq (distance? : Nat → Nat → Option α) (way : List Nat) :
    trip? distance? way = (total? distance? (consecutive way)).map fun cost => ⟨way, cost⟩ := rfl

theorem total?_append_singleton (distance? : Nat → Nat → Option α) (steps : List (Nat × Nat))
    (step : Nat × Nat) :
    total? distance? (steps ++ [step]) =
      (total? distance? steps).bind fun sum => addStep distance? sum step := by
  unfold total?
  rw [List.foldlM_append]
  simp

variable {c : Cities α} {G : Type} [WordSource G]

/-- An ant has added up the distances of its tour, in the order of its steps. -/
def Adds (c : Cities α) (ant : Ant State α) : Prop :=
  total? c.distance? (consecutive (State.tour ant.trail.path)) = some ant.cost

/-- A move adds its distance. -/
theorem Adds.step {guide : Guide State α} {ant next : Ant State α} {g g' : G} (hant : c.Adds ant)
    (h : ant.step c.problem guide g = (.ok next, g')) : c.Adds next := by
  obtain ⟨candidates, candidate, hsuccessors, hmem, -, rfl⟩ := Ant.step_ok h
  change moves? c.size (cell? c.table) ant.here = some candidates at hsuccessors
  rw [cell?_table] at hsuccessors
  have hdistance := distance_of_mem_moves hsuccessors hmem
  -- The tour grows by one city, and so its steps grow by one.
  have htour : State.tour (ant.goTo candidate).trail.path =
      State.tour ant.behind.reverse ++ [ant.here.current, candidate.1.current] := by
    simp [State.tour, Ant.trail, Ant.goTo]
  have hbefore : State.tour ant.trail.path =
      State.tour ant.behind.reverse ++ [ant.here.current] := by
    simp [State.tour, Ant.trail]
  unfold Adds at hant ⊢
  rw [hbefore] at hant
  rw [htour, consecutive_append_cons, consecutive_cons_cons, consecutive_singleton,
    total?_append_singleton, hant]
  simp [addStep, hdistance, Ant.goTo]

/-- **An ant's trail costs the distances of its tour.** -/
theorem total_of_walk {guide : Guide State α} {city : Nat} {g g' : G} {trail : Trail State α}
    (h : c.problem.walk guide (c.problem.start city) g = (.ok trail, g')) :
    total? c.distance? (consecutive (State.tour trail.path)) = some trail.cost := by
  have hstart : c.Adds (Ant.setOut (c.problem.start city)) := rfl
  obtain ⟨last, hlast, -, rfl⟩ := Ant.walk_ok (P := c.Adds) (fun hant _ h => hant.step h) hstart h
  exact hlast

/-- The distances of a round trip from city zero have one sum, in whichever order they are added.
They have where sums are not rounded. -/
def AddsExactly (c : Cities α) : Prop :=
  ∀ way, IsRoundTrip c.size 0 way → ∀ steps, steps.Perm (consecutive way) →
    total? c.distance? steps = total? c.distance? (consecutive way)

/-- In arithmetic without rounding, all cities add exactly. -/
theorem addsExactly_of_comm (hcomm : ∀ x y z : α, x + y + z = x + z + y) (c : Cities α) :
    c.AddsExactly := by
  intro way _ steps hperm
  unfold total?
  rw [List.foldlM_eq_foldl, List.foldlM_eq_foldl]
  apply hperm.foldl_eq'
  intro first _ second _ sum
  cases sum with
  | none => rfl
  | some sum =>
    cases hfirst : c.distance? first.1 first.2 <;>
      cases hsecond : c.distance? second.1 second.2 <;>
      simp [addStep, hfirst, hsecond, hcomm sum]

variable [Rounded α]

/-- The distances between cities have a sum, which is a number and not negative. -/
theorem exists_total {steps : List (Nat × Nat)}
    (h : ∀ step ∈ steps, step.1 < c.size ∧ step.2 < c.size) :
    ∃ sum, total? c.distance? steps = some sum ∧ ofNat 0 ≤ sum := by
  induction steps using List.reverseRecOn with
  | nil => exact ⟨ofNat 0, rfl, Rounded.le_refl Rounded.number_zero⟩
  | append_singleton steps step ih =>
    obtain ⟨hsteps, hstep⟩ := List.forall_mem_append.mp h
    obtain ⟨sum, hsum, hnonneg⟩ := ih hsteps
    obtain ⟨hu, hv⟩ := hstep step List.mem_cons_self
    obtain ⟨d, hd, hdistance, -⟩ := distance?_spec hu hv
    refine ⟨sum + d, ?_, Rounded.add_nonneg hnonneg hdistance⟩
    rw [total?_append_singleton, hsum]
    simp [addStep, hd]

/-- A way through cities is a trip, at a cost that is a number and not negative. -/
theorem exists_trip {way : List Nat} (h : ∀ i ∈ way, i < c.size) :
    ∃ cost, trip? c.distance? way = some ⟨way, cost⟩ ∧ ofNat 0 ≤ cost := by
  have hsteps : ∀ step ∈ consecutive way, step.1 < c.size ∧ step.2 < c.size := by
    intro step hstep
    obtain ⟨hu, hv⟩ := mem_of_mem_consecutive hstep
    exact ⟨h _ hu, h _ hv⟩
  obtain ⟨cost, hcost, hnonneg⟩ := exists_total hsteps
  exact ⟨cost, by rw [trip?_eq, hcost]; rfl, hnonneg⟩

end Cities

end Stigmergy.Tour
