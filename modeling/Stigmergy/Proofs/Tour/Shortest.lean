import Stigmergy.Proofs.Deposit.Leader
import Stigmergy.Proofs.Tour.Length

/-!
# The shortest round trip is one

* `mem_arrangements_iff`: the arrangements of a list are its permutations.
* `mem_roundTrips_iff`: the round trips through cities are all that there are.
* `Cities.foldl_shorter_split`: the fold over trips ends at the first of the shortest.
* `Cities.shortest?_split`: so does the search among all round trips.
* `Cities.shortest?_spec`: the shortest trip is a round trip, and none is shorter.
-/

namespace Stigmergy.Tour

section Arrangements

variable {β : Type}

theorem mem_picks_iff {x : β} {rest xs : List β} :
    (x, rest) ∈ picks xs ↔ ∃ before after, xs = before ++ x :: after ∧ rest = before ++ after := by
  induction xs generalizing rest with
  | nil => simp [picks]
  | cons first xs ih =>
    simp only [picks, List.mem_cons, List.mem_map]
    constructor
    · rintro (hfirst | ⟨⟨y, others⟩, hmem, hpick⟩)
      · obtain ⟨rfl, rfl⟩ := Prod.mk.inj hfirst
        exact ⟨[], rest, rfl, rfl⟩
      · obtain ⟨rfl, rfl⟩ := Prod.mk.inj hpick
        obtain ⟨before, after, rfl, rfl⟩ := ih.mp hmem
        exact ⟨first :: before, after, rfl, rfl⟩
    · rintro ⟨before, after, hxs, rfl⟩
      cases before with
      | nil =>
        obtain ⟨rfl, rfl⟩ := List.cons.inj hxs
        exact .inl rfl
      | cons y before =>
        obtain ⟨rfl, rfl⟩ := List.cons.inj hxs
        exact .inr ⟨(x, before ++ after), ih.mpr ⟨before, after, rfl, rfl⟩, rfl⟩

theorem mem_arrangementsOf_iff {n : Nat} {xs way : List β} (hlength : xs.length = n) :
    way ∈ arrangementsOf n xs ↔ way.Perm xs := by
  induction n generalizing xs way with
  | zero =>
    obtain rfl := List.length_eq_zero_iff.mp hlength
    simp [arrangementsOf]
  | succ n ih =>
    simp only [arrangementsOf, List.mem_flatMap, List.mem_map, Prod.exists]
    constructor
    · rintro ⟨x, rest, hpick, way, hway, rfl⟩
      obtain ⟨before, after, rfl, rfl⟩ := mem_picks_iff.mp hpick
      have hrest : (before ++ after).length = n := by simpa [← Nat.add_assoc] using hlength
      exact (((ih hrest).mp hway).cons x).trans List.perm_middle.symm
    · intro hperm
      cases way with
      | nil =>
        rw [← hperm.length_eq] at hlength
        cases hlength
      | cons x way =>
        obtain ⟨before, after, rfl⟩ := List.append_of_mem (hperm.mem_iff.mp List.mem_cons_self)
        have hrest : (before ++ after).length = n := by simpa [← Nat.add_assoc] using hlength
        have hway := (hperm.trans List.perm_middle).cons_inv
        exact ⟨x, before ++ after, mem_picks_iff.mpr ⟨before, after, rfl, rfl⟩, way,
          (ih hrest).mpr hway, rfl⟩

/-- **All orders of a list** are its permutations. -/
theorem mem_arrangements_iff {xs way : List β} : way ∈ arrangements xs ↔ way.Perm xs :=
  mem_arrangementsOf_iff rfl

end Arrangements

/-- **All round trips from city zero** are tried. -/
theorem mem_roundTrips_iff {n : Nat} (hn : 0 < n) {way : List Nat} :
    way ∈ roundTrips n ↔ IsRoundTrip n 0 way := by
  obtain ⟨m, rfl⟩ := Nat.exists_eq_succ_of_ne_zero (Nat.ne_of_gt hn)
  have hrange : List.range (m + 1) = 0 :: (List.range (m + 1)).drop 1 := by
    simp [List.range_succ_eq_map]
  rw [isRoundTrip_iff hn, hrange]
  simp only [roundTrips, List.mem_map, mem_arrangements_iff, List.perm_cons]
  constructor
  · rintro ⟨inner, hperm, rfl⟩
    exact ⟨inner, rfl, hperm⟩
  · rintro ⟨inner, rfl, hperm⟩
    exact ⟨inner, hperm, rfl⟩

namespace Cities

open Scalar

variable {α : Type} [Scalar α] [Rounded α]

omit [Rounded α] in
/-- Trips are told apart as an iteration's trails are. -/
theorem foldl_shorter_eq (first : Trail Nat α) (trips : List (Trail Nat α)) :
    trips.foldl shorter (some first) =
      some ((trips.map fun trip => (trip, 0)).foldl Deposit.cheaper (first, 0)).1 := by
  induction trips generalizing first with
  | nil => rfl
  | cons next trips ih =>
    simp only [List.map_cons, List.foldl_cons]
    by_cases hlt : next.cost < first.cost
    · have hshorter : shorter (some first) next = some next := if_pos hlt
      have hcheaper : Deposit.cheaper (first, 0) (next, 0) = (next, 0) := if_pos hlt
      rw [hshorter, hcheaper, ih]
    · have hshorter : shorter (some first) next = some first := if_neg hlt
      have hcheaper : Deposit.cheaper (first, 0) (next, 0) = (first, 0) := if_neg hlt
      rw [hshorter, hcheaper, ih]

/-- The fold over trips ends at the first of the shortest. -/
theorem foldl_shorter_split {first : Trail Nat α} {trips : List (Trail Nat α)}
    (hnumber : ∀ trip ∈ first :: trips, isNaN trip.cost = false) :
    ∃ best before after, trips.foldl shorter (some first) = some best ∧
      first :: trips = before ++ best :: after ∧ (∀ trip ∈ before, best.cost < trip.cost) ∧
      ∀ trip ∈ after, best.cost ≤ trip.cost := by
  let entry (trip : Trail Nat α) : Trail Nat α × Nat := (trip, 0)
  have hentries : ∀ x ∈ entry first :: trips.map entry, isNaN x.1.cost = false := by
    simpa [entry] using hnumber
  obtain ⟨before, after, hsplit, hbefore, hafter⟩ := Deposit.foldl_cheaper_split hentries
  have htrips := congrArg (List.map Prod.fst) hsplit
  simp only [List.map_cons, List.map_map, List.map_append] at htrips
  refine ⟨_, before.map Prod.fst, after.map Prod.fst, foldl_shorter_eq first trips, ?_, ?_, ?_⟩
  · rw [← htrips]
    simp [entry, Function.comp_def]
  · exact List.forall_mem_map.mpr hbefore
  · exact List.forall_mem_map.mpr hafter

variable {c : Cities α}

omit [Rounded α] in
theorem shortest?_eq (hsize : 2 ≤ c.size) :
    c.shortest? = ((roundTrips c.size).filterMap (trip? c.distance?)).foldl shorter none := by
  rw [← shortestTrip_eq, ← cell?_table]
  unfold shortest?
  split
  · omega
  · omega
  · rfl

/-- Every round trip from city zero has its trip. -/
theorem exists_trip_of_mem {way : List Nat} (hpos : 0 < c.size) (hway : way ∈ roundTrips c.size) :
    ∃ cost, trip? c.distance? way = some ⟨way, cost⟩ ∧ ofNat 0 ≤ cost := by
  have hround := (mem_roundTrips_iff hpos).mp hway
  exact exists_trip fun i hi => hround.lt_of_mem hpos hi

/-- Every trip that the search looks at is that of a round trip, at no negative cost. -/
theorem of_mem_trips (hpos : 0 < c.size) {trip : Trail Nat α}
    (hmem : trip ∈ (roundTrips c.size).filterMap (trip? c.distance?)) :
    trip.path ∈ roundTrips c.size ∧ trip? c.distance? trip.path = some trip ∧
      ofNat 0 ≤ trip.cost := by
  obtain ⟨way, hway, htrip⟩ := List.mem_filterMap.mp hmem
  obtain ⟨cost, hcost, hnonneg⟩ := exists_trip_of_mem hpos hway
  obtain rfl := Option.some.inj (hcost.symm.trans htrip)
  exact ⟨hway, hcost, hnonneg⟩

/-- **The shortest trip is the first of the shortest**: those before it are longer, and those after
it are not shorter. -/
theorem shortest?_split (hsize : 2 ≤ c.size) :
    ∃ best before after, c.shortest? = some best ∧
      (roundTrips c.size).filterMap (trip? c.distance?) = before ++ best :: after ∧
      (∀ trip ∈ before, best.cost < trip.cost) ∧ ∀ trip ∈ after, best.cost ≤ trip.cost := by
  have hpos : 0 < c.size := by omega
  have hnumber : ∀ trip ∈ (roundTrips c.size).filterMap (trip? c.distance?),
      isNaN trip.cost = false := fun trip hmem =>
    (Rounded.number_of_le (of_mem_trips hpos hmem).2.2).2
  rw [shortest?_eq hsize]
  cases hall : (roundTrips c.size).filterMap (trip? c.distance?) with
  | nil =>
    -- There is the round trip through all cities by their numbers.
    have hway : roundTrip ((List.range c.size).drop 1) ∈ roundTrips c.size :=
      List.mem_map_of_mem (mem_arrangements_iff.mpr (.refl _))
    obtain ⟨cost, hcost, -⟩ := exists_trip_of_mem hpos hway
    have htrip := List.mem_filterMap.mpr ⟨_, hway, hcost⟩
    rw [hall] at htrip
    cases htrip
  | cons first trips => exact foldl_shorter_split (hall ▸ hnumber)

/-- **The shortest trip is the shortest of all round trips** from city zero. -/
theorem shortest?_spec (hsize : 2 ≤ c.size) :
    ∃ best, c.shortest? = some best ∧ best.path ∈ roundTrips c.size ∧
      ∀ way ∈ roundTrips c.size, ∀ trip, trip? c.distance? way = some trip →
        best.cost ≤ trip.cost := by
  have hpos : 0 < c.size := by omega
  obtain ⟨best, before, after, hbest, hsplit, hbefore, hafter⟩ := shortest?_split hsize
  have hmem : best ∈ (roundTrips c.size).filterMap (trip? c.distance?) := by simp [hsplit]
  obtain ⟨hbestway, -, hnonneg⟩ := of_mem_trips hpos hmem
  refine ⟨best, hbest, hbestway, ?_⟩
  intro way hway trip htrip
  have htripmem := List.mem_filterMap.mpr ⟨way, hway, htrip⟩
  rw [hsplit, List.mem_append, List.mem_cons] at htripmem
  rcases htripmem with hearlier | rfl | hlater
  · exact Rounded.le_of_lt (hbefore trip hearlier)
  · exact Rounded.le_refl (Rounded.number_of_le hnonneg).2
  · exact hafter trip hlater

end Cities

end Stigmergy.Tour
