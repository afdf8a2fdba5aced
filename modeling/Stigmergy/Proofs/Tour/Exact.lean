import Stigmergy.Proofs.Binary64.Shares
import Stigmergy.Proofs.Binary64.Sums
import Stigmergy.Proofs.Tour.Shortest

/-!
# Trying all round trips is exact

* `pairwise_arrangements`: all orders of a sorted list come in lexicographic order.
* `inner`: the cities of a round trip between its start and its end.
* `Cities.pairwise_trips`: so do round trips, by their inner cities.
* `Cities.length?_eq_total?`: the two sums of a way's distances, from zero and from negative zero
  on, are the same.
* `Cities.shortest_trip_is_exact`: the shortest trip costs its length, no round trip is shorter, and
  it is the first one of the shortest.
-/

namespace Stigmergy.Tour

/-! ## Lexicographic order -/

section Order

variable {β : Type}

theorem map_fst_picks (xs : List β) : (picks xs).map Prod.fst = xs := by
  induction xs with
  | nil => rfl
  | cons x xs ih => simpa [picks, Function.comp_def] using ih

variable [LT β] {xs : List β}

theorem pairwise_arrangementsOf (n : Nat) (h : xs.Pairwise (· < ·)) :
    (arrangementsOf n xs).Pairwise (· < ·) := by
  induction n generalizing xs with
  | zero => exact List.pairwise_singleton _ _
  | succ n ih =>
    rw [arrangementsOf, List.pairwise_flatMap]
    constructor
    · rintro ⟨x, rest⟩ hpick
      have hrest : rest.Sublist xs := by
        obtain ⟨before, after, rfl, rfl⟩ := mem_picks_iff.mp hpick
        simp
      apply List.pairwise_map.mpr
      exact (ih (h.sublist hrest)).imp fun hlt => List.cons_lt_cons_iff.mpr (.inr ⟨rfl, hlt⟩)
    · have hfirst : (picks xs).Pairwise fun pick other => pick.1 < other.1 := by
        apply List.pairwise_map.mp
        simpa [map_fst_picks] using h
      apply hfirst.imp
      rintro ⟨x, rest⟩ ⟨y, others⟩ hlt _ hway _ hother
      obtain ⟨way, -, rfl⟩ := List.mem_map.mp hway
      obtain ⟨other, -, rfl⟩ := List.mem_map.mp hother
      exact List.cons_lt_cons_iff.mpr (.inl hlt)

/-- **All orders of a sorted list** come in lexicographic order. -/
theorem pairwise_arrangements (h : xs.Pairwise (· < ·)) : (arrangements xs).Pairwise (· < ·) :=
  pairwise_arrangementsOf xs.length h

end Order

/-- The cities of a round trip between its start and its end. -/
def inner (way : List Nat) : List Nat := way.tail.dropLast

@[simp]
theorem inner_roundTrip (cities : List Nat) : inner (roundTrip cities) = cities := by
  simp [inner, roundTrip]

theorem pairwise_roundTrips (n : Nat) :
    (roundTrips n).Pairwise fun way other => inner way < inner other := by
  apply List.pairwise_map.mpr
  have hsorted : ((List.range n).drop 1).Pairwise (· < ·) :=
    List.pairwise_lt_range.sublist (List.drop_sublist 1 _)
  simpa using pairwise_arrangements hsorted

namespace Cities

open Scalar

variable {α : Type} [Scalar α]

/-- Trips come in the order of their round trips. -/
theorem pairwise_trips (distance? : Nat → Nat → Option α) (n : Nat) :
    ((roundTrips n).filterMap (trip? distance?)).Pairwise fun trip other =>
      inner trip.path < inner other.path := by
  have hpath {way : List Nat} {trip : Trail Nat α} (h : trip? distance? way = some trip) :
      trip.path = way := by
    rw [trip?_eq] at h
    obtain ⟨cost, -, rfl⟩ := Option.map_eq_some_iff.mp h
    rfl
  apply List.pairwise_filterMap.mpr
  apply (pairwise_roundTrips n).imp
  intro way other hlt trip htrip next hnext
  rwa [hpath htrip, hpath hnext]

/-! ## Sums from zero and from negative zero -/

variable {c : Cities α}

/-- The distances of some steps are looked up and added at once. -/
theorem map_foldl_mapM_distance? (steps : List (Nat × Nat)) (sum : α) :
    (steps.mapM fun step => c.distance? step.1 step.2).map (List.foldl (· + ·) sum) =
      steps.foldlM (addStep c.distance?) sum := by
  induction steps generalizing sum with
  | nil => rfl
  | cons step steps ih =>
    cases hd : c.distance? step.1 step.2 with
    | none => simp [addStep, hd]
    | some d =>
      have hrest := ih (sum + d)
      cases hall : steps.mapM fun step => c.distance? step.1 step.2 with
      | none => simpa [addStep, hd, hall] using hrest
      | some distances => simpa [addStep, hd, hall] using hrest

theorem length?_eq_foldlM (way : List Nat) :
    c.length? way = (consecutive way).foldlM (addStep c.distance?) (-ofNat 0) :=
  map_foldl_mapM_distance? (consecutive way) (-ofNat 0)

/-- A distance is the long side over two differences, which are numbers. -/
theorem hypot_of_distance? [Rounded α] {u v : Nat} {d : α} (h : c.distance? u v = some d) :
    ∃ x y : α, d = hypot x y ∧ isNaN x = false ∧ isNaN y = false := by
  unfold distance? at h
  obtain ⟨a, ha, h⟩ := Option.bind_eq_some_iff.mp h
  obtain ⟨b, hb, h⟩ := Option.bind_eq_some_iff.mp h
  obtain rfl := Option.some.inj h
  obtain ⟨hax, hay⟩ := isPlaced_of_getElem? ha
  obtain ⟨hbx, hby⟩ := isPlaced_of_getElem? hb
  exact ⟨a.x - b.x, a.y - b.y, rfl, number_sub hax hbx, number_sub hay hby⟩

variable [Rounded α] [Divisible α] [Unsigned α]

/-- **The length of a way** is the sum of its distances from zero on as well. The one from negative
zero on is another only where there are no steps. -/
theorem length?_eq_total? {u v : Nat} {way : List Nat} :
    c.length? (u :: v :: way) = total? c.distance? (consecutive (u :: v :: way)) := by
  unfold total?
  rw [length?_eq_foldlM, consecutive_cons_cons, List.foldlM_cons, List.foldlM_cons]
  simp only [addStep]
  cases hd : c.distance? u v with
  | none => rfl
  | some d =>
    obtain ⟨x, y, rfl, hx, hy⟩ := hypot_of_distance? hd
    obtain ⟨hzero, hneg⟩ := Unsigned.zero_add_hypot hx hy
    simp [hzero, hneg]

/-- Round trips have steps. -/
theorem length?_of_isRoundTrip {n city : Nat} {way : List Nat} (hway : IsRoundTrip n city way) :
    c.length? way = total? c.distance? (consecutive way) := by
  obtain ⟨inner, rfl, -⟩ := hway
  cases inner with
  | nil => exact length?_eq_total?
  | cons first rest => exact length?_eq_total?

/-- A round trip's length is the cost of its trip. -/
theorem length?_eq_some_iff {way : List Nat} {cost : α} (hway : IsRoundTrip c.size 0 way) :
    c.length? way = some cost ↔ trip? c.distance? way = some ⟨way, cost⟩ := by
  rw [length?_of_isRoundTrip hway, trip?_eq]
  simp

/-- **Trying all round trips is exact.** There is a shortest trip. It is a round trip from city zero
and costs its length; no round trip from there is shorter; and of those that are not longer, it is
the first in the order of their inner cities. -/
theorem shortest_trip_is_exact (hsize : 2 ≤ c.size) :
    ∃ best, c.shortest? = some best ∧ IsRoundTrip c.size 0 best.path ∧
      c.length? best.path = some best.cost ∧
      ∀ way, IsRoundTrip c.size 0 way →
        ∃ length, c.length? way = some length ∧ best.cost ≤ length ∧
          (length ≤ best.cost → way = best.path ∨ inner best.path < inner way) := by
  have hpos : 0 < c.size := by omega
  obtain ⟨best, before, after, hbest, hsplit, hbefore, hafter⟩ := shortest?_split hsize
  have hmem : best ∈ (roundTrips c.size).filterMap (trip? c.distance?) := by simp [hsplit]
  obtain ⟨hbestway, hbesttrip, hnonneg⟩ := of_mem_trips hpos hmem
  have hround := (mem_roundTrips_iff hpos).mp hbestway
  have horder := pairwise_trips c.distance? c.size
  rw [hsplit, List.pairwise_append, List.pairwise_cons] at horder
  refine ⟨best, hbest, hround, (length?_eq_some_iff hround).mpr hbesttrip, ?_⟩
  intro way hway
  have hwaymem := (mem_roundTrips_iff hpos).mpr hway
  obtain ⟨length, htrip, -⟩ := exists_trip_of_mem hpos hwaymem
  refine ⟨length, (length?_eq_some_iff hway).mpr htrip, ?_⟩
  have htripmem := List.mem_filterMap.mpr ⟨way, hwaymem, htrip⟩
  rw [hsplit, List.mem_append, List.mem_cons] at htripmem
  rcases htripmem with hearlier | hsame | hlater
  · have hlonger := hbefore _ hearlier
    exact ⟨Rounded.le_of_lt hlonger, fun hle => absurd hle (Rounded.not_ge_of_lt hlonger)⟩
  · subst hsame
    exact ⟨Rounded.le_refl (Rounded.number_of_le hnonneg).2, fun _ => .inl rfl⟩
  · exact ⟨hafter _ hlater, fun _ => .inr (horder.2.1.1 _ hlater)⟩

/-- Around a square there are two ways of one length, and the first of them is taken. -/
theorem shortest_trip_is_exact_on_square :
    let square : Cities Float :=
      ⟨#[⟨"a", 0, 0⟩, ⟨"b", 1, 1⟩, ⟨"c", 1, 0⟩, ⟨"d", 0, 1⟩], by decide, by decide +kernel⟩
    2 ≤ square.size ∧ square.length? [0, 3, 1, 2, 0] = some 4 ∧
      ∃ best, square.shortest? = some best ∧ best.path = [0, 2, 1, 3, 0] ∧
        square.length? best.path = some best.cost ∧ best.cost ≤ 4 ∧
        inner best.path < inner [0, 3, 1, 2, 0] := by
  intro square
  have hsize : 2 ≤ square.size := by decide
  have hother : square.length? [0, 3, 1, 2, 0] = some 4 := by decide +kernel
  have hvalue : square.shortest? = some ⟨[0, 2, 1, 3, 0], 4⟩ := by decide +kernel
  have hround : IsRoundTrip square.size 0 [0, 3, 1, 2, 0] := by
    apply (mem_roundTrips_iff (by decide)).mp
    decide
  obtain ⟨best, hbest, -, hlength, hleast⟩ := shortest_trip_is_exact hsize
  obtain ⟨length, hway, hle, hfirst⟩ := hleast _ hround
  obtain rfl := Option.some.inj (hother.symm.trans hway)
  obtain rfl := Option.some.inj (hvalue.symm.trans hbest)
  refine ⟨hsize, hother, _, hbest, rfl, hlength, hle, ?_⟩
  exact (hfirst (by decide +kernel)).resolve_left (by decide)

/-- Where all round trips are infinite, the shortest is the first of all. -/
example :
    let far : Cities Float :=
      ⟨#[⟨"a", 1e308, 0⟩, ⟨"b", -1e308, 0⟩, ⟨"c", 0, 0⟩], by decide, by decide +kernel⟩
    far.shortest? = some ⟨[0, 1, 2, 0], infinity⟩ := by decide +kernel

end Cities

end Stigmergy.Tour
