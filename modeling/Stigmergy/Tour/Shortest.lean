import Stigmergy.Tour.Cities

/-!
# The shortest round trip

* `arrangements`: all orders of a list, in lexicographic order of places.
* `roundTrips`: the round trips from city zero.
* `Cities.shortestTrip`: the first of the shortest among them. It tries one trip at a time;
  `Cities.shortestTrip_eq` says that this is a fold over all of them.
* `Cities.shortest?`: the same for cities with their distances.
-/

namespace Stigmergy.Tour

/-- Every entry of a list with the others, which keep their order. -/
def picks {β : Type} : List β → List (β × List β)
  | [] => []
  | x :: xs => (x, xs) :: (picks xs).map fun (y, rest) => (y, x :: rest)

/-- The ways to take `n` entries of a list one after the other. -/
def arrangementsOf {β : Type} : (n : Nat) → List β → List (List β)
  | 0, _ => [[]]
  | n + 1, xs => (picks xs).flatMap fun (x, rest) => (arrangementsOf n rest).map (x :: ·)

def arrangements {β : Type} (xs : List β) : List (List β) := arrangementsOf xs.length xs

/-- A fold over the ways to take `n` entries of a list, each behind those taken before, the latest
first. It makes the ways one at a time. -/
def foldArrangements {β σ : Type} (f : σ → List β → σ) :
    (n : Nat) → (taken xs : List β) → σ → σ
  | 0, taken, _, s => f s taken.reverse
  | n + 1, taken, xs, s =>
    (picks xs).foldl (fun s (x, rest) => foldArrangements f n (x :: taken) rest s) s

theorem foldArrangements_eq {β σ : Type} (f : σ → List β → σ) (n : Nat) (taken xs : List β)
    (s : σ) :
    foldArrangements f n taken xs s =
      (arrangementsOf n xs).foldl (fun s way => f s (taken.reverse ++ way)) s := by
  induction n generalizing taken xs s with
  | zero => simp [foldArrangements, arrangementsOf]
  | succ n ih =>
    simp only [foldArrangements, arrangementsOf, List.foldl_flatMap, List.foldl_map]
    congr 1
    funext s pick
    simp [ih]

def roundTrip (inner : List Nat) : List Nat := 0 :: inner ++ [0]

/-- The round trips from city zero through `n` cities. -/
def roundTrips (n : Nat) : List (List Nat) := (arrangements ((List.range n).drop 1)).map roundTrip

namespace Cities

variable {α : Type} [Scalar α]
open Scalar

/-- A way with the sum of its distances, which are added from zero on. -/
def trip? (distance? : Nat → Nat → Option α) (way : List Nat) : Option (Trail Nat α) :=
  ((consecutive way).foldlM (fun cost (u, v) => (distance? u v).map (cost + ·)) (ofNat 0)).map
    fun cost => ⟨way, cost⟩

/-- The shorter of two trips, the first one on a draw. -/
def shorter (best : Option (Trail Nat α)) (trip : Trail Nat α) : Option (Trail Nat α) :=
  match best with
  | some b => if trip.cost < b.cost then some trip else some b
  | none => some trip

/-- The better of the best trip so far and the round trip through `inner`. -/
def tryTrip (distance? : Nat → Nat → Option α) (best : Option (Trail Nat α)) (inner : List Nat) :
    Option (Trail Nat α) :=
  match trip? distance? (roundTrip inner) with
  | some trip => shorter best trip
  | none => best

/-- The shortest of the round trips through `n` cities, the first of several. -/
def shortestTrip (distance? : Nat → Nat → Option α) (n : Nat) : Option (Trail Nat α) :=
  foldArrangements (tryTrip distance?) ((List.range n).drop 1).length [] ((List.range n).drop 1)
    none

theorem shortestTrip_eq (distance? : Nat → Nat → Option α) (n : Nat) :
    shortestTrip distance? n = ((roundTrips n).filterMap (trip? distance?)).foldl shorter none := by
  simp only [shortestTrip, foldArrangements_eq, roundTrips, arrangements, List.filterMap_map,
    List.foldl_filterMap, List.reverse_nil, List.nil_append]
  congr 1
  funext best inner
  simp only [tryTrip, Function.comp_apply]
  cases trip? distance? (roundTrip inner) <;> rfl

/-- The shortest round trip from city zero, the first of several. One city alone is its own round
trip, for nothing; no cities have none. -/
def shortest? (c : Cities α) : Option (Trail Nat α) :=
  match c.size with
  | 0 => none
  | 1 => some ⟨[0, 0], ofNat 0⟩
  | n =>
    let table := c.table
    shortestTrip (cell? table) n

end Cities

end Stigmergy.Tour
