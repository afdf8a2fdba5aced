import Stigmergy.Trail

/-!
# Cities in the plane

* `Cities`: at most 64 cities with finite coordinates.
* `Cities.ofList?`, `ofPoints?`: the only ways to get them; both say what is wrong otherwise.
* `Cities.distance?`: the straight distance between two cities by their numbers.
* `Cities.length?`: the length of a way through cities.
* `Cities.table`: all distances, for those who ask for many of them.
-/

namespace Stigmergy.Tour

open Scalar

structure City (α : Type) where
  name : String
  x : α
  y : α
  deriving DecidableEq, Repr

/-- The largest number of cities, one for every bit of a word. -/
def maxCities : Nat := 64

def City.isPlaced {α : Type} [Scalar α] (c : City α) : Bool := isFinite c.x && isFinite c.y

/-- Cities that tours can lead through, numbered from zero. -/
structure Cities (α : Type) [Scalar α] where
  all : Array (City α)
  few : all.size ≤ maxCities
  placed : ∀ c ∈ all.toList, c.isPlaced

inductive Refusal (α : Type) where
  | tooMany (cities : Nat)
  | unplaced (city : City α)
  deriving DecidableEq, Repr

def Refusal.message {α : Type} (number : α → String) : Refusal α → String
  | .tooMany cities =>
    "invalid instance: " ++ Nat.repr cities ++ " cities exceed the maximum of "
      ++ Nat.repr maxCities
  | .unplaced city =>
    "invalid instance: city " ++ city.name ++ " has non-finite coordinates (" ++ number city.x
      ++ ", " ++ number city.y ++ ")"

namespace Cities

variable {α : Type} [Scalar α]

/-- The cities of a list. The number of them is checked first, then the place of each. -/
def ofList? (cities : List (City α)) : Except (Refusal α) (Cities α) :=
  if few : cities.length ≤ maxCities then
    match h : cities.find? fun c => !c.isPlaced with
    | some city => .error (.unplaced city)
    | none => .ok ⟨cities.toArray, few, by simpa [List.find?_eq_none] using h⟩
  else .error (.tooMany cities.length)

/-- Cities are taken if they are few and each of them has a place. -/
theorem ofList?_ok_iff {cities : List (City α)} :
    (∃ c, ofList? cities = .ok c) ↔
      cities.length ≤ maxCities ∧ ∀ city ∈ cities, city.isPlaced = true := by
  unfold ofList?
  split
  · next few =>
    split
    · next city hfound =>
      have hbad := List.find?_some hfound
      have hmem := List.mem_of_find?_eq_some hfound
      apply iff_of_false
      · intro ⟨c, hc⟩
        cases hc
      · intro ⟨_, hall⟩
        simp [hall city hmem] at hbad
    · next hnone =>
      apply iff_of_true
      · exact ⟨_, rfl⟩
      · exact ⟨few, by simpa using hnone⟩
  · next many => simp [many]

/-- The cities at the given points, named by their numbers from one. -/
def ofPoints? (points : List (α × α)) : Except (Refusal α) (Cities α) :=
  ofList? (points.zipIdx.map fun ((x, y), i) => ⟨Nat.repr (i + 1), x, y⟩)

def size (c : Cities α) : Nat := c.all.size

/-- The straight way from one city to another. -/
def between (a b : City α) : α := hypot (a.x - b.x) (a.y - b.y)

/-- The distance between two cities, if there are cities of these numbers. -/
def distance? (c : Cities α) (u v : Nat) : Option α := do
  let a ← c.all[u]?
  let b ← c.all[v]?
  return between a b

/-- The length of a way: the sum of the distances between consecutive cities. -/
def length? (c : Cities α) (way : List Nat) : Option α :=
  ((consecutive way).mapM fun (u, v) => c.distance? u v).map sum

def table (c : Cities α) : Array (Array α) := c.all.map fun a => c.all.map (between a)

def cell? (table : Array (Array α)) (u v : Nat) : Option α := table[u]?.bind (·[v]?)

theorem cell?_table (c : Cities α) : cell? c.table = c.distance? := by
  funext u v
  simp only [cell?, table, distance?, Array.getElem?_map]
  cases c.all[u]? <;> cases h : c.all[v]? <;> simp [h]

end Cities

end Stigmergy.Tour
