import Stigmergy.Proofs.Scalar.Rounded
import Stigmergy.Tour.Cities

/-!
# Distances

* `between_nonneg`, `between_nonpos_iff`: a distance is a number and not negative, and it is zero
  between cities at one place alone, infinite as it may be otherwise.
* `Cities.Together`: two numbers stand for cities at one place.
* `Cities.Coincide`: all cities are at one place.
* `Cities.distance?_spec`: what is told of the distance between two numbers.
* `Mirrored`, `Cities.distance?_comm`: distances are the same in both directions, if the long side
  does not change with the direction that its sides are measured in.
-/

namespace Stigmergy.Tour

open Scalar

variable {α : Type} [Scalar α]

/-- Neither coordinate of one city is above or below that of the other. -/
def City.SamePlace (a b : City α) : Prop := (a.x ≤ b.x ∧ b.x ≤ a.x) ∧ (a.y ≤ b.y ∧ b.y ≤ a.y)

instance (a b : City α) : Decidable (a.SamePlace b) := inferInstanceAs (Decidable (_ ∧ _))

namespace Cities

def Coincide (c : Cities α) : Prop := ∀ a ∈ c.all, ∀ b ∈ c.all, a.SamePlace b

instance (c : Cities α) : Decidable c.Coincide :=
  inferInstanceAs (Decidable (∀ a ∈ c.all, ∀ b ∈ c.all, a.SamePlace b))

/-- Two numbers stand for cities at one place. -/
def Together (c : Cities α) (u v : Nat) : Prop :=
  ∃ a b, c.all[u]? = some a ∧ c.all[v]? = some b ∧ a.SamePlace b

variable {c : Cities α}

theorem isPlaced_of_getElem? {u : Nat} {a : City α} (h : c.all[u]? = some a) :
    isFinite a.x = true ∧ isFinite a.y = true := by
  have hmem : a ∈ c.all.toList := Array.mem_toList_iff.mpr (Array.mem_of_getElem? h)
  simpa [City.isPlaced] using c.placed a hmem

theorem exists_city {u : Nat} (hu : u < c.size) : ∃ a, c.all[u]? = some a :=
  ⟨_, Array.getElem?_eq_getElem hu⟩

theorem Together.symm {u v : Nat} (h : c.Together u v) : c.Together v u := by
  obtain ⟨a, b, ha, hb, hx, hy⟩ := h
  exact ⟨b, a, hb, ha, ⟨hx.2, hx.1⟩, ⟨hy.2, hy.1⟩⟩

variable [Rounded α]

theorem Together.refl {u : Nat} (hu : u < c.size) : c.Together u u := by
  obtain ⟨a, ha⟩ := exists_city hu
  obtain ⟨hx, hy⟩ := isPlaced_of_getElem? ha
  have hx := Rounded.le_refl (Rounded.number_of_isFinite hx)
  have hy := Rounded.le_refl (Rounded.number_of_isFinite hy)
  exact ⟨a, a, ha, ha, ⟨hx, hx⟩, ⟨hy, hy⟩⟩

theorem Together.trans {u v w : Nat} (huv : c.Together u v) (hvw : c.Together v w) :
    c.Together u w := by
  obtain ⟨a, b, ha, hb, hx, hy⟩ := huv
  obtain ⟨b', d, hb', hd, hx', hy'⟩ := hvw
  obtain rfl : b = b' := Option.some.inj (hb.symm.trans hb')
  exact ⟨a, d, ha, hd, ⟨Rounded.le_trans hx.1 hx'.1, Rounded.le_trans hx'.2 hx.2⟩,
    ⟨Rounded.le_trans hy.1 hy'.1, Rounded.le_trans hy'.2 hy.2⟩⟩

omit [Rounded α] in
theorem coincide_iff : c.Coincide ↔ ∀ u v, u < c.size → v < c.size → c.Together u v := by
  constructor
  · intro h u v hu hv
    obtain ⟨a, ha⟩ := exists_city hu
    obtain ⟨b, hb⟩ := exists_city hv
    exact ⟨a, b, ha, hb, h a (Array.mem_of_getElem? ha) b (Array.mem_of_getElem? hb)⟩
  · intro h a ha b hb
    obtain ⟨u, hu, rfl⟩ := Array.mem_iff_getElem.mp ha
    obtain ⟨v, hv, rfl⟩ := Array.mem_iff_getElem.mp hb
    obtain ⟨a, b, ha, hb, hsame⟩ := h u v hu hv
    rw [Array.getElem?_eq_getElem hu] at ha
    rw [Array.getElem?_eq_getElem hv] at hb
    cases ha
    cases hb
    exact hsame

/-! ## Differences and distances -/

theorem number_sub {x y : α} (hx : isFinite x = true) (hy : isFinite y = true) :
    isNaN (x - y) = false := by
  rcases Rounded.le_total (Rounded.number_of_isFinite hx) (Rounded.number_of_isFinite hy) with
    hle | hge
  · exact (Rounded.number_of_le (Rounded.sub_nonpos hx hle)).1
  · exact (Rounded.number_of_le (Rounded.sub_nonneg hy hge)).2

/-- A difference is zero for equal numbers alone; small ones are not rounded to zero. -/
theorem isZero_sub_iff {x y : α} (hx : isFinite x = true) (hy : isFinite y = true) :
    IsZero (x - y) ↔ x ≤ y ∧ y ≤ x := by
  constructor
  · rintro ⟨hle, hge⟩
    constructor
    · refine Rounded.le_of_not_gt (Rounded.number_of_isFinite hx) (Rounded.number_of_isFinite hy) ?_
      intro hlt
      exact Rounded.not_ge_of_lt (Rounded.sub_pos hy hlt) hle
    · refine Rounded.le_of_not_gt (Rounded.number_of_isFinite hy) (Rounded.number_of_isFinite hx) ?_
      intro hlt
      exact Rounded.not_ge_of_lt (Rounded.sub_neg hx hlt) hge
  · rintro ⟨hle, hge⟩
    exact ⟨Rounded.sub_nonpos hx hle, Rounded.sub_nonneg hy hge⟩

theorem between_nonneg {u v : Nat} {a b : City α} (ha : c.all[u]? = some a)
    (hb : c.all[v]? = some b) : ofNat 0 ≤ between a b := by
  obtain ⟨hax, hay⟩ := isPlaced_of_getElem? ha
  obtain ⟨hbx, hby⟩ := isPlaced_of_getElem? hb
  exact Rounded.hypot_nonneg (number_sub hax hbx) (number_sub hay hby)

theorem between_nonpos_iff {u v : Nat} {a b : City α} (ha : c.all[u]? = some a)
    (hb : c.all[v]? = some b) : between a b ≤ ofNat 0 ↔ a.SamePlace b := by
  obtain ⟨hax, hay⟩ := isPlaced_of_getElem? ha
  obtain ⟨hbx, hby⟩ := isPlaced_of_getElem? hb
  unfold between City.SamePlace
  rw [Rounded.hypot_nonpos_iff (number_sub hax hbx) (number_sub hay hby), isZero_sub_iff hax hbx,
    isZero_sub_iff hay hby]

/-- There is a distance between any two cities, and it tells whether they are at one place. -/
theorem distance?_spec {u v : Nat} (hu : u < c.size) (hv : v < c.size) :
    ∃ d, c.distance? u v = some d ∧ ofNat 0 ≤ d ∧ (d ≤ ofNat 0 ↔ c.Together u v) := by
  obtain ⟨a, ha⟩ := exists_city hu
  obtain ⟨b, hb⟩ := exists_city hv
  refine ⟨between a b, ?_, between_nonneg ha hb, ?_⟩
  · unfold distance?
    rw [ha, hb]
    rfl
  · rw [between_nonpos_iff ha hb]
    constructor
    · intro hsame
      exact ⟨a, b, ha, hb, hsame⟩
    · rintro ⟨a', b', ha', hb', hsame⟩
      rw [ha] at ha'
      rw [hb] at hb'
      cases ha'
      cases hb'
      exact hsame

end Cities

/-- The law of long sides that do not depend on the end from which their sides are measured. -/
class Mirrored (α : Type) [Scalar α] : Prop where
  hypot_sub_comm {x x' y y' : α} : isFinite x = true → isFinite x' = true → isFinite y = true →
    isFinite y' = true → hypot (x - x') (y - y') = hypot (x' - x) (y' - y)

/-- **Distances are the same in both directions.** -/
theorem Cities.distance?_comm [Mirrored α] (c : Cities α) (u v : Nat) :
    c.distance? u v = c.distance? v u := by
  unfold distance?
  cases ha : c.all[u]? with
  | none => cases c.all[v]? <;> rfl
  | some a =>
    cases hb : c.all[v]? with
    | none => rfl
    | some b =>
      obtain ⟨hax, hay⟩ := isPlaced_of_getElem? ha
      obtain ⟨hbx, hby⟩ := isPlaced_of_getElem? hb
      exact congrArg some (Mirrored.hypot_sub_comm hax hbx hay hby)

end Stigmergy.Tour
