import Stigmergy.Proofs.Scalar.Rounded

/-!
# Products and quotients that keep order

* `Proportional`: the larger scalar has the larger product and the larger quotient with the same
  one, and the larger divisor makes the smaller quotient, wherever these are numbers.
* `least_le_left`: the smaller of two numbers is at most the first.
* `least_le_least`: the smaller of two scalars grows with them, if the first one grows where it
  counts.
-/

namespace Stigmergy.Scalar

class Proportional (α : Type) [Scalar α] : Prop where
  mul_le_mul_right {x y z : α} : ofNat 0 ≤ x → x ≤ y → ofNat 0 ≤ z → isFinite z = true →
    isNaN (y * z) = false → x * z ≤ y * z
  div_le_div_right {x y z : α} : ofNat 0 ≤ x → x ≤ y → ofNat 0 < z → isNaN (y / z) = false →
    x / z ≤ y / z
  div_le_div_left {x y z : α} : ofNat 0 ≤ x → ofNat 0 < y → y ≤ z → isFinite z = true →
    x / z ≤ x / y
  isFinite_div_zero {x y : α} : IsZero y → isFinite (x / y) = false
  isNaN_div {x y : α} : isNaN x = true → isNaN (x / y) = true

variable {α : Type} [Scalar α] [Rounded α] {x x' y y' : α}

theorem Rounded.least_le_left (hx : isNaN x = false) (hy : isNaN y = false) : least x y ≤ x := by
  unfold least
  rw [if_neg (by simp [hy])]
  split
  · exact le_refl hx
  · next hge => exact le_of_not_gt hy hx hge

/-- What the first scalar is does not count unless it is below the second. -/
theorem Rounded.least_le_least (hy : y ≤ y') (h : x' < y' → least x y ≤ x') :
    least x y ≤ least x' y' := by
  obtain ⟨hnumber, hnumber'⟩ := number_of_le hy
  have hdraw : least x y ≤ y' := le_trans (least_le hnumber) hy
  have hcases : least x' y' = if x' < y' then x' else y' := if_neg (by simp [hnumber'])
  rw [hcases]
  split
  · next hlt => exact h hlt
  · exact hdraw

end Stigmergy.Scalar
