import Stigmergy.Proofs.Scalar.Rounded

/-!
# Where products are numbers

Rounded arithmetic may end at infinity, and from there at what is no number.

* `Ample`: the counts that a word holds are finite, and products of finite scalars are numbers.
* `Absorbing`: an infinity times zero is no number, and what is no number stays none.

Doubles are both.
-/

namespace Stigmergy.Scalar

/-- The laws of scalars whose finite ones reach beyond the counts of a word. -/
class Ample (α : Type) [Scalar α] : Prop where
  isFinite_ofNat {n : Nat} : n < 1 <<< 64 → isFinite (ofNat n : α) = true
  isFinite_one_add {n : Nat} : n < 1 <<< 64 → isFinite (ofNat 1 + ofNat n : α) = true
  number_mul {x y : α} : isFinite x = true → isFinite y = true → isNaN (x * y) = false

/-- The laws of scalars that do not come back from what is no number. -/
class Absorbing (α : Type) [Scalar α] : Prop where
  isNaN_add {x y : α} : isNaN x = true → isNaN (x + y) = true
  isNaN_mul {x y : α} : isNaN x = true → isNaN (x * y) = true
  isNaN_mul_zero {x y : α} : isFinite x = false → IsZero y → isNaN (x * y) = true

/-- A clamp moves only what compares with one of its ends. -/
theorem isNaN_clamp {α : Type} [Scalar α] [Rounded α] {lo hi x : α} (h : isNaN x = true) :
    isNaN (clamp lo hi x) = true := by
  have hlo : ¬x < lo := by
    intro hlt
    simp [(Rounded.number_of_lt hlt).1] at h
  have hhi : ¬hi < x := by
    intro hlt
    simp [(Rounded.number_of_lt hlt).2] at h
  simpa [clamp, hlo, hhi] using h

/-- What is clamped into an interval above zero is not below zero, if it was not before. -/
theorem Rounded.clamp_nonneg {α : Type} [Scalar α] [Rounded α] {lo hi x : α} (h : lo ≤ hi)
    (hhi : ofNat 0 ≤ hi) (hx : ofNat 0 ≤ x) : ofNat 0 ≤ clamp lo hi x := by
  have hnumber := (number_of_le hx).2
  have hclamped := (clamp_mem h hnumber).2
  have hnotNegative : NotNegative (clamp lo hi x) :=
    notNegative_clamp (notNegative_of_nonneg hhi) (notNegative_of_nonneg hx)
  exact nonneg_of_notNegative hnotNegative (number_of_le hclamped).1

end Stigmergy.Scalar
