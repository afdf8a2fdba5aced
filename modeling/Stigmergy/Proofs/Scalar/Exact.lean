import Mathlib.Analysis.SpecialFunctions.Pow.Real
import Stigmergy.Scalar

/-!
# Exact arithmetic

The laws of rounded arithmetic say nothing of sums and quotients that are equal on paper. What is
true on paper is told of fields with an order: nothing is rounded there, nothing is infinite, and
everything is a number.

* `Exact`: such a field, with powers and long sides of choice.
* `least_eq`, `clamp_eq`: the smaller of two scalars is their minimum, and a clamp takes one maximum
  and one minimum.
* `root_lt_one`: a root of what is below one is below one.

The real numbers are exact. Modules about exact scalars import this one first, so that the
operations of scalars are found before those of fields.
-/

namespace Stigmergy

open Scalar

/-- A field with an order. No element is above all others, so any of them may stand for infinity. -/
class Exact (K : Type) extends Field K, LinearOrder K, IsStrictOrderedRing K where
  infinity : K
  pow : K → K → K
  hypot : K → K → K

namespace Exact

variable {K : Type} [Exact K]

instance scalar : Scalar K where
  ofNat n := n
  infinity := infinity
  pow := pow
  hypot := hypot
  isNaN _ := false
  isFinite _ := true
  decidableLE := inferInstance
  decidableLT := inferInstance

noncomputable instance : Exact ℝ where
  infinity := 0
  pow x y := x ^ y
  hypot x y := √(x ^ 2 + y ^ 2)

@[simp]
theorem ofNat_eq (n : Nat) : (Scalar.ofNat n : K) = n := rfl

@[simp]
theorem least_eq (x y : K) : least x y = min x y := (min_def_lt x y).symm

theorem clamp_eq (lo hi x : K) : clamp lo hi x = min hi (max x lo) := by
  have hraised : (if x < lo then lo else x) = max x lo := (max_def_lt x lo).symm
  unfold clamp
  rw [hraised, min_def_lt]

theorem root_lt_one {root x : K} {n : Nat} (hpower : root ^ n = x) (hx : x < 1) : root < 1 := by
  by_contra hge
  have hone : 1 ≤ root ^ n := one_le_pow₀ (not_lt.mp hge)
  exact absurd hx (not_lt.mpr (hpower ▸ hone))

end Exact

end Stigmergy
