import Stigmergy.Proofs.Scalar.Rounded

/-!
# Where scalars can be divided in proportion

`Divisible` is what a draw in proportion to weights needs of rounded arithmetic: zeros add nothing
and have no share, and a share below one is less than the whole. The last of these asks for a whole
that is not next to nothing, since below `leastNormal` doubles are so far apart that a share may be
rounded up to the whole.
-/

namespace Stigmergy.Scalar

/-- The least double with all its digits, `2 ^ -1022`. -/
def leastNormal {α : Type} [Scalar α] : α := ratio 1 (1 <<< 1022)

/-- The laws that rounding keeps of sums with zeros and of shares. -/
class Divisible (α : Type) [Scalar α] : Prop where
  add_of_isZero {x y : α} : ofNat 0 < x → IsZero y → x + y = x
  add_of_isZero_left {x y : α} : IsZero x → ofNat 0 < y → x + y = y
  isZero_div {x y : α} : IsZero x → ofNat 0 < y → IsZero (x / y)
  one_le_div_self {x : α} : ofNat 0 < x → isFinite x = true → ofNat 1 ≤ x / x
  share_lt {n : Nat} {x : α} : n < 1 <<< 52 → leastNormal ≤ x → isFinite x = true →
    ratio n (1 <<< 52) * x < x

variable {α : Type} [Scalar α] [Rounded α] {x y : α}

/-- Zeros add nothing, whatever the signs of zeros. -/
theorem Divisible.add_le_of_isZero [Divisible α] (hx : ofNat 0 ≤ x) (hy : IsZero y) :
    x + y ≤ x := by
  cases Rounded.isZero_or_pos hx with
  | inl hzero => exact Rounded.le_trans (Rounded.isZero_add hzero hy).1 hx
  | inr hpos =>
    rw [add_of_isZero hpos hy]
    exact Rounded.le_refl (Rounded.number_of_lt hpos).2

theorem leastNormal_le_one : (leastNormal : α) ≤ ofNat 1 := by
  have hcount : 1 ≤ 1 <<< 1022 := by decide +kernel
  exact Rounded.div_le_one (Rounded.le_of_lt Rounded.zero_lt_one) Rounded.isFinite_one
    (Rounded.ofNat_le_ofNat hcount) (Rounded.ofNat_pos hcount)

end Stigmergy.Scalar
