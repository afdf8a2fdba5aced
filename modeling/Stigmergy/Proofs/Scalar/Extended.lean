import Stigmergy.Proofs.Scalar.Rounded

/-!
# Products and reciprocals up to infinity

`Extended` is what products and reciprocals keep of order where a scalar may be infinite: the larger
factors have the larger product wherever both products are numbers, a product is no number only
where a factor is zero, and the larger scalar has the smaller reciprocal.
-/

namespace Stigmergy.Scalar

/-- The laws of products and reciprocals of scalars that may be infinite. -/
class Extended (α : Type) [Scalar α] : Prop where
  mul_le_mul {x x' y y' : α} : ofNat 0 ≤ x → x ≤ x' → ofNat 0 ≤ y → y ≤ y' →
    isNaN (x * y) = false → isNaN (x' * y') = false → x * y ≤ x' * y'
  isZero_of_isNaN_mul {x y : α} : ofNat 0 ≤ x → ofNat 0 ≤ y → isNaN (x * y) = true →
    IsZero x ∨ IsZero y
  isZero_mul {x y : α} : ofNat 0 ≤ x → ofNat 0 ≤ y → IsZero x ∨ IsZero y →
    isNaN (x * y) = false → IsZero (x * y)
  inverse_le_inverse {x y : α} : ofNat 0 < x → x ≤ y → ofNat 1 / y ≤ ofNat 1 / x

namespace Rounded

variable {α : Type} [Scalar α] [Rounded α] {x y : α}

theorem isZero_of_le (hx : ofNat 0 ≤ x) (hxy : x ≤ y) (hy : IsZero y) : IsZero x :=
  ⟨le_trans hxy hy.1, hx⟩

end Rounded

end Stigmergy.Scalar
