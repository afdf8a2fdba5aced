/-!
# Scalars

The numbers a colony computes with: pheromone, costs, weights and settings.

* `Scalar`: arithmetic, an order, an infinity, powers and the length of a right triangle's long
  side. It asks for no law, so doubles are scalars, and so is any exact field with an order.
* `least`, `greatest`: the smaller and the larger of two scalars; one that is no number is passed
  over.
* `sum`: addition from the left, from negative zero.
-/

namespace Stigmergy

/-- Arithmetic with an order, in which a value may be infinite or no number at all. -/
class Scalar (α : Type) extends Add α, Sub α, Mul α, Div α, Neg α, LE α, LT α where
  /-- The scalar nearest to a count. -/
  ofNat : Nat → α
  /-- A bound above every finite scalar. -/
  infinity : α
  /-- The power of a base to an exponent. -/
  pow : α → α → α
  /-- The long side of the right triangle with the two given sides. -/
  hypot : α → α → α
  /-- Whether a scalar stands for no number. -/
  isNaN : α → Bool
  /-- Whether a scalar is a number and not infinite. -/
  isFinite : α → Bool
  decidableLE : DecidableLE α
  decidableLT : DecidableLT α

attribute [reducible, instance] Scalar.decidableLE Scalar.decidableLT

namespace Scalar

variable {α : Type} [Scalar α]

/-- The quotient of two counts, as the scalar nearest to it when both counts are exact. -/
def ratio (n d : Nat) : α := ofNat n / ofNat d

/-- A number that no finite bound holds, on either side. -/
def isInfinite (x : α) : Bool := !isNaN x && !isFinite x

/-- Neither above nor below zero; both zeros of a signed arithmetic are. -/
abbrev IsZero (x : α) : Prop := x ≤ ofNat 0 ∧ ofNat 0 ≤ x

/-- The smaller of two scalars, the second on a draw, so that of two zeros the second one's sign
counts; one that is no number is passed over. -/
def least (x y : α) : α := if isNaN y then x else if x < y then x else y

/-- The larger of two scalars, by the same rules. -/
def greatest (x y : α) : α := if isNaN y then x else if y < x then x else y

/-- The point of the interval from `lo` to `hi` that is nearest to `x`. What compares with neither
end stays as it is. -/
def clamp (lo hi x : α) : α :=
  let raised := if x < lo then lo else x
  if hi < raised then hi else raised

/-- The sum from the left. It starts at negative zero, which every addition leaves as it is. -/
def sum (xs : List α) : α := xs.foldl (· + ·) (-ofNat 0)

end Scalar

end Stigmergy
