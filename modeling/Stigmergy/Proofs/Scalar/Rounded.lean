import Stigmergy.Scalar

/-!
# The laws of rounded arithmetic

`Rounded` is what arithmetic with rounding, infinities and values that are no number keeps of exact
arithmetic, for scalars that are not negative. Doubles have these laws.

* The order is total on numbers, and nothing compares with what is no number.
* Sums, products and quotients of scalars that are not negative are not negative, and are numbers
  unless an infinity meets another or a zero.
* A difference has the sign that the order gives it.

A scalar that is not negative may be no number: `NotNegative` is what weights and pheromone keep
even where their arithmetic goes wrong.
-/

namespace Stigmergy.Scalar

/-- Not below zero; a scalar that is no number is not. -/
abbrev NotNegative {α : Type} [Scalar α] (x : α) : Prop := ¬x < ofNat 0

/-- The laws that rounding keeps. -/
class Rounded (α : Type) [Scalar α] : Prop where
  number_of_le {x y : α} : x ≤ y → isNaN x = false ∧ isNaN y = false
  le_total {x y : α} : isNaN x = false → isNaN y = false → x ≤ y ∨ y ≤ x
  le_trans {x y z : α} : x ≤ y → y ≤ z → x ≤ z
  lt_iff_le_not_ge {x y : α} : x < y ↔ x ≤ y ∧ ¬y ≤ x
  /-- Two scalars that neither exceeds the other are the same one, but for the signs of zero. -/
  eq_of_le_of_ge {x y : α} : ofNat 0 < x → x ≤ y → y ≤ x → x = y
  number_of_isFinite {x : α} : isFinite x = true → isNaN x = false
  le_infinity {x : α} : isNaN x = false → x ≤ infinity
  isFinite_iff_lt {x : α} : ofNat 0 ≤ x → (isFinite x = true ↔ x < infinity)
  ofNat_le_ofNat {m n : Nat} : m ≤ n → (ofNat m : α) ≤ ofNat n
  zero_lt_one : (ofNat 0 : α) < ofNat 1
  isFinite_ofNat {n : Nat} : n ≤ 1 <<< 53 → isFinite (ofNat n : α) = true
  isZero_neg_zero : IsZero (-ofNat 0 : α)
  le_add_right {x y : α} : ofNat 0 ≤ x → ofNat 0 ≤ y → x ≤ x + y
  le_add_left {x y : α} : ofNat 0 ≤ x → ofNat 0 ≤ y → y ≤ x + y
  isZero_add {x y : α} : IsZero x → IsZero y → IsZero (x + y)
  notNegative_add {x y : α} : NotNegative x → NotNegative y → NotNegative (x + y)
  isFinite_add {x y : α} : ofNat 0 ≤ x → isFinite x = true → ofNat 0 ≤ y → y ≤ ofNat 1 →
    isFinite (x + y) = true
  sub_pos {x y : α} : isFinite y = true → y < x → ofNat 0 < x - y
  sub_nonneg {x y : α} : isFinite y = true → y ≤ x → ofNat 0 ≤ x - y
  sub_le_self {x y : α} : isFinite x = true → ofNat 0 ≤ y → isFinite y = true → x - y ≤ x
  sub_neg {x y : α} : isFinite x = true → x < y → x - y < ofNat 0
  sub_nonpos {x y : α} : isFinite x = true → x ≤ y → x - y ≤ ofNat 0
  notNegative_mul {x y : α} : NotNegative x → NotNegative y → NotNegative (x * y)
  number_mul {x y : α} : isNaN x = false → ofNat 0 < y → isFinite y = true → isNaN (x * y) = false
  number_mul_left {x y : α} : ofNat 0 < x → isFinite x = true → isNaN y = false →
    isNaN (x * y) = false
  notNegative_div {x y : α} : NotNegative x → ofNat 0 < y → NotNegative (x / y)
  /-- A product of scalars above zero may be rounded to zero, but not to the negative one. -/
  notNegative_div_mul {x y z : α} : NotNegative x → ofNat 0 < y → ofNat 0 < z →
    NotNegative (x / (y * z))
  number_div {x y : α} : isNaN x = false → ofNat 0 < y → isFinite x = true ∨ isFinite y = true →
    isNaN (x / y) = false
  div_le_one {x y : α} : ofNat 0 ≤ x → isFinite x = true → x ≤ y → ofNat 0 < y →
    x / y ≤ ofNat 1
  hypot_nonneg {x y : α} : isNaN x = false → isNaN y = false → ofNat 0 ≤ hypot x y
  hypot_nonpos_iff {x y : α} : isNaN x = false → isNaN y = false →
    (hypot x y ≤ ofNat 0 ↔ IsZero x ∧ IsZero y)

namespace Rounded

variable {α : Type} [Scalar α] [Rounded α] {x y z lo hi : α}

/-! ## Order -/

theorem le_refl (h : isNaN x = false) : x ≤ x := (le_total h h).elim id id

theorem le_of_lt (h : x < y) : x ≤ y := (lt_iff_le_not_ge.1 h).1

theorem not_ge_of_lt (h : x < y) : ¬y ≤ x := (lt_iff_le_not_ge.1 h).2

theorem number_of_lt (h : x < y) : isNaN x = false ∧ isNaN y = false := number_of_le (le_of_lt h)

theorem lt_of_not_ge (hx : isNaN x = false) (hy : isNaN y = false) (h : ¬y ≤ x) : x < y :=
  lt_iff_le_not_ge.2 ⟨(le_total hx hy).resolve_right h, h⟩

theorem le_of_not_gt (hx : isNaN x = false) (hy : isNaN y = false) (h : ¬y < x) : x ≤ y := by
  rcases le_total hx hy with hle | hge
  · exact hle
  · by_cases hle : x ≤ y
    · exact hle
    · exact absurd (lt_iff_le_not_ge.2 ⟨hge, hle⟩) h

theorem lt_of_lt_of_le (hxy : x < y) (hyz : y ≤ z) : x < z :=
  lt_iff_le_not_ge.2 ⟨le_trans (le_of_lt hxy) hyz,
    fun hzx => not_ge_of_lt hxy (le_trans hyz hzx)⟩

theorem lt_of_le_of_lt (hxy : x ≤ y) (hyz : y < z) : x < z :=
  lt_iff_le_not_ge.2 ⟨le_trans hxy (le_of_lt hyz),
    fun hzx => not_ge_of_lt hyz (le_trans hzx hxy)⟩

theorem lt_irrefl (x : α) : ¬x < x := fun h => not_ge_of_lt h (le_of_lt h)

theorem not_lt_of_ge (h : y ≤ x) : ¬x < y := fun hlt => not_ge_of_lt hlt h

instance : @Trans α α α (· ≤ ·) (· ≤ ·) (· ≤ ·) := ⟨le_trans⟩

instance : @Trans α α α (· < ·) (· ≤ ·) (· < ·) := ⟨lt_of_lt_of_le⟩

instance : @Trans α α α (· ≤ ·) (· < ·) (· < ·) := ⟨lt_of_le_of_lt⟩

/-! ## Scalars that are not negative -/

theorem number_zero : isNaN (ofNat 0 : α) = false := (number_of_lt zero_lt_one).1

theorem number_one : isNaN (ofNat 1 : α) = false := (number_of_lt zero_lt_one).2

theorem notNegative_of_nonneg (h : ofNat 0 ≤ x) : NotNegative x := not_lt_of_ge h

theorem notNegative_of_pos (h : ofNat 0 < x) : NotNegative x := not_lt_of_ge (le_of_lt h)

theorem nonneg_of_notNegative (h : NotNegative x) (hx : isNaN x = false) : ofNat 0 ≤ x :=
  le_of_not_gt number_zero hx h

/-- What is not below zero is zero or above it. -/
theorem isZero_or_pos (h : ofNat 0 ≤ x) : IsZero x ∨ ofNat 0 < x := by
  by_cases hle : x ≤ ofNat 0
  · exact .inl ⟨hle, h⟩
  · exact .inr (lt_of_not_ge number_zero (number_of_le h).2 hle)

theorem isFinite_of_le (hx : ofNat 0 ≤ x) (h : x ≤ y) (hy : isFinite y = true) :
    isFinite x = true :=
  (isFinite_iff_lt hx).2 (lt_of_le_of_lt h ((isFinite_iff_lt (le_trans hx h)).1 hy))

theorem isFinite_of_lt (hx : ofNat 0 ≤ x) (h : x < y) : isFinite x = true :=
  (isFinite_iff_lt hx).2 (lt_of_lt_of_le h (le_infinity (number_of_lt h).2))

theorem ofNat_pos {n : Nat} (hn : 0 < n) : (ofNat 0 : α) < ofNat n :=
  lt_of_lt_of_le zero_lt_one (ofNat_le_ofNat hn)

theorem mul_nonneg (hx : ofNat 0 ≤ x) (hy : ofNat 0 < y) (hyf : isFinite y = true) :
    ofNat 0 ≤ x * y :=
  nonneg_of_notNegative
    (notNegative_mul (notNegative_of_nonneg hx) (notNegative_of_pos hy))
    (number_mul (number_of_le hx).2 hy hyf)

theorem mul_nonneg_left (hx : ofNat 0 < x) (hxf : isFinite x = true) (hy : ofNat 0 ≤ y) :
    ofNat 0 ≤ x * y :=
  nonneg_of_notNegative
    (notNegative_mul (notNegative_of_pos hx) (notNegative_of_nonneg hy))
    (number_mul_left hx hxf (number_of_le hy).2)

theorem div_nonneg (hx : ofNat 0 ≤ x) (hy : ofNat 0 < y)
    (h : isFinite x = true ∨ isFinite y = true) : ofNat 0 ≤ x / y :=
  nonneg_of_notNegative (notNegative_div (notNegative_of_nonneg hx) hy)
    (number_div (number_of_le hx).2 hy h)

theorem isFinite_one : isFinite (ofNat 1 : α) = true := isFinite_ofNat (by decide)

theorem infinity_pos : ofNat 0 < (infinity : α) :=
  lt_of_lt_of_le zero_lt_one (le_infinity number_one)

/-- What is above zero and not below infinity is infinity. -/
theorem eq_infinity (hpos : ofNat 0 < x) (h : ¬x < infinity) : x = infinity := by
  have hnumber := (number_of_lt hpos).2
  have hle := le_infinity hnumber
  exact eq_of_le_of_ge hpos hle (le_of_not_gt (number_of_le hle).2 hnumber h)

theorem add_nonneg (hx : ofNat 0 ≤ x) (hy : ofNat 0 ≤ y) : ofNat 0 ≤ x + y :=
  le_trans hx (le_add_right hx hy)

/-! ## Clamping -/

/-- A number is clamped into the interval, both ends included. -/
theorem clamp_mem (h : lo ≤ hi) (hx : isNaN x = false) :
    lo ≤ clamp lo hi x ∧ clamp lo hi x ≤ hi := by
  obtain ⟨hlo, hhi⟩ := number_of_le h
  unfold clamp
  dsimp only
  split
  · rw [if_neg (not_lt_of_ge h)]
    exact ⟨le_refl hlo, h⟩
  · next hraised =>
    split
    · exact ⟨h, le_refl hhi⟩
    · next hlowered => exact ⟨le_of_not_gt hlo hx hraised, le_of_not_gt hx hhi hlowered⟩

theorem notNegative_clamp (hhi : NotNegative hi) (hx : NotNegative x) :
    NotNegative (clamp lo hi x) := by
  unfold clamp
  dsimp only
  split
  · next hlt =>
    have hlo : NotNegative lo := fun hneg => by
      have := nonneg_of_notNegative hx (number_of_lt hlt).1
      exact not_ge_of_lt hneg (le_trans this (le_of_lt hlt))
    split
    · exact hhi
    · exact hlo
  · split
    · exact hhi
    · exact hx

theorem least_le (hy : isNaN y = false) : least x y ≤ y := by
  unfold least
  rw [if_neg (by simp [hy])]
  split
  · next h => exact le_of_lt h
  · exact le_refl hy

theorem least_nonneg (hx : NotNegative x) (hy : ofNat 0 ≤ y) : ofNat 0 ≤ least x y := by
  unfold least
  rw [if_neg (by simp [(number_of_le hy).2])]
  split
  · next h => exact nonneg_of_notNegative hx (number_of_lt h).1
  · exact hy

end Rounded

end Stigmergy.Scalar
