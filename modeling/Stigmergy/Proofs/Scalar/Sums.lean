import Stigmergy.Proofs.Scalar.Divisible

/-!
# Sums that keep order, and sums from zero

* `Isotone`: a larger scalar has the larger sum with the same one.
* `Unsigned`: a long side of length zero has no sign, and so the sum of lengths is the same from
  zero and from negative zero on.
* `clamp_of_mem`, `clamp_of_high`, `clamp_clamp`: what a clamp does to scalars that are not below
  the interval, and that a second one does nothing.
* `Rising`: what sums with one amount have in common that started in an interval.
* `clamp_clamp_add`: clamping such a sum on the way makes no difference in the end.
-/

namespace Stigmergy.Scalar

class Isotone (α : Type) [Scalar α] : Prop where
  add_le_add_right {x y z : α} : ofNat 0 ≤ x → x ≤ y → ofNat 0 ≤ z → x + z ≤ y + z

/-- The laws of scalars whose zeros get a sign by negation alone. -/
class Unsigned (α : Type) [Scalar α] : Prop where
  hypot_eq_zero {x y : α} : isNaN x = false → isNaN y = false → hypot x y ≤ ofNat 0 →
    hypot x y = ofNat 0
  zero_add_zero : (ofNat 0 + ofNat 0 : α) = ofNat 0
  neg_zero_add_zero : (-ofNat 0 + ofNat 0 : α) = ofNat 0

variable {α : Type} [Scalar α] [Rounded α]

/-- The first of some lengths is the same sum from zero and from negative zero on. -/
theorem Unsigned.zero_add_hypot [Divisible α] [Unsigned α] {x y : α} (hx : isNaN x = false)
    (hy : isNaN y = false) :
    ofNat 0 + hypot x y = hypot x y ∧ -ofNat 0 + hypot x y = hypot x y := by
  have hzero : IsZero (ofNat 0 : α) :=
    ⟨Rounded.le_refl Rounded.number_zero, Rounded.le_refl Rounded.number_zero⟩
  by_cases hle : hypot x y ≤ ofNat 0
  · rw [Unsigned.hypot_eq_zero hx hy hle]
    exact ⟨Unsigned.zero_add_zero, Unsigned.neg_zero_add_zero⟩
  · have hpos : ofNat 0 < hypot x y := by
      obtain hzero | hpos := Rounded.isZero_or_pos (Rounded.hypot_nonneg hx hy)
      · exact absurd hzero.1 hle
      · exact hpos
    exact ⟨Divisible.add_of_isZero_left hzero hpos,
      Divisible.add_of_isZero_left Rounded.isZero_neg_zero hpos⟩

/-! ## Clamping -/

variable {lo hi x a : α}

theorem clamp_of_mem (hlo : lo ≤ x) (hhi : x ≤ hi) : clamp lo hi x = x := by
  simp [clamp, Rounded.not_lt_of_ge hlo, Rounded.not_lt_of_ge hhi]

theorem clamp_of_high (hlo : lo ≤ x) (hhi : hi < x) : clamp lo hi x = hi := by
  simp [clamp, Rounded.not_lt_of_ge hlo, hhi]

/-- What has been clamped stays where it is. -/
theorem clamp_clamp (h : lo ≤ hi) (hx : isNaN x = false) :
    clamp lo hi (clamp lo hi x) = clamp lo hi x := by
  obtain ⟨hlo, hhi⟩ := Rounded.clamp_mem h hx
  exact clamp_of_mem hlo hhi

/-- Not below the interval, and above it only if one more amount takes its upper end there too. -/
structure Rising (lo hi a x : α) : Prop where
  low_le : lo ≤ x
  lifts : hi < x → hi < hi + a

theorem Rising.of_mem (hlo : lo ≤ x) (hhi : x ≤ hi) : Rising lo hi a x :=
  ⟨hlo, fun habove => absurd hhi (Rounded.not_ge_of_lt habove)⟩

variable (hlo : ofNat 0 ≤ lo) (hle : lo ≤ hi) (ha : ofNat 0 ≤ a)
include hlo hle ha

/-- One more amount is added: where the sum gets above the interval, so does the sum with its upper
end, since sums keep order. -/
theorem Rising.add [Isotone α] (h : Rising lo hi a x) : Rising lo hi a (x + a) := by
  have hx : ofNat 0 ≤ x := Rounded.le_trans hlo h.low_le
  refine ⟨Rounded.le_trans h.low_le (Rounded.le_add_right hx ha), ?_⟩
  intro hsum
  by_cases habove : hi < x
  · exact h.lifts habove
  · have hxhi : x ≤ hi :=
      Rounded.le_of_not_gt (Rounded.number_of_le hx).2 (Rounded.number_of_le hle).2 habove
    exact Rounded.lt_of_lt_of_le hsum (Isotone.add_le_add_right hx hxhi ha)

/-- **A clamp on the way makes no difference in the end.** What it takes down to the upper end, the
next amount takes above it again. -/
theorem clamp_clamp_add (h : Rising lo hi a x) :
    clamp lo hi (clamp lo hi x + a) = clamp lo hi (x + a) := by
  have hx : ofNat 0 ≤ x := Rounded.le_trans hlo h.low_le
  by_cases habove : hi < x
  · have hlift := h.lifts habove
    have hgrows : x ≤ x + a := Rounded.le_add_right hx ha
    calc clamp lo hi (clamp lo hi x + a)
        = clamp lo hi (hi + a) := by rw [clamp_of_high h.low_le habove]
      _ = hi := clamp_of_high (Rounded.le_trans hle (Rounded.le_of_lt hlift)) hlift
      _ = clamp lo hi (x + a) :=
        (clamp_of_high (Rounded.le_trans h.low_le hgrows)
          (Rounded.lt_of_lt_of_le habove hgrows)).symm
  · have hxhi : x ≤ hi :=
      Rounded.le_of_not_gt (Rounded.number_of_le hx).2 (Rounded.number_of_le hle).2 habove
    rw [clamp_of_mem h.low_le hxhi]

end Stigmergy.Scalar
