import Stigmergy.Proofs.Binary64.Products
import Stigmergy.Proofs.Scalar.Extended

/-!
# Products and reciprocals of doubles up to infinity

* `mul_cases`: a product of doubles that are not negative is rounded, is no number, or is infinite.
* `mul_le_mul_of_number`, `inverse_le_inverse`: order is kept up to infinity.
* `extended_withPower`: doubles keep the laws, whatever their power function.
-/

namespace Stigmergy.Binary64

open Float.Model Float.Model.UnpackedFloat

variable {x x' y y' : Float}

/-- What is not negative is zero, a finite double above zero, or infinity. -/
theorem zero_or_positive_or_infinity (hx : Float.ofNat 0 ≤ x) :
    ((x ≤ Float.ofNat 0 ∧ Float.ofNat 0 ≤ x) ∧ ∃ s, read x = .zero s) ∨
    (Float.ofNat 0 < x ∧ ∃ m p hm, read x = .finite .positive m p hm) ∨
    Float.ofNat 0 < x ∧ read x = .infinity .positive := by
  obtain ⟨hxn, hx0⟩ := nonneg_iff.mp hx
  cases finite_or_infinity hxn hx0 with
  | inl hxf =>
    obtain ⟨s, hxr⟩ | ⟨m, p, hm, hxr⟩ := zero_or_positive (canonical_read x) hxf hx0
    · exact .inl ⟨isZero_iff.mpr ⟨hxn, by rw [hxr, rank_zero]⟩, s, hxr⟩
    · have hcx := canonical_read x
      rw [hxr] at hcx
      have hpos : 0 < rank (read x) := by
        rw [hxr]
        exact hcx.1.rank_pos hm
      exact .inr (.inl ⟨pos_iff.mpr ⟨hxn, hpos⟩, m, p, hm, hxr⟩)
  | inr hinf =>
    have hpos : 0 < rank (read x) := by
      rw [hinf]
      decide
    exact .inr (.inr ⟨pos_iff.mpr ⟨hxn, hpos⟩, hinf⟩)

/-- A product is rounded if both factors are finite. Else it is no number if one of them is zero,
and infinite if none is. -/
theorem mul_cases (hx : Float.ofNat 0 ≤ x) (hy : Float.ofNat 0 ≤ y) :
    ((read x).isFinite = true ∧ (read y).isFinite = true) ∨
    ((x ≤ Float.ofNat 0 ∧ Float.ofNat 0 ≤ x) ∨ (y ≤ Float.ofNat 0 ∧ Float.ofNat 0 ≤ y)) ∧
      (read (x * y)).isNaN = true ∨
    (Float.ofNat 0 < x ∧ Float.ofNat 0 < y) ∧ read (x * y) = .infinity .positive := by
  rw [read_mul]
  obtain ⟨hzero, s, hxr⟩ | ⟨hpos, m, p, hm, hxr⟩ | ⟨hpos, hxr⟩ :=
      zero_or_positive_or_infinity hx <;>
    obtain ⟨hzero', t, hyr⟩ | ⟨hpos', n, q, hn, hyr⟩ | ⟨hpos', hyr⟩ :=
      zero_or_positive_or_infinity hy <;>
    rw [hxr, hyr]
  · exact .inl ⟨rfl, rfl⟩
  · exact .inl ⟨rfl, rfl⟩
  · exact .inr (.inl ⟨.inl hzero, isNaN_notANumber⟩)
  · exact .inl ⟨rfl, rfl⟩
  · exact .inl ⟨rfl, rfl⟩
  · exact .inr (.inr ⟨⟨hpos, hpos'⟩, unpack_pack_infinity _⟩)
  · exact .inr (.inl ⟨.inr hzero', isNaN_notANumber⟩)
  · exact .inr (.inr ⟨⟨hpos, hpos'⟩, unpack_pack_infinity _⟩)
  · exact .inr (.inr ⟨⟨hpos, hpos'⟩, unpack_pack_infinity _⟩)

theorem mul_le_mul_of_number (hx : Float.ofNat 0 ≤ x) (hxx : x ≤ x') (hy : Float.ofNat 0 ≤ y)
    (hyy : y ≤ y') (hnumber : (read (x * y)).isNaN = false)
    (hnumber' : (read (x' * y')).isNaN = false) : x * y ≤ x' * y' := by
  have hx' : Float.ofNat 0 ≤ x' := Scalar.Rounded.le_trans (α := Float) hx hxx
  have hy' : Float.ofNat 0 ≤ y' := Scalar.Rounded.le_trans (α := Float) hy hyy
  obtain ⟨hxf', hyf'⟩ | ⟨-, hnan⟩ | ⟨-, hinf⟩ := mul_cases hx' hy'
  · exact mul_le_mul_of_isFinite hx hxx hy hyy hxf' hyf'
  · rw [hnumber'] at hnan
    cases hnan
  · exact le_of_read_infinity hnumber hinf

theorem isZero_of_isNaN_mul (hx : Float.ofNat 0 ≤ x) (hy : Float.ofNat 0 ≤ y)
    (hnan : (read (x * y)).isNaN = true) :
    (x ≤ Float.ofNat 0 ∧ Float.ofNat 0 ≤ x) ∨ (y ≤ Float.ofNat 0 ∧ Float.ofNat 0 ≤ y) := by
  obtain ⟨hxf, hyf⟩ | ⟨hzero, -⟩ | ⟨-, hinf⟩ := mul_cases hx hy
  · have hnumber := (mul_nearest (canonical_read x) (canonical_read y) hxf hyf).1
    rw [← read_mul, hnan] at hnumber
    cases hnumber
  · exact hzero
  · simp [hinf, UnpackedFloat.isNaN] at hnan

/-- A zero makes a zero of every finite double. -/
theorem isZero_mul (hx : Float.ofNat 0 ≤ x) (hy : Float.ofNat 0 ≤ y)
    (h : (x ≤ Float.ofNat 0 ∧ Float.ofNat 0 ≤ x) ∨ (y ≤ Float.ofNat 0 ∧ Float.ofNat 0 ≤ y))
    (hnumber : (read (x * y)).isNaN = false) :
    x * y ≤ Float.ofNat 0 ∧ Float.ofNat 0 ≤ x * y := by
  have hproduct (hxf : (read x).isFinite = true) (hyf : (read y).isFinite = true) :
      rank (read (x * y)) = 0 := by
    have hvalue : value (read x) * value (read y) = 0 := by
      cases h with
      | inl hzero => rw [(finite_of_isZero hzero).2, zero_mul]
      | inr hzero => rw [(finite_of_isZero hzero).2, mul_zero]
    have hrounds := (mul_nearest (canonical_read x) (canonical_read y) hxf hyf).2
    rw [hvalue, ← read_mul] at hrounds
    exact hrounds.unique rounds_zero
  obtain ⟨hxf, hyf⟩ | ⟨-, hnan⟩ | ⟨⟨hxpos, hypos⟩, -⟩ := mul_cases hx hy
  · exact isZero_iff.mpr ⟨hnumber, hproduct hxf hyf⟩
  · rw [hnumber] at hnan
    cases hnan
  · cases h with
    | inl hzero => exact absurd hzero.1 (Scalar.Rounded.not_ge_of_lt (α := Float) hxpos)
    | inr hzero => exact absurd hzero.1 (Scalar.Rounded.not_ge_of_lt (α := Float) hypos)

/-- The larger divisor makes the smaller reciprocal, and infinity none. -/
theorem inverse_le_inverse (hx : Float.ofNat 0 < x) (hxy : x ≤ y) :
    Float.ofNat 1 / y ≤ Float.ofNat 1 / x := by
  have hone : Float.ofNat 0 ≤ Float.ofNat 1 := by decide +kernel
  have honef : (read (Float.ofNat 1)).isFinite = true := isFinite_ofNat (by decide)
  obtain ⟨hyn, hy0⟩ := pos_iff.mp (Scalar.Rounded.lt_of_lt_of_le (α := Float) hx hxy)
  cases finite_or_infinity hyn hy0.le with
  | inl hyf => exact div_le_div_left hone hx hxy hyf
  | inr hinf =>
    have hinverse : Float.ofNat 0 ≤ Float.ofNat 1 / x :=
      Scalar.Rounded.div_nonneg (α := Float) hone hx (.inl honef)
    obtain ⟨hnumber, hnonneg⟩ := nonneg_iff.mp hinverse
    obtain ⟨hnumber', hzero⟩ := rank_div_infinity honef hinf
    exact le_iff.mpr ⟨hnumber', hnumber, by rwa [hzero]⟩

/-- **Doubles keep the laws of products and reciprocals up to infinity**, whatever their power
function. -/
theorem extended_withPower (pow : Float → Float → Float) :
    @Scalar.Extended Float (withPower pow) := by
  let : Scalar Float := withPower pow
  exact
  { mul_le_mul := mul_le_mul_of_number
    isZero_of_isNaN_mul := isZero_of_isNaN_mul
    isZero_mul := isZero_mul
    inverse_le_inverse := inverse_le_inverse }

instance : Scalar.Extended Float := extended_withPower Float.pow

end Stigmergy.Binary64
