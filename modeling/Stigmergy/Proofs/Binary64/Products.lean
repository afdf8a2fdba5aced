import Stigmergy.Proofs.Binary64.Shares
import Stigmergy.Proofs.Scalar.Proportional

/-!
# Products and quotients of doubles

* `mul_le_mul_right`, `div_le_div_right`, `div_le_div_left`: rounding keeps the order of products
  and quotients. Where an infinity comes in, the ends of the order settle it.
* `proportional_withPower`: doubles keep the laws, whatever their power function.
-/

namespace Stigmergy.Binary64

open Float.Model Float.Model.UnpackedFloat

variable {x y z : Float} {u : UnpackedFloat}

/-! ## Infinities and zeros -/

/-- An infinity times what is above zero, or over what is finite, is that infinity. -/
theorem infinity_mul (hz : Float.ofNat 0 < z) (hzf : (read z).isFinite = true)
    (hy : read y = .infinity .positive) :
    read (y * z) = .infinity .positive ∧ read (y / z) = .infinity .positive := by
  obtain ⟨m, p, hm, hzr⟩ := positive_of_rank_pos (canonical_read z) hzf (pos_iff.mp hz).2
  rw [read_mul, read_div, hy, hzr]
  exact ⟨unpack_pack_infinity _, unpack_pack_infinity _⟩

theorem isNaN_infinity_div (hy : read y = .infinity .positive) (hz : read z = .infinity .positive) :
    (read (y / z)).isNaN = true := by
  rw [read_div, hy, hz]
  exact isNaN_notANumber

/-- What is finite has no part of infinity. -/
theorem rank_div_infinity (hx : (read x).isFinite = true) (hz : read z = .infinity .positive) :
    (read (x / z)).isNaN = false ∧ rank (read (x / z)) = 0 := by
  rw [read_div, hz]
  cases hxr : read x with
  | infinity | notANumber => simp [hxr, UnpackedFloat.isFinite] at hx
  | zero | finite =>
    change (unpack64 (pack64 (.zero _))).isNaN = false ∧ rank (unpack64 (pack64 (.zero _))) = 0
    rw [unpack_pack_zero]
    exact ⟨rfl, rfl⟩

/-- Nothing over zero is finite. -/
theorem isFinite_div_zero (hy : y ≤ Float.ofNat 0 ∧ Float.ofNat 0 ≤ y) :
    (read (x / y)).isFinite = false := by
  obtain ⟨hyn, hy0⟩ := isZero_iff.mp hy
  obtain ⟨t, hyr⟩ | ⟨m, p, hm, hyr⟩ :=
    zero_or_positive (canonical_read y) (finite_of_rank_zero hyn hy0) hy0.ge
  · rw [read_div, hyr]
    cases read x with
    | notANumber | zero =>
      change (unpack64 (pack64 .notANumber)).isFinite = false
      rw [unpack_pack_notANumber]
      rfl
    | infinity | finite =>
      change (unpack64 (pack64 (.infinity _))).isFinite = false
      rw [unpack_pack_infinity]
      rfl
  · have hcy := canonical_read y
    rw [hyr] at hcy hy0
    have hpos := hcy.1.rank_pos hm
    simp only [rank, apply_positive] at hy0
    omega

theorem isNaN_div (hx : (read x).isNaN = true) : (read (x / y)).isNaN = true := by
  rw [read_div, read_eq_notANumber (ne_false_of_eq_true hx)]
  cases read y <;> exact isNaN_notANumber

/-- Nothing is above infinity. -/
theorem le_of_read_infinity (hx : (read x).isNaN = false) (hy : read y = .infinity .positive) :
    x ≤ y := by
  rw [le_iff, hy]
  exact ⟨hx, rfl, (rank_bounds (canonical_read x)).2⟩

/-! ## Order -/

/-- Larger finite factors make a larger product. -/
theorem mul_le_mul_of_isFinite {x' y' : Float} (hx : Float.ofNat 0 ≤ x) (hxx : x ≤ x')
    (hy : Float.ofNat 0 ≤ y) (hyy : y ≤ y') (hxf' : (read x').isFinite = true)
    (hyf' : (read y').isFinite = true) : x * y ≤ x' * y' := by
  have hx' : Float.ofNat 0 ≤ x' := Scalar.Rounded.le_trans (α := Float) hx hxx
  have hxf : (read x).isFinite = true := Scalar.Rounded.isFinite_of_le (α := Float) hx hxx hxf'
  have hyf : (read y).isFinite = true := Scalar.Rounded.isFinite_of_le (α := Float) hy hyy hyf'
  have hleft := value_le_value (canonical_read x) (canonical_read x') hxf hxf' (le_iff.mp hxx).2.2
  have hright := value_le_value (canonical_read y) (canonical_read y') hyf hyf' (le_iff.mp hyy).2.2
  have hproduct := mul_le_mul hleft hright
    (value_nonneg (canonical_read y) hyf (nonneg_iff.mp hy).2)
    (value_nonneg (canonical_read x') hxf' (nonneg_iff.mp hx').2)
  have hlow := mul_nearest (canonical_read x) (canonical_read y) hxf hyf
  have hhigh := mul_nearest (canonical_read x') (canonical_read y') hxf' hyf'
  rw [le_iff, read_mul, read_mul]
  exact ⟨hlow.1, hhigh.1, hlow.2.mono hhigh.2 hproduct⟩

theorem mul_le_mul_right (hx : Float.ofNat 0 ≤ x) (hxy : x ≤ y) (hz : Float.ofNat 0 ≤ z)
    (hzf : (read z).isFinite = true) (hnumber : (read (y * z)).isNaN = false) :
    x * z ≤ y * z := by
  obtain ⟨hxn, hyn, hrank⟩ := le_iff.mp hxy
  cases finite_or_infinity hyn ((nonneg_iff.mp hx).2.trans hrank) with
  | inl hyf =>
    have hsame : z ≤ z := Scalar.Rounded.le_refl (α := Float) (nonneg_iff.mp hz).1
    exact mul_le_mul_of_isFinite hx hxy hz hsame hyf hzf
  | inr hinf =>
    cases Scalar.Rounded.isZero_or_pos (α := Float) hz with
    | inl hzero =>
      have hnan := isNaN_mul_zero (x := y) (by rw [hinf]; rfl) hzero
      rw [hnumber] at hnan
      cases hnan
    | inr hpos =>
      refine le_of_read_infinity ?_ (infinity_mul hpos hzf hinf).1
      rw [read_mul]
      exact number_mul (canonical_read x) (canonical_read z) hxn hzf (pos_iff.mp hpos).2

theorem div_le_div_right (hx : Float.ofNat 0 ≤ x) (hxy : x ≤ y) (hz : Float.ofNat 0 < z)
    (hnumber : (read (y / z)).isNaN = false) : x / z ≤ y / z := by
  obtain ⟨hxn, hyn, hrank⟩ := le_iff.mp hxy
  obtain ⟨hzn, hz0⟩ := pos_iff.mp hz
  have hcx := canonical_read x
  have hcy := canonical_read y
  have hcz := canonical_read z
  cases finite_or_infinity hyn ((nonneg_iff.mp hx).2.trans hrank) with
  | inl hyf =>
    have hxf : (read x).isFinite = true := Scalar.Rounded.isFinite_of_le (α := Float) hx hxy hyf
    cases finite_or_infinity hzn hz0.le with
    | inl hzf =>
      have hvalue := value_le_value hcx hcy hxf hyf hrank
      have hdivisor := value_pos hcz hzf hz0
      have hlow := div_nearest hxf hzf hdivisor.ne'
      have hhigh := div_nearest hyf hzf hdivisor.ne'
      rw [le_iff, read_div, read_div]
      exact ⟨hlow.1, hhigh.1,
        hlow.2.mono hhigh.2 (div_le_div_of_nonneg_right hvalue hdivisor.le)⟩
    | inr hinf =>
      obtain ⟨hxnumber, hxzero⟩ := rank_div_infinity hxf hinf
      obtain ⟨-, hyzero⟩ := rank_div_infinity hyf hinf
      exact le_iff.mpr ⟨hxnumber, hnumber, by rw [hxzero, hyzero]⟩
  | inr hinf =>
    cases finite_or_infinity hzn hz0.le with
    | inl hzf =>
      refine le_of_read_infinity ?_ (infinity_mul hz hzf hinf).2
      rw [read_div]
      exact number_div hcx hcz hxn hzn hz0 (.inr hzf)
    | inr hzinf =>
      rw [isNaN_infinity_div hinf hzinf] at hnumber
      cases hnumber

theorem div_le_div_left (hx : Float.ofNat 0 ≤ x) (hy : Float.ofNat 0 < y) (hyz : y ≤ z)
    (hzf : (read z).isFinite = true) : x / z ≤ x / y := by
  obtain ⟨hxn, hx0⟩ := nonneg_iff.mp hx
  have hy0 := (pos_iff.mp hy).2
  obtain ⟨-, -, hrank⟩ := le_iff.mp hyz
  have hcx := canonical_read x
  have hcy := canonical_read y
  have hcz := canonical_read z
  have hyf : (read y).isFinite = true :=
    Scalar.Rounded.isFinite_of_le (α := Float) (Scalar.Rounded.le_of_lt hy) hyz hzf
  have hz : Float.ofNat 0 < z := Scalar.Rounded.lt_of_lt_of_le (α := Float) hy hyz
  cases finite_or_infinity hxn hx0 with
  | inl hxf =>
    have hdivisor := value_pos hcy hyf hy0
    have hvalue := value_le_value hcy hcz hyf hzf hrank
    have hlow := div_nearest hxf hzf (value_pos hcz hzf (hy0.trans_le hrank)).ne'
    have hhigh := div_nearest hxf hyf hdivisor.ne'
    rw [le_iff, read_div, read_div]
    exact ⟨hlow.1, hhigh.1,
      hlow.2.mono hhigh.2 (div_le_div_of_nonneg_left (value_nonneg hcx hxf hx0) hdivisor hvalue)⟩
  | inr hinf =>
    refine le_of_read_infinity ?_ (infinity_mul hy hyf hinf).2
    rw [(infinity_mul hz hzf hinf).2]
    rfl

/-- **Products and quotients of doubles keep order**, whatever the power function. -/
theorem proportional_withPower (pow : Float → Float → Float) :
    @Scalar.Proportional Float (withPower pow) := by
  let : Scalar Float := withPower pow
  exact
  { mul_le_mul_right := mul_le_mul_right
    div_le_div_right := div_le_div_right
    div_le_div_left := div_le_div_left
    isFinite_div_zero := isFinite_div_zero
    isNaN_div := isNaN_div }

instance : Scalar.Proportional Float := proportional_withPower Float.pow

end Stigmergy.Binary64
