import Stigmergy.Proofs.Binary64.Laws
import Stigmergy.Proofs.Scalar.Sums

/-!
# Sums of doubles

* `add_le_add_right`: rounding keeps the order of sums.
* `hypotenuse_eq_zero`: a hypotenuse is never the negative zero.
* `isotone_withPower`, `unsigned_withPower`: doubles keep these laws, whatever their power function.
-/

namespace Stigmergy.Binary64

open Float.Model Float.Model.UnpackedFloat

variable {x y z : Float}

/-- The larger double has the larger sum with the same one. -/
theorem add_le_add_right (hx : Float.ofNat 0 ≤ x) (hxy : x ≤ y) (hz : Float.ofNat 0 ≤ z) :
    x + z ≤ y + z := by
  obtain ⟨hxn, hx0⟩ := nonneg_iff.mp hx
  obtain ⟨hzn, hz0⟩ := nonneg_iff.mp hz
  obtain ⟨-, hyn, hrank⟩ := le_iff.mp hxy
  have hcx := canonical_read x
  have hcy := canonical_read y
  have hcz := canonical_read z
  have hnumber {w : Float} (hw : Float.ofNat 0 ≤ w) : (read (w + z)).isNaN = false :=
    (le_iff.mp (le_add_right hw hz)).2.1
  rw [le_iff]
  refine ⟨hnumber hx, hnumber (Scalar.Rounded.le_trans (α := Float) hx hxy), ?_⟩
  rw [read_add, read_add]
  rcases unpack_sum hcy hcz hyn hzn (hx0.trans hrank) hz0 with ⟨hyf, hzf, -, hhigh⟩ | hinf
  · have hxf : (read x).isFinite = true := Scalar.Rounded.isFinite_of_le (α := Float) hx hxy hyf
    have hvalue := value_le_value hcx hcy hxf hyf hrank
    exact (add_nearest hcx hcz hxf hzf).2.mono hhigh (by linarith)
  · rw [hinf]
    exact (rank_bounds (canonical_unpack _)).2

/-- **Sums of doubles keep order**, whatever the power function. -/
theorem isotone_withPower (pow : Float → Float → Float) :
    @Scalar.Isotone Float (withPower pow) := by
  let : Scalar Float := withPower pow
  exact { add_le_add_right := add_le_add_right }

instance : Scalar.Isotone Float := isotone_withPower Float.pow

theorem hypotenuse_eq_zero (hx : (read x).isNaN = false) (hy : (read y).isNaN = false)
    (h : hypotenuse x y ≤ Float.ofNat 0) : hypotenuse x y = Float.ofNat 0 := by
  unfold hypotenuse at h ⊢
  split at h
  · exact absurd h (by decide +kernel)
  · next hfinite =>
    have hnan : ¬(x.isNaN || y.isNaN) = true := by
      rw [isNaN_eq, isNaN_eq, hx, hy]
      decide
    rw [if_neg hfinite, if_neg hnan]
    rw [if_neg hnan] at h
    -- The bits of what is not above zero are all zeros.
    dsimp only at h ⊢
    generalize rootMagnitude _ _ = root at h ⊢
    have hbits : nearest root.count root.place = 0 := by
      have hrank := (nonpos_iff.mp h).2
      rw [(read_ofMagnitude root).2] at hrank
      omega
    unfold ofMagnitude
    rw [hbits]
    decide +kernel

/-- **No zero of doubles has a sign but by negation**, whatever the power function. -/
theorem unsigned_withPower (pow : Float → Float → Float) :
    @Scalar.Unsigned Float (withPower pow) := by
  let : Scalar Float := withPower pow
  exact
  { hypot_eq_zero := hypotenuse_eq_zero
    zero_add_zero := by
      change Float.ofNat 0 + Float.ofNat 0 = Float.ofNat 0
      decide +kernel
    neg_zero_add_zero := by
      change -Float.ofNat 0 + Float.ofNat 0 = Float.ofNat 0
      decide +kernel }

instance : Scalar.Unsigned Float := unsigned_withPower Float.pow

end Stigmergy.Binary64
