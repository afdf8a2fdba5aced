import Stigmergy.Proofs.Binary64.Laws
import Stigmergy.Proofs.Scalar.Divisible

/-!
# Doubles can be divided in proportion

* `add_of_isZero`: a sum with a zero is the other summand itself.
* `rank_lt_of_le_pred`: what is a whole count below a normal double is rounded to less.
* `share_lt`: so a fraction of a normal double is less than it.
* `divisible_withPower`: doubles keep the laws, whatever their power function.
-/

namespace Stigmergy.Binary64

open Float.Model Float.Model.UnpackedFloat

variable {x y : Float}

/-! ## Zeros -/

theorem finite_of_isZero (h : x ≤ Float.ofNat 0 ∧ Float.ofNat 0 ≤ x) :
    (read x).isFinite = true ∧ value (read x) = 0 := by
  obtain ⟨hn, h0⟩ := isZero_iff.mp h
  have hf := finite_of_rank_zero hn h0
  exact ⟨hf, value_eq_value (w := .zero .positive) (canonical_read x) trivial hf rfl h0⟩

/-- What is rounded to the same value as a positive double is that double. -/
theorem eq_of_isNearest (hpos : 0 < rank (read x)) (hf : (read x).isFinite = true)
    (h : IsNearest (value (read x)) (read y)) : y = x := by
  have hvalue := rounds_value (canonical_read x) hf
  have hrank := hvalue.unique h.2
  exact (eq_of_rank_eq_of_pos (number_of_finite hf) h.1 hpos hrank).symm

theorem infinity_add {u : UnpackedFloat} (hu : u.isFinite = true) :
    UnpackedFloat.add Format.binary64 (.infinity .positive) u = .infinity .positive ∧
      UnpackedFloat.add Format.binary64 u (.infinity .positive) = .infinity .positive := by
  cases u with
  | infinity | notANumber => cases hu
  | zero | finite => exact ⟨rfl, rfl⟩

theorem add_of_infinity (hx : read x = .infinity .positive) (hy : (read y).isFinite = true) :
    x + y = x ∧ y + x = x := by
  have hsum (z : Float) (hz : read z = unpack64 (pack64 (.infinity .positive))) : z = x := by
    rw [unpack_pack_infinity, ← hx] at hz
    have hpos : 0 < rank (read z) := by
      rw [hz, hx]
      decide
    have hnumber : (read x).isNaN = false := by rw [hx]; rfl
    exact eq_of_rank_eq_of_pos (hz ▸ hnumber) hnumber hpos (by rw [hz])
  obtain ⟨hright, hleft⟩ := infinity_add hy
  exact ⟨hsum _ (by rw [read_add, hx, hright]), hsum _ (by rw [read_add, hx, hleft])⟩

/-- A zero changes nothing that is above zero. -/
theorem add_of_isZero (hx : Float.ofNat 0 < x) (hy : y ≤ Float.ofNat 0 ∧ Float.ofNat 0 ≤ y) :
    x + y = x ∧ y + x = x := by
  obtain ⟨hxn, hx0⟩ := pos_iff.mp hx
  obtain ⟨hyf, hyv⟩ := finite_of_isZero hy
  cases finite_or_infinity hxn hx0.le with
  | inr hinf => exact add_of_infinity hinf hyf
  | inl hxf =>
    have hright := add_nearest (canonical_read x) (canonical_read y) hxf hyf
    have hleft := add_nearest (canonical_read y) (canonical_read x) hyf hxf
    rw [hyv, add_zero, ← read_add] at hright
    rw [hyv, zero_add, ← read_add] at hleft
    exact ⟨eq_of_isNearest hx0 hxf hright, eq_of_isNearest hx0 hxf hleft⟩

theorem isZero_div (hx : x ≤ Float.ofNat 0 ∧ Float.ofNat 0 ≤ x) (hy : Float.ofNat 0 < y) :
    x / y ≤ Float.ofNat 0 ∧ Float.ofNat 0 ≤ x / y := by
  obtain ⟨hyn, hy0⟩ := pos_iff.mp hy
  obtain ⟨hxf, hxv⟩ := finite_of_isZero hx
  rw [isZero_iff, read_div]
  cases finite_or_infinity hyn hy0.le with
  | inl hyf =>
    have hyv := value_pos (canonical_read y) hyf hy0
    obtain ⟨hnumber, hrounds⟩ := div_nearest hxf hyf hyv.ne'
    rw [hxv, zero_div] at hrounds
    exact ⟨hnumber, hrounds.unique rounds_zero⟩
  | inr hinf =>
    rw [hinf]
    cases hxr : read x with
    | infinity | notANumber => simp [hxr, UnpackedFloat.isFinite] at hxf
    | zero | finite =>
      change (unpack64 (pack64 (.zero _))).isNaN = false ∧ rank (unpack64 (pack64 (.zero _))) = 0
      rw [unpack_pack_zero]
      exact ⟨rfl, rfl⟩

theorem one_le_div_self (hx : Float.ofNat 0 < x) (hxf : (read x).isFinite = true) :
    Float.ofNat 1 ≤ x / x := by
  have hv := value_pos (canonical_read x) hxf (pos_iff.mp hx).2
  obtain ⟨hnumber, hrounds⟩ := div_nearest hxf hxf hv.ne'
  rw [div_self hv.ne'] at hrounds
  have hone := ofNat_nearest 1
  rw [Nat.cast_one] at hone
  rw [le_iff, read_div]
  exact ⟨hone.1, hnumber, hone.2.mono hrounds le_rfl⟩

/-! ## Shares -/

/-- Below the first count of a place there is a double of the place before it. -/
theorem rank_lt_of_le_pred {m : ℕ} {p r : ℤ} {v : ℚ} (h : Fields m p) (hm : 2 ^ 52 ≤ m)
    (hr : Rounds v r) (hv : v ≤ (m - 1) * 2 ^ p) : r < fieldRank m p := by
  have hle {n : ℕ} {q : ℤ} (hn : Fields n q) (hvalue : v ≤ n * 2 ^ q) : r ≤ fieldRank n q :=
    (hr.mono (.inl ⟨by positivity, hn.nearest⟩) hvalue).trans (min_le_left _ _)
  have hlt := h.count_lt
  have hplace := h.place_ge
  -- The first count of a place comes after the last one of the place before, at half the step.
  by_cases hfirst : m = 2 ^ 52 ∧ p ≠ -1074
  · obtain ⟨rfl, hp⟩ := hfirst
    have hpred : Fields (2 ^ 53 - 2) (p - 1) := ⟨by norm_num, by omega, .inl (by norm_num)⟩
    have hvalue : v ≤ ((2 ^ 53 - 2 : ℕ) : ℚ) * 2 ^ (p - 1) := by
      refine hv.trans_eq ?_
      rw [zpow_sub_one₀ (by norm_num)]
      norm_num
      ring
    have hrank := hle hpred hvalue
    unfold fieldRank at hrank ⊢
    omega
  · have hpred : Fields (m - 1) p := ⟨by omega, hplace, by omega⟩
    have hvalue : v ≤ ((m - 1 : ℕ) : ℚ) * 2 ^ p := by
      rwa [Nat.cast_sub (by omega), Nat.cast_one]
    have hrank := hle hpred hvalue
    unfold fieldRank at hrank ⊢
    omega

theorem ratio_le_ratio {m n d : ℕ} (h : m ≤ n) (hn : n ≤ 2 ^ 64) (hd : d ≤ 2 ^ 64)
    (hpos : 0 < d) : Float.ofNat m / Float.ofNat d ≤ Float.ofNat n / Float.ofNat d := by
  have hdf := isFinite_ofNat hd
  have hone : (1 : ℚ) ≤ d := by exact_mod_cast hpos
  have hdpos : 0 < rank (read (Float.ofNat d)) := by
    have hrank := (ofNat_nearest 1).2.mono (ofNat_nearest d).2 (by exact_mod_cast hpos)
    have hfirst : 0 < rank (read (Float.ofNat 1)) := by decide +kernel
    omega
  have hdv := value_pos (canonical_read _) hdf hdpos
  have hmf := isFinite_ofNat (h.trans hn)
  have hnf := isFinite_ofNat hn
  have hrank := (ofNat_nearest m).2.mono (ofNat_nearest n).2 (by exact_mod_cast h)
  have hvalue := value_le_value (canonical_read _) (canonical_read _) hmf hnf hrank
  have hleft := div_nearest hmf hdf hdv.ne'
  have hright := div_nearest hnf hdf hdv.ne'
  rw [le_iff, read_div, read_div]
  exact ⟨hleft.1, hright.1, hleft.2.mono hright.2 (div_le_div_of_nonneg_right hvalue hdv.le)⟩

/-- A fraction of `2 ^ 52` parts is at least one part below one. -/
theorem value_fraction_le {n : ℕ} (hn : n < 1 <<< 52) :
    (read (Float.ofNat n / Float.ofNat (1 <<< 52))).isFinite = true ∧
      value (read (Float.ofNat n / Float.ofNat (1 <<< 52))) ≤ 1 - 2 ^ (-52 : ℤ) := by
  have hzero : Float.ofNat 0 / Float.ofNat (1 <<< 52) = Float.ofNat 0 := by decide +kernel
  have hlast : Float.ofNat (1 <<< 52 - 1) / Float.ofNat (1 <<< 52) =
      Float.ofBits 0x3FEFFFFFFFFFFFFE := by decide +kernel
  have hlast_read : read (Float.ofBits 0x3FEFFFFFFFFFFFFE) =
      .finite .positive (2 ^ 53 - 2) (-53) (by decide) := rfl
  have hlow := ratio_le_ratio (d := 1 <<< 52) (Nat.zero_le n) (by omega) (by omega) (by decide)
  have hhigh := ratio_le_ratio (d := 1 <<< 52) (show n ≤ 1 <<< 52 - 1 by omega) (by omega)
    (by omega) (by decide)
  rw [hzero] at hlow
  rw [hlast] at hhigh
  generalize Float.ofNat n / Float.ofNat (1 <<< 52) = f at hlow hhigh
  have hf : (read f).isFinite = true :=
    Scalar.Rounded.isFinite_of_le (α := Float) hlow hhigh (by decide +kernel)
  have hvalue := value_le_value (canonical_read f) (canonical_read _) hf (by rw [hlast_read]; rfl)
    (le_iff.mp hhigh).2.2
  refine ⟨hf, hvalue.trans_eq ?_⟩
  rw [hlast_read, value_finite, apply_positive]
  norm_num

/-- A fraction of a normal double is less than it. -/
theorem share_lt {n : ℕ} (hn : n < 1 <<< 52)
    (hx : Float.ofNat 1 / Float.ofNat (1 <<< 1022) ≤ x) (hxf : (read x).isFinite = true) :
    Float.ofNat n / Float.ofNat (1 <<< 52) * x < x := by
  obtain ⟨hf, hf1⟩ := value_fraction_le hn
  have hleast : Float.ofNat 1 / Float.ofNat (1 <<< 1022) = Float.ofBits 0x0010000000000000 := by
    decide +kernel
  have hleast_rank : rank (read (Float.ofBits 0x0010000000000000)) = 2 ^ 52 := by decide +kernel
  have hrank := (le_iff.mp hx).2.2
  rw [hleast, hleast_rank] at hrank
  have hcx := canonical_read x
  obtain ⟨hnumber, hrounds⟩ := mul_nearest (canonical_read _) hcx hf hxf
  rw [← read_mul] at hnumber hrounds
  refine lt_iff.mpr ⟨hnumber, number_of_finite hxf, ?_⟩
  obtain ⟨m, p, hm, hxr⟩ := positive_of_rank_pos hcx hxf (by omega)
  rw [hxr] at hcx hrank hrounds ⊢
  have hfields := hcx.1
  have hxrank : rank (.finite .positive m p hm) = fieldRank m p := rfl
  rw [hxrank] at hrank ⊢
  have hnormal : 2 ^ 52 ≤ m := by
    cases hfields.normal with
    | inl hnormal => exact hnormal
    | inr hlow =>
      unfold fieldRank at hrank
      omega
  refine rank_lt_of_le_pred hfields hnormal hrounds ?_
  rw [value_finite, apply_positive, ← mul_assoc]
  refine mul_le_mul_of_nonneg_right ?_ (zpow_two_pos p).le
  rw [Int.cast_natCast]
  have hpart : (1 : ℚ) ≤ 2 ^ (-52 : ℤ) * m := by
    rw [zpow_neg, le_inv_mul_iff₀ (zpow_two_pos 52), mul_one]
    exact_mod_cast hnormal
  have hmul := mul_le_mul_of_nonneg_right hf1 (Nat.cast_nonneg (α := ℚ) m)
  rw [sub_mul, one_mul] at hmul
  exact hmul.trans (sub_le_sub_left hpart _)

/-- **Doubles can be divided in proportion**, whatever their power function. -/
theorem divisible_withPower (pow : Float → Float → Float) :
    @Scalar.Divisible Float (withPower pow) := by
  let : Scalar Float := withPower pow
  exact
  { add_of_isZero := fun hx hy => (add_of_isZero hx hy).1
    add_of_isZero_left := fun hx hy => (add_of_isZero hy hx).2
    isZero_div := isZero_div
    one_le_div_self := one_le_div_self
    share_lt := share_lt }

instance : Scalar.Divisible Float := divisible_withPower Float.pow

end Stigmergy.Binary64
