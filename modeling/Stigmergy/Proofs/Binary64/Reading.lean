import Stigmergy.Proofs.Binary64.Operations

/-!
# Reading doubles

* `read`: what a double holds; operations on doubles are those on what they hold.
* `le_iff`, `lt_iff`: doubles are compared by their ranks.
* `ofNat_nearest`: a count becomes the double nearest to it.
-/

namespace Stigmergy.Binary64

open Float.Model Float.Model.UnpackedFloat

def read (x : Float) : UnpackedFloat := unpack64 x.toModel.toBits.toBitVec

theorem canonical_read (x : Float) : Canonical (read x) := canonical_unpack _

theorem isNaN_eq (x : Float) : x.isNaN = (read x).isNaN := rfl

theorem le_iff {x y : Float} :
    x ≤ y ↔ (read x).isNaN = false ∧ (read y).isNaN = false ∧ rank (read x) ≤ rank (read y) := by
  rw [← le_iff_rank (canonical_read x) (canonical_read y)]
  change decide ((read x).le (read y) = true) = true ↔ _
  rw [decide_eq_true_iff]

theorem lt_iff {x y : Float} :
    x < y ↔ (read x).isNaN = false ∧ (read y).isNaN = false ∧ rank (read x) < rank (read y) := by
  rw [← lt_iff_rank (canonical_read x) (canonical_read y)]
  change decide ((read x).lt (read y) = true) = true ↔ _
  rw [decide_eq_true_iff]

theorem read_add (x y : Float) :
    read (x + y) = unpack64 (pack64 (UnpackedFloat.add Format.binary64 (read x) (read y))) := rfl

theorem read_sub (x y : Float) :
    read (x - y) = unpack64 (pack64 (UnpackedFloat.sub Format.binary64 (read x) (read y))) := rfl

theorem read_mul (x y : Float) :
    read (x * y) = unpack64 (pack64 (UnpackedFloat.mul Format.binary64 (read x) (read y))) := rfl

theorem read_div (x y : Float) :
    read (x / y) = unpack64 (pack64 (UnpackedFloat.div Format.binary64 (read x) (read y))) := rfl

/-! ## Counts -/

theorem value_one : value (read (Float.ofBits 0x3FF0000000000000)) = 1 := by
  have h : read (Float.ofBits 0x3FF0000000000000) =
      .finite .positive (2 ^ 52) (-52) (by decide) := rfl
  rw [h, value_finite, apply_positive]
  norm_num

theorem count_lt_largest {n : ℕ} (hn : n ≤ 2 ^ 64) :
    (n : ℚ) < (2 ^ 53 - 1 / 2) * 2 ^ (971 : ℤ) := by
  have hle : (n : ℚ) ≤ 2 ^ 64 := by exact_mod_cast hn
  have hstep := zpow_le_zpow_two (a := 12) (b := 971) (by norm_num)
  have := mul_le_mul_of_nonneg_left hstep (by norm_num : (0 : ℚ) ≤ 2 ^ 53 - 1 / 2)
  refine hle.trans_lt (lt_of_lt_of_le ?_ this)
  norm_num

theorem ofUInt64_nearest {n : ℕ} (hn : n < 2 ^ 53) : IsNearest n (read n.toUInt64.toFloat) := by
  have h := normalize_nearest n 0
  rw [zpow_zero, mul_one, Int.cast_natCast] at h
  have hread : read n.toUInt64.toFloat =
      unpack64 (pack64 (UnpackedFloat.normalize Format.binary64 n.toUInt64.toNat 0 .positive)) :=
    rfl
  have hcount : n.toUInt64.toNat = n := by
    change n % 2 ^ 64 = n
    omega
  rwa [hread, hcount]

/-- A large count is shifted to a place low enough for any rounding, and rounded there. -/
theorem ofScientific_nearest {n : ℕ} (hn : 0 < n) :
    IsNearest n (unpack64 (pack64 (UnpackedFloat.ofScientific Format.binary64 n 0))) := by
  have hshift : n <<< 53 * 10 ^ Int.toNat 0 = n <<< 53 := by simp
  have hmul : UnpackedFloat.ofScientific Format.binary64 n 0 =
      roundWithAccuracy Format.binary64 .positive (n <<< 53) (-53) .exact := by
    unfold UnpackedFloat.ofScientific
    rw [dif_neg hn.ne', if_neg (by decide), if_neg, if_pos le_rfl]
    · change roundWithAccuracy Format.binary64 .positive (n <<< 53 * 10 ^ Int.toNat 0) (-53) .exact
        = _
      rw [hshift]
    · change ¬(0 : ℤ) < -(2 ^ 11 + (n.log2 : ℤ))
      omega
  have hvalue : ((n <<< 53 : ℕ) : ℚ) * 2 ^ (-53 : ℤ) = n := by
    have hshifted := shiftLeft_value n 53 0
    rwa [zpow_zero, mul_one, zero_sub] at hshifted
  have hpos : 0 < n <<< 53 := by
    rw [Nat.shiftLeft_eq]
    positivity
  have hplace := isPlace_log (-53) hpos
  rw [hvalue] at hplace
  have hlog : 53 ≤ (n <<< 53).log2 := by
    refine (Nat.le_log2 hpos.ne').mpr ?_
    rw [Nat.shiftLeft_eq]
    exact Nat.le_mul_of_pos_left _ hn
  rw [hmul]
  have hholds : Holds (.ofMantissaAndAccuracy (n <<< 53) .exact) (n / 2 ^ (-53 : ℤ)) := by
    rw [← hvalue, mul_div_cancel_right₀ _ (zpow_two_pos _).ne']
    exact holds_exact _
  have h := roundWithAccuracy_nearest .positive hplace (by omega) hholds
  simpa [signed_positive] using h.isNearest (by positivity)

/-- A count becomes the double nearest to it. -/
theorem ofNat_nearest (n : ℕ) : IsNearest n (read (Float.ofNat n)) := by
  change IsNearest n (read (Float.ofScientific n false 0))
  unfold Float.ofScientific
  by_cases h : n < 2 ^ 53 ∧ 0 ≤ 22
  · rw [dif_pos h]
    change IsNearest n (read (n.toUInt64.toFloat * Float.ofBits 0x3FF0000000000000))
    have hn := ofUInt64_nearest h.1
    have hfinite := hn.isFinite (canonical_read _) (by positivity) (count_lt_largest (by omega))
    -- The product with one is the rounding of what is rounded already.
    have hproduct := mul_nearest (canonical_read n.toUInt64.toFloat) (canonical_read _) hfinite
      (rfl : (read (Float.ofBits 0x3FF0000000000000)).isFinite = true)
    rw [value_one, mul_one, ← read_mul] at hproduct
    have hrounds := rounds_value (canonical_read _) hfinite
    have hrank := hproduct.2.unique hrounds
    exact ⟨hproduct.1, hrank ▸ hn.2⟩
  · rw [dif_neg h]
    exact ofScientific_nearest (by omega)

theorem rank_ofNat_zero : rank (read (Float.ofNat 0)) = 0 := by
  have h := (ofNat_nearest 0).2
  rw [Nat.cast_zero] at h
  exact h.unique rounds_zero

theorem isFinite_ofNat {n : ℕ} (hn : n ≤ 2 ^ 64) : (read (Float.ofNat n)).isFinite = true :=
  (ofNat_nearest n).isFinite (canonical_read _) (by positivity) (count_lt_largest hn)

end Stigmergy.Binary64
