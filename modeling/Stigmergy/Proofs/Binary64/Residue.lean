import Stigmergy.Proofs.Binary64.Packing

/-!
# Rounding with a residue

The operations on doubles shift a count to its place and keep two bits of what they drop. Those two
bits are enough to round as if nothing had been dropped.

* `Holds`: the rational that a count and its two bits stand for, as far as they tell.
* `Holds.roundedMantissa`: rounding by the two bits is rounding to the nearest, halves to even.
* `roundWithAccuracy_nearest`: the packed result of rounding is the double nearest to the value.
-/

namespace Stigmergy.Binary64

open Float.Model Float.Model.UnpackedFloat

/-- A count of a place holds `x` places: exactly, below the half, at the half, or above it. -/
def Holds (em : ExtendedMantissa) (x : ℚ) : Prop :=
  match em.roundBit, em.stickyBit with
  | false, false => x = em.mantissa
  | false, true => (em.mantissa : ℚ) < x ∧ x < em.mantissa + 1 / 2
  | true, false => x = em.mantissa + 1 / 2
  | true, true => (em.mantissa + 1 / 2 : ℚ) < x ∧ x < em.mantissa + 1

theorem holds_exact (m : ℕ) : Holds (.ofMantissaAndAccuracy m .exact) m := rfl

theorem Holds.floor {em : ExtendedMantissa} {x : ℚ} (h : Holds em x) :
    ⌊x⌋ = (em.mantissa : ℤ) := by
  obtain ⟨m, r, s⟩ := em
  rw [Int.floor_eq_iff]
  push_cast
  cases r <;> cases s <;> simp only [Holds] at h
  · subst h; constructor <;> linarith
  · exact ⟨by linarith [h.1], by linarith [h.2]⟩
  · subst h; constructor <;> linarith
  · exact ⟨by linarith [h.1], by linarith [h.2]⟩

theorem Holds.roundedMantissa {em : ExtendedMantissa} {x : ℚ} (h : Holds em x) :
    (em.roundedMantissa : ℤ) = nearestEven x := by
  have hfloor := h.floor
  obtain ⟨m, r, s⟩ := em
  unfold nearestEven
  rw [hfloor]
  push_cast
  cases r <;> cases s <;> simp only [Holds] at h <;>
    simp only [ExtendedMantissa.roundedMantissa, ExtendedMantissa.accuracy,
      Accuracy.roundToNearestEven]
  · rw [if_pos (by subst h; norm_num)]
  · rw [if_pos (by linarith [h.2])]
  · rw [if_neg (by subst h; norm_num), if_neg (by subst h; norm_num)]
    push_cast
    rfl
  · rw [if_neg (by linarith [h.1]), if_pos (by linarith [h.1])]
    push_cast
    rfl

/-- A place twice as large holds half as many, and the bit shifted out becomes the half. -/
theorem Holds.shiftRightOne {em : ExtendedMantissa} {x : ℚ} (h : Holds em x) :
    Holds em.shiftRightOne (x / 2) := by
  obtain ⟨m, r, s⟩ := em
  have hm : (m : ℚ) = 2 * (m / 2 : ℕ) + (m % 2 : ℕ) := by exact_mod_cast (Nat.div_add_mod m 2).symm
  rcases Nat.mod_two_eq_zero_or_one m with hr | hr <;> rw [hr] at hm <;> push_cast at hm <;>
    cases r <;> cases s <;> simp only [Holds] at h <;>
    simp only [ExtendedMantissa.shiftRightOne, Holds, hr, bne_self_eq_false, Nat.reduceBNe,
      Bool.or_false, Bool.or_true, Bool.or_self] <;>
    first | linarith | exact ⟨by linarith [h.1, h.2], by linarith [h.1, h.2]⟩ |
      exact ⟨by linarith, by linarith⟩

theorem Holds.shiftRight {em : ExtendedMantissa} {x : ℚ} (h : Holds em x) (n : ℕ) :
    Holds (em >>> n) (x / 2 ^ n) := by
  change Holds (n.repeat ExtendedMantissa.shiftRightOne em) _
  induction n with
  | zero => simpa [Nat.repeat] using h
  | succ n ih =>
    rw [Nat.repeat, pow_succ, ← div_div]
    exact ih.shiftRightOne

/-! ## The place of a value -/

theorem targetExponent_eq (m : ℕ) (e : ℤ) :
    Format.binary64.targetExponent (totalExponent m e) = max (m.log2 + e - 52) (-1074) := by
  have hmin : Format.binary64.minExponent = -1074 := rfl
  have hbits : (Format.binary64.mantissaBits : ℤ) = 53 := rfl
  simp only [Format.targetExponent, totalExponent, hmin, hbits]
  congr 1
  omega

/-- A count of a place not above that of its value finds the place of its value. -/
theorem IsPlace.target {v : ℚ} {p e : ℤ} {m : ℕ} (hp : IsPlace v p) (he : e ≤ p)
    (hm : ⌊v / 2 ^ e⌋ = (m : ℤ)) :
    max e (Format.binary64.targetExponent (totalExponent m e)) = p := by
  obtain ⟨hge, hlt, hlow⟩ := hp
  rw [targetExponent_eq]
  obtain ⟨hfloor, hceil⟩ := Int.floor_eq_iff.mp hm
  rw [le_div_iff₀ (zpow_two_pos e)] at hfloor
  rw [div_lt_iff₀ (zpow_two_pos e)] at hceil
  push_cast at hfloor hceil
  have below {a b : ℤ} (h : (2 : ℚ) ^ a < 2 ^ b) : a < b :=
    (zpow_lt_zpow_iff_right₀ (by norm_num)).mp h
  rcases Nat.eq_zero_or_pos m with rfl | hpos
  · have hp : p = -1074 := by
      refine hlow.resolve_right fun hle => ?_
      have := below (a := p + 52) (b := e) (by push_cast at hceil; linarith)
      omega
    rw [Nat.log2_zero]
    omega
  · have hlog : 2 ^ m.log2 ≤ m ∧ m + 1 ≤ 2 ^ (m.log2 + 1) := by
      have := (Nat.log2_eq_iff hpos.ne').mp rfl
      omega
    have hlo : (2 : ℚ) ^ (m.log2 + e) ≤ v := by
      refine le_trans ?_ hfloor
      rw [zpow_two_add]
      exact mul_le_mul_of_nonneg_right (by exact_mod_cast hlog.1) (zpow_two_pos e).le
    have hhi : v < (2 : ℚ) ^ (m.log2 + 1 + e) := by
      refine lt_of_lt_of_le hceil ?_
      rw [zpow_two_add]
      exact mul_le_mul_of_nonneg_right (by exact_mod_cast hlog.2) (zpow_two_pos e).le
    have := below (hlo.trans_lt hlt)
    rcases hlow with rfl | hlow
    · omega
    · have := below (hlow.trans_lt hhi)
      omega

theorem shiftToTargetExponent_eq {v : ℚ} {p e : ℤ} {m : ℕ} (acc : Accuracy)
    (hp : IsPlace v p) (he : e ≤ p) (hm : ⌊v / 2 ^ e⌋ = (m : ℤ)) :
    shiftToTargetExponent Format.binary64 m e acc =
      (ExtendedMantissa.ofMantissaAndAccuracy m acc >>> (p - e).toNat, p) := by
  have htarget := hp.target he hm
  have hshift : (Format.binary64.targetExponent (totalExponent m e) - e).toNat = (p - e).toNat := by
    omega
  simp only [shiftToTargetExponent, shiftToExponent, hshift]
  congr 1
  omega

theorem Holds.shift_to_place {em : ExtendedMantissa} {v : ℚ} {p e : ℤ} (h : Holds em (v / 2 ^ e))
    (he : e ≤ p) : Holds (em >>> (p - e).toNat) (v / 2 ^ p) := by
  have hshift := h.shiftRight (p - e).toNat
  have hpow : (2 : ℚ) ^ p = 2 ^ e * 2 ^ (p - e).toNat := by
    rw [← zpow_natCast, Int.toNat_of_nonneg (by omega), ← zpow_two_add]
    congr 1
    omega
  rwa [div_div, ← hpow] at hshift

/-- Packing a count and a place gives infinity from the rank of infinity on. -/
theorem rank_packed (s : Sign) {m : ℕ} {p : ℤ} (h : Fields m p) (hm : 0 < m) :
    HasSign s (unpack64 (pack64 (.finite s m p hm))) ∧
      rank (unpack64 (pack64 (.finite s m p hm))) = s.apply (min (fieldRank m p) topRank) := by
  rcases le_or_gt p 971 with hp | hp
  · rw [unpack_pack_finite s hm h hp, min_eq_left (h.rank_lt_topRank hp).le]
    exact ⟨rfl, rfl⟩
  · rw [unpack_pack_overflow s hm hp, min_eq_right (h.topRank_le hp)]
    exact ⟨rfl, rfl⟩

/-- A result of an operation: the sign, and the double nearest to a magnitude. -/
def Result (s : Sign) (v : ℚ) (u : UnpackedFloat) : Prop :=
  HasSign s u ∧ ∃ n, Nearest v n ∧ rank u = s.apply n

/-- Rounding may carry into a new bit; then the count moves up by one place, at the same rank. -/
theorem shift_carry {c : ℕ} {p : ℤ} (hc : c ≤ 2 ^ 53) (hp : -1074 ≤ p)
    (hnormal : 2 ^ 52 ≤ c ∨ p = -1074) :
    let shifted := shiftToTargetExponent Format.binary64 c p .exact
    Fields shifted.1.mantissa shifted.2 ∧
      fieldRank shifted.1.mantissa shifted.2 = fieldRank c p := by
  intro shifted
  rcases hc.lt_or_eq with hlt | rfl
  · have hlog : c.log2 ≤ 52 := by
      rcases Nat.eq_zero_or_pos c with rfl | h0
      · decide
      · have := (Nat.log2_lt h0.ne').mpr hlt
        omega
    have hzero : (Format.binary64.targetExponent (totalExponent c p) - p).toNat = 0 := by
      rw [targetExponent_eq]
      omega
    have heq : shifted = (.ofMantissaAndAccuracy c .exact, p) := by
      simp only [shifted, shiftToTargetExponent, shiftToExponent, hzero, Nat.cast_zero, add_zero]
      rfl
    rw [heq]
    exact ⟨⟨hlt, hp, hnormal⟩, rfl⟩
  · have hone : (Format.binary64.targetExponent (totalExponent (2 ^ 53) p) - p).toNat = 1 := by
      rw [targetExponent_eq, Nat.log2_two_pow]
      omega
    have heq : shifted = (.ofMantissaAndAccuracy (2 ^ 52) .exact, p + 1) := by
      simp only [shifted, shiftToTargetExponent, shiftToExponent, hone, Nat.cast_one]
      rfl
    rw [heq]
    refine ⟨⟨(by decide : 2 ^ 52 < 2 ^ 53), by omega, .inl le_rfl⟩, ?_⟩
    change (p + 1 + 1074) * 2 ^ 52 + ((2 ^ 52 : ℕ) : ℤ) = (p + 1074) * 2 ^ 52 + ((2 ^ 53 : ℕ) : ℤ)
    push_cast
    ring

/-- **Rounding is to the nearest.** Whatever count and bits stand for a value, their rounding,
packed, is the double nearest to it. -/
theorem roundWithAccuracy_nearest (s : Sign) {m : ℕ} {e p : ℤ} {acc : Accuracy} {v : ℚ}
    (hp : IsPlace v p) (he : e ≤ p)
    (h : Holds (.ofMantissaAndAccuracy m acc) (v / 2 ^ e)) :
    Result s v (unpack64 (pack64 (roundWithAccuracy Format.binary64 s m e acc))) := by
  have hfloor : ⌊v / 2 ^ e⌋ = (m : ℤ) := by
    rw [h.floor]
    cases acc with
    | exact => rfl
    | inexact o => cases o <;> rfl
  have hshift := shiftToTargetExponent_eq acc hp he hfloor
  have hround := (h.shift_to_place he).roundedMantissa
  unfold roundWithAccuracy
  rw [hshift]
  dsimp only
  generalize (ExtendedMantissa.ofMantissaAndAccuracy m acc >>> (p - e).toNat).roundedMantissa = c
    at hround ⊢
  have hc : c ≤ 2 ^ 53 := by
    have := hp.count_le
    omega
  have hnormal : 2 ^ 52 ≤ c ∨ p = -1074 := by
    refine or_iff_not_imp_right.mpr fun hne => ?_
    have := hp.le_count (lt_of_le_of_ne hp.place_ge (Ne.symm hne))
    omega
  obtain ⟨hfields, hrank⟩ := shift_carry hc hp.place_ge hnormal
  have hnear : Nearest v (min (fieldRank c p) topRank) := ⟨p, hp, by rw [← hround]; rfl⟩
  rw [← hrank] at hnear
  split_ifs with hzero
  · rw [unpack_pack_zero]
    rw [hzero] at hfields hnear
    have hlow := hfields.normal.resolve_left (by decide)
    refine ⟨rfl, 0, ?_, by cases s <;> rfl⟩
    simpa [fieldRank, hlow, topRank] using hnear
  · have hpacked := rank_packed s hfields (Nat.pos_of_ne_zero hzero)
    exact ⟨hpacked.1, _, hnear, hpacked.2⟩

end Stigmergy.Binary64
