import Stigmergy.Proofs.Binary64.Residue

/-!
# Operations on finite doubles

Each operation gives the double nearest to the exact result.

* `IsNearest`: a double is the one nearest to a rational.
* `add_nearest`, `sub_nearest`, `mul_nearest`, `div_nearest`: the four operations.
* `normalize_nearest`: an integer count of any place.
-/

namespace Stigmergy.Binary64

open Float.Model Float.Model.UnpackedFloat

theorem exists_isPlace {v : ℚ} (hv : 0 ≤ v) : ∃ p, IsPlace v p := by
  rcases hv.eq_or_lt with rfl | hpos
  · exact ⟨-1074, le_rfl, zpow_two_pos _, .inl rfl⟩
  · have hlow : (2 : ℚ) ^ Int.log 2 v ≤ v := by
      simpa using Int.zpow_log_le_self (b := 2) (by norm_num) hpos
    have hhigh : v < (2 : ℚ) ^ (Int.log 2 v + 1) := by
      simpa using Int.lt_zpow_succ_log_self (b := 2) (by norm_num) v
    refine ⟨max (Int.log 2 v - 52) (-1074), le_max_right _ _, ?_, ?_⟩
    · exact hhigh.trans_le (zpow_le_zpow_two (by omega))
    · rcases le_total (Int.log 2 v - 52) (-1074) with h | h
      · exact .inl (max_eq_right h)
      · exact .inr ((zpow_le_zpow_two (by omega)).trans hlow)

def IsNearest (v : ℚ) (u : UnpackedFloat) : Prop := u.isNaN = false ∧ Rounds v (rank u)

theorem HasSign.isNaN {s : Sign} {u : UnpackedFloat} (h : HasSign s u) : u.isNaN = false := by
  cases u <;> first | rfl | cases h

theorem IsNearest.of_value {u : UnpackedFloat} (hu : Canonical u) (hf : u.isFinite = true) :
    IsNearest (value u) u := by
  refine ⟨?_, rounds_value hu hf⟩
  cases u <;> first | rfl | cases hf

theorem IsNearest.isFinite {v : ℚ} {u : UnpackedFloat} (h : IsNearest v u) (hu : Canonical u)
    (hv : 0 ≤ v) (hlt : v < (2 ^ 53 - 1 / 2) * 2 ^ (971 : ℤ)) : u.isFinite = true := by
  obtain ⟨hnumber, hrounds⟩ := h
  have hlow := rounds_zero.mono hrounds hv
  have hhigh : rank u < topRank := by
    rcases hrounds with ⟨-, hnear⟩ | ⟨hneg, hnear⟩
    · exact hnear.lt_topRank hlt
    · have hnonneg := hnear.nonneg (by linarith)
      have : (0 : ℤ) < topRank := by decide
      omega
  rw [isFinite_iff_rank hu hnumber]
  exact ⟨by omega, hhigh⟩

def signed (s : Sign) (v : ℚ) : ℚ := s.apply 1 * v

theorem Result.isNearest {s : Sign} {v : ℚ} {u : UnpackedFloat} (h : Result s v u) (hv : 0 ≤ v) :
    IsNearest (signed s v) u := by
  obtain ⟨hs, n, hn, hrank⟩ := h
  refine ⟨hs.isNaN, ?_⟩
  rw [hrank]
  cases s
  · refine .inr ⟨?_, ?_⟩
    · simp only [signed, apply_negative]
      push_cast
      linarith
    · simpa [signed, apply_negative] using hn
  · refine .inl ⟨?_, ?_⟩
    · simpa [signed, apply_positive] using hv
    · simpa [signed, apply_positive] using hn

/-! ## Addition and subtraction -/

theorem isPlace_log {m : ℕ} (e : ℤ) (hm : 0 < m) :
    IsPlace (m * 2 ^ e) (max (m.log2 + e - 52) (-1074)) := by
  have hlog := (Nat.log2_eq_iff hm.ne').mp rfl
  have hlow : (2 : ℚ) ^ (m.log2 + e) ≤ m * 2 ^ e := by
    rw [zpow_two_add]
    exact mul_le_mul_of_nonneg_right (by exact_mod_cast hlog.1) (zpow_two_pos e).le
  have hhigh : (m * 2 ^ e : ℚ) < 2 ^ (m.log2 + 1 + e) := by
    rw [zpow_two_add]
    exact mul_lt_mul_of_pos_right (by exact_mod_cast hlog.2) (zpow_two_pos e)
  refine ⟨le_max_right _ _, hhigh.trans_le (zpow_le_zpow_two (by omega)), ?_⟩
  rcases le_total ((m.log2 : ℤ) + e - 52) (-1074) with h | h
  · exact .inl (max_eq_right h)
  · exact .inr ((zpow_le_zpow_two (by omega)).trans hlow)

theorem shiftLeft_value (m k : ℕ) (e : ℤ) :
    ((m <<< k : ℕ) : ℚ) * 2 ^ (e - k) = m * 2 ^ e := by
  rw [Nat.shiftLeft_eq, Nat.cast_mul, Nat.cast_pow, Nat.cast_ofNat, mul_assoc, ← zpow_natCast,
    ← zpow_two_add]
  congr 2
  omega

theorem round_nearest (s : Sign) {m : ℕ} (e : ℤ) (hm : 0 < m) :
    Result s (m * 2 ^ e) (unpack64 (pack64 (UnpackedFloat.round Format.binary64 s m e))) := by
  have hplace := isPlace_log e hm
  unfold UnpackedFloat.round decreaseExponent
  rw [targetExponent_eq]
  dsimp only
  refine roundWithAccuracy_nearest s hplace (by omega) ?_
  rw [← shiftLeft_value m (e - max (m.log2 + e - 52) (-1074)).toNat e,
    mul_div_cancel_right₀ _ (zpow_two_pos _).ne']
  exact holds_exact _

/-- An integer count of any place becomes the double nearest to it. -/
theorem normalize_nearest (m e : ℤ) :
    IsNearest (m * 2 ^ e)
      (unpack64 (pack64 (UnpackedFloat.normalize Format.binary64 m e .positive))) := by
  unfold UnpackedFloat.normalize
  rcases lt_trichotomy m 0 with hm | rfl | hm
  · rw [compare_lt_iff_lt.mpr hm]
    obtain ⟨n, rfl⟩ : ∃ n : ℕ, m = -n := ⟨m.natAbs, by omega⟩
    have h := (round_nearest .negative e (m := n) (by omega)).isNearest (by positivity)
    simpa [signed, apply_negative] using h
  · rw [compare_eq_iff_eq.mpr rfl]
    dsimp only
    rw [unpack_pack_zero]
    exact ⟨rfl, by simpa using rounds_zero⟩
  · rw [compare_gt_iff_gt.mpr hm]
    obtain ⟨n, rfl⟩ : ∃ n : ℕ, m = n := ⟨m.natAbs, by omega⟩
    have h := (round_nearest .positive e (m := n) (by omega)).isNearest (by positivity)
    simpa [signed, apply_positive] using h

theorem decrease_left (m : ℕ) (e f : ℤ) :
    ((m <<< (e - min e f).toNat : ℕ) : ℚ) * 2 ^ min e f = m * 2 ^ e := by
  have := shiftLeft_value m (e - min e f).toNat e
  rwa [show e - (e - min e f).toNat = min e f by omega] at this

theorem apply_cast (s : Sign) (m : ℕ) : ((s.apply m : ℤ) : ℚ) = s.apply 1 * m := by
  cases s <;> simp [apply_negative, apply_positive]

theorem add_nearest {u w : UnpackedFloat} (hu : Canonical u) (hw : Canonical w)
    (huf : u.isFinite = true) (hwf : w.isFinite = true) :
    IsNearest (value u + value w) (unpack64 (pack64 (UnpackedFloat.add Format.binary64 u w))) := by
  cases u with
  | infinity | notANumber => cases huf
  | zero s =>
    cases w with
    | infinity | notANumber => cases hwf
    | zero t =>
      simp only [UnpackedFloat.add]
      split <;> rw [unpack_pack_zero] <;> exact ⟨rfl, by simpa using rounds_zero⟩
    | finite t n q hn =>
      simp only [UnpackedFloat.add]
      rw [unpack_pack hw, value_zero, zero_add]
      exact .of_value hw rfl
  | finite s m p hm =>
    cases w with
    | infinity | notANumber => cases hwf
    | zero t =>
      simp only [UnpackedFloat.add]
      rw [unpack_pack hu]
      simpa using IsNearest.of_value hu rfl
    | finite t n q hn =>
      simp only [UnpackedFloat.add, decreaseExponent]
      have h := normalize_nearest (s.apply (m <<< (p - min p q).toNat : ℕ) +
        t.apply (n <<< (q - min p q).toNat : ℕ)) (min p q)
      have hm := decrease_left m p q
      have hn := decrease_left n q p
      rw [min_comm] at hn
      rw [Int.cast_add, apply_cast, apply_cast, add_mul, mul_assoc, mul_assoc, hm, hn,
        ← mul_assoc, ← mul_assoc, ← apply_cast, ← apply_cast] at h
      exact h

theorem sub_nearest {u w : UnpackedFloat} (hu : Canonical u) (hw : Canonical w)
    (huf : u.isFinite = true) (hwf : w.isFinite = true) :
    IsNearest (value u - value w) (unpack64 (pack64 (UnpackedFloat.sub Format.binary64 u w))) := by
  cases u with
  | infinity | notANumber => cases huf
  | zero s =>
    cases w with
    | infinity | notANumber => cases hwf
    | zero t =>
      simp only [UnpackedFloat.sub]
      split <;> rw [unpack_pack_zero] <;> exact ⟨rfl, by simpa using rounds_zero⟩
    | finite t n q hn =>
      simp only [UnpackedFloat.sub]
      have hneg : Canonical (.finite (-t) n q hn) := hw
      rw [unpack_pack hneg, value_zero, zero_sub]
      refine ⟨rfl, ?_⟩
      have hrank : rank (.finite (-t) n q hn) = -rank (.finite t n q hn) := by
        cases t
        · exact (neg_neg _).symm
        · rfl
      rw [hrank]
      exact (rounds_value hw rfl).neg
  | finite s m p hm =>
    cases w with
    | infinity | notANumber => cases hwf
    | zero t =>
      simp only [UnpackedFloat.sub]
      rw [unpack_pack hu]
      simpa using IsNearest.of_value hu rfl
    | finite t n q hn =>
      simp only [UnpackedFloat.sub, decreaseExponent]
      have h := normalize_nearest (s.apply (m <<< (p - min p q).toNat : ℕ) -
        t.apply (n <<< (q - min p q).toNat : ℕ)) (min p q)
      have hm := decrease_left m p q
      have hn := decrease_left n q p
      rw [min_comm] at hn
      rw [Int.cast_sub, apply_cast, apply_cast, sub_mul, mul_assoc, mul_assoc, hm, hn,
        ← mul_assoc, ← mul_assoc, ← apply_cast, ← apply_cast] at h
      exact h

/-! ## Multiplication and division -/

theorem mul_result {m n : ℕ} {p q : ℤ} (s : Sign) (hm : 0 < m) (hn : 0 < n) (hfm : Fields m p)
    (hfn : Fields n q) :
    Result s (m * 2 ^ p * (n * 2 ^ q))
      (unpack64 (pack64 (roundWithAccuracy Format.binary64 s (m * n) (p + q) .exact))) := by
  have hvalue : (m * 2 ^ p * (n * 2 ^ q) : ℚ) = (m * n : ℕ) * 2 ^ (p + q) := by
    rw [zpow_two_add]
    push_cast
    ring
  rw [hvalue]
  refine roundWithAccuracy_nearest s (isPlace_log (p + q) (Nat.mul_pos hm hn)) ?_ ?_
  · have hp := hfm.place_ge
    have hq := hfn.place_ge
    -- A product has 53 bits unless both factors are below the normal doubles.
    have hbits (h : 2 ^ 52 ≤ m * n) : 52 ≤ (m * n).log2 :=
      (Nat.le_log2 (Nat.mul_pos hm hn).ne').mpr h
    rcases hfm.normal with h | rfl
    · have := hbits (h.trans (Nat.le_mul_of_pos_right m hn))
      omega
    · rcases hfn.normal with h | rfl
      · have := hbits (h.trans (Nat.le_mul_of_pos_left n hm))
        omega
      · omega
  · rw [mul_div_cancel_right₀ _ (zpow_two_pos _).ne']
    exact holds_exact _

theorem holds_fraction (a : ℕ) {b : ℕ} (hb : 0 < b) :
    Holds (.ofMantissaAndAccuracy (a / b) (accuracyOfFraction (a % b) b)) (a / b : ℚ) := by
  have hb' : (0 : ℚ) < b := by exact_mod_cast hb
  have hlt : ((a % b : ℕ) : ℚ) < b := by exact_mod_cast Nat.mod_lt a hb
  have hsplit : (a / b : ℚ) = (a / b : ℕ) + (a % b : ℕ) / b := by
    rw [eq_comm, ← mul_left_inj' hb'.ne', add_mul, div_mul_cancel₀ _ hb'.ne',
      div_mul_cancel₀ _ hb'.ne']
    exact_mod_cast Nat.div_add_mod' a b
  rw [hsplit]
  unfold accuracyOfFraction
  split_ifs with hzero
  · rw [hzero]
    simp [Holds, ExtendedMantissa.ofMantissaAndAccuracy]
  · have hpos : (0 : ℚ) < (a % b : ℕ) / b :=
      div_pos (by exact_mod_cast Nat.pos_of_ne_zero hzero) hb'
    rcases lt_trichotomy (2 * (a % b)) b with h | h | h
    · rw [compare_lt_iff_lt.mpr h]
      have : ((a % b : ℕ) : ℚ) / b < 1 / 2 := by
        rw [div_lt_div_iff₀ hb' two_pos]
        exact_mod_cast (by omega : a % b * 2 < 1 * b)
      exact ⟨lt_add_of_pos_right _ hpos, add_lt_add_right this _⟩
    · rw [compare_eq_iff_eq.mpr h]
      have : ((a % b : ℕ) : ℚ) / b = 1 / 2 := by
        rw [div_eq_div_iff hb'.ne' two_ne_zero]
        exact_mod_cast (by omega : a % b * 2 = 1 * b)
      exact congrArg (_ + ·) this
    · rw [compare_gt_iff_gt.mpr h]
      have half : 1 / 2 < ((a % b : ℕ) : ℚ) / b := by
        rw [div_lt_div_iff₀ two_pos hb']
        exact_mod_cast (by omega : 1 * b < a % b * 2)
      have : ((a % b : ℕ) : ℚ) / b < 1 := by rwa [div_lt_one hb']
      exact ⟨add_lt_add_right half _, add_lt_add_right this _⟩

/-- A quotient's place is not below the one at which the division stops. -/
theorem target_le_place {m n : ℕ} {p q r : ℤ} (hm : 0 < m) (hn : 0 < n)
    (hr : IsPlace (m * 2 ^ p / (n * 2 ^ q)) r) :
    Format.binary64.targetExponent (totalExponent m p - totalExponent n q) ≤ r := by
  have hmlog := (Nat.log2_eq_iff hm.ne').mp rfl
  have hnlog := (Nat.log2_eq_iff hn.ne').mp rfl
  have hlow : (2 : ℚ) ^ (m.log2 + p) ≤ m * 2 ^ p := by
    rw [zpow_two_add]
    exact mul_le_mul_of_nonneg_right (by exact_mod_cast hmlog.1) (zpow_two_pos p).le
  have hhigh : (n * 2 ^ q : ℚ) < 2 ^ (n.log2 + 1 + q) := by
    rw [zpow_two_add]
    exact mul_lt_mul_of_pos_right (by exact_mod_cast hnlog.2) (zpow_two_pos q)
  have hpos : (0 : ℚ) < n * 2 ^ q := mul_pos (by exact_mod_cast hn) (zpow_two_pos q)
  have hlt : (2 : ℚ) ^ ((m.log2 : ℤ) + p) < 2 ^ (r + 53 + (n.log2 + 1 + q)) := by
    calc (2 : ℚ) ^ ((m.log2 : ℤ) + p) ≤ m * 2 ^ p := hlow
      _ < 2 ^ (r + 53) * (n * 2 ^ q) := (div_lt_iff₀ hpos).mp hr.value_lt
      _ ≤ 2 ^ (r + 53) * 2 ^ ((n.log2 : ℤ) + 1 + q) :=
        mul_le_mul_of_nonneg_left hhigh.le (zpow_two_pos _).le
      _ = _ := (zpow_two_add _ _).symm
  have hexp := (zpow_lt_zpow_iff_right₀ (by norm_num : (1 : ℚ) < 2)).mp hlt
  have hge := hr.place_ge
  have hmin : Format.binary64.minExponent = -1074 := rfl
  have hbits : (Format.binary64.mantissaBits : ℤ) = 53 := rfl
  simp only [Format.targetExponent, totalExponent, hmin, hbits]
  omega

theorem div_result {m n : ℕ} (p q : ℤ) (s : Sign) (hm : 0 < m) (hn : 0 < n) :
    let core := divCore Format.binary64 m p n q
    Result s (m * 2 ^ p / (n * 2 ^ q))
      (unpack64 (pack64 (roundWithAccuracy Format.binary64 s core.1 core.2.1 core.2.2))) := by
  intro core
  have hn' : (0 : ℚ) < n := by exact_mod_cast hn
  obtain ⟨r, hr⟩ := exists_isPlace (v := m * 2 ^ p / (n * 2 ^ q)) (by positivity)
  set e := min (p - q)
    (Format.binary64.targetExponent (totalExponent m p - totalExponent n q)) with he
  have hcore : core = (m <<< (p - q - e).toNat / n, e,
      accuracyOfFraction (m <<< (p - q - e).toNat % n) n) := rfl
  rw [hcore]
  refine roundWithAccuracy_nearest s hr ((min_le_right _ _).trans (target_le_place hm hn hr)) ?_
  have hshift : (m * 2 ^ p / (n * 2 ^ q) / 2 ^ e : ℚ) = (m <<< (p - q - e).toNat : ℕ) / n := by
    have h := shiftLeft_value m (p - q - e).toNat (p - q)
    rw [show p - q - (p - q - e).toNat = e by omega] at h
    rw [eq_div_iff hn'.ne', div_mul_eq_mul_div, div_eq_iff (zpow_two_pos e).ne', h,
      zpow_sub₀ two_ne_zero]
    field_simp
  rw [hshift]
  exact holds_fraction _ hn

theorem signed_negative (v : ℚ) : signed .negative v = -v := by simp [signed, apply_negative]

theorem signed_positive (v : ℚ) : signed .positive v = v := by simp [signed, apply_positive]

theorem signed_mul (s t : Sign) (v w : ℚ) : signed (s * t) (v * w) = signed s v * signed t w := by
  cases s <;> cases t
  · change signed .positive _ = _
    simp only [signed_negative, signed_positive, neg_mul_neg]
  · change signed .negative _ = _
    simp only [signed_negative, signed_positive, neg_mul]
  · change signed .negative _ = _
    simp only [signed_negative, signed_positive, mul_neg]
  · change signed .positive _ = _
    simp only [signed_positive]

theorem signed_div (s t : Sign) (v w : ℚ) : signed (s / t) (v / w) = signed s v / signed t w := by
  cases s <;> cases t
  · change signed .positive _ = _
    simp only [signed_negative, signed_positive, neg_div_neg_eq]
  · change signed .negative _ = _
    simp only [signed_negative, signed_positive, neg_div]
  · change signed .negative _ = _
    simp only [signed_negative, signed_positive, div_neg]
  · change signed .positive _ = _
    simp only [signed_positive]

theorem value_eq_signed (s : Sign) (m : ℕ) (p : ℤ) (hm : 0 < m) :
    value (.finite s m p hm) = signed s (m * 2 ^ p) := by
  rw [value_finite, apply_cast, signed, mul_assoc]

theorem mul_nearest {u w : UnpackedFloat} (hu : Canonical u) (hw : Canonical w)
    (huf : u.isFinite = true) (hwf : w.isFinite = true) :
    IsNearest (value u * value w) (unpack64 (pack64 (UnpackedFloat.mul Format.binary64 u w))) := by
  have zero (s : Sign) : IsNearest 0 (unpack64 (pack64 (.zero s))) := by
    rw [unpack_pack_zero]
    exact ⟨rfl, rounds_zero⟩
  cases u with
  | infinity | notANumber => cases huf
  | zero s =>
    rw [value_zero, zero_mul]
    cases w with
    | infinity | notANumber => cases hwf
    | zero t => exact zero _
    | finite t n q hn => exact zero _
  | finite s m p hm =>
    cases w with
    | infinity | notANumber => cases hwf
    | zero t =>
      rw [value_zero, mul_zero]
      exact zero _
    | finite t n q hn =>
      rw [value_eq_signed, value_eq_signed, ← signed_mul]
      exact (mul_result (s * t) hm hn hu.1 hw.1).isNearest (by positivity)

theorem div_nearest {u w : UnpackedFloat} (huf : u.isFinite = true) (hwf : w.isFinite = true)
    (hw : value w ≠ 0) :
    IsNearest (value u / value w) (unpack64 (pack64 (UnpackedFloat.div Format.binary64 u w))) := by
  cases w with
  | infinity | notANumber => cases hwf
  | zero t => exact absurd rfl hw
  | finite t n q hn =>
    cases u with
    | infinity | notANumber => cases huf
    | zero s =>
      rw [value_zero, zero_div]
      change IsNearest 0 (unpack64 (pack64 (.zero _)))
      rw [unpack_pack_zero]
      exact ⟨rfl, rounds_zero⟩
    | finite s m p hm =>
      rw [value_eq_signed, value_eq_signed, ← signed_div]
      exact (div_result p q (s / t) hm hn).isNearest (by positivity)

end Stigmergy.Binary64
