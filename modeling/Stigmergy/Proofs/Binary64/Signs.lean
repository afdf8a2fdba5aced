import Stigmergy.Proofs.Binary64.Operations

/-!
# Signs of results

What an operation does with infinities and zeros, for doubles that are not below zero.

* `unpack_sum`, `unpack_difference`: a rounded result, or an infinity.
* `one_le_rank_sub`: the difference of different doubles is not rounded to zero.
* `NotBelow`: not below zero, if a number at all; products and quotients keep it.
-/

namespace Stigmergy.Binary64

open Float.Model Float.Model.UnpackedFloat

variable {u w : UnpackedFloat}

/-! ## Sums and differences -/

theorem finite_or_infinity (hn : u.isNaN = false) (h : 0 ≤ rank u) :
    u.isFinite = true ∨ u = .infinity .positive := by
  cases u with
  | infinity s =>
    cases s
    · exact absurd h (by decide)
    · exact .inr rfl
  | notANumber => cases hn
  | zero | finite => exact .inl rfl

theorem unpack_sum (hu : Canonical u) (hw : Canonical w) (hun : u.isNaN = false)
    (hwn : w.isNaN = false) (hu0 : 0 ≤ rank u) (hw0 : 0 ≤ rank w) :
    (u.isFinite = true ∧ w.isFinite = true ∧
      IsNearest (value u + value w)
        (unpack64 (pack64 (UnpackedFloat.add Format.binary64 u w)))) ∨
    unpack64 (pack64 (UnpackedFloat.add Format.binary64 u w)) = .infinity .positive := by
  rcases finite_or_infinity hun hu0 with huf | rfl
  · rcases finite_or_infinity hwn hw0 with hwf | rfl
    · exact .inl ⟨huf, hwf, add_nearest hu hw huf hwf⟩
    · cases u with
      | infinity | notANumber => cases huf
      | zero | finite => exact .inr (unpack_pack_infinity _)
  · cases w with
    | notANumber => cases hwn
    | infinity t =>
      cases t
      · exact absurd hw0 (by decide)
      · exact .inr (unpack_pack_infinity _)
    | zero | finite => exact .inr (unpack_pack_infinity _)

/-- Every finite double is a whole number of the smallest one. -/
theorem exists_smallest_mul (hu : Canonical u) (hf : u.isFinite = true) :
    ∃ k : ℤ, value u = k * 2 ^ (-1074 : ℤ) := by
  cases u with
  | infinity | notANumber => cases hf
  | zero => exact ⟨0, by simp⟩
  | finite s m p =>
    have hp := hu.1.place_ge
    obtain ⟨d, hd⟩ : ∃ d : ℕ, p = d + -1074 := ⟨(p + 1074).toNat, by omega⟩
    refine ⟨s.apply m * 2 ^ d, ?_⟩
    rw [value_finite, hd, zpow_two_add, zpow_natCast, ← mul_assoc, Int.cast_mul, Int.cast_pow]
    rfl

theorem smallest_nearest : Nearest (2 ^ (-1074 : ℤ)) 1 := by
  have h : Fields 1 (-1074) := ⟨by norm_num, le_rfl, .inr rfl⟩
  have hnear := h.nearest
  rwa [Nat.cast_one, one_mul] at hnear

/-- The rounded difference of different doubles is not zero: it has no fewer places than they. -/
theorem one_le_rank_sub {r : ℤ} (hu : Canonical u) (hw : Canonical w) (huf : u.isFinite = true)
    (hwf : w.isFinite = true) (h : rank w < rank u) (hr : Rounds (value u - value w) r) :
    1 ≤ r := by
  have hlt := value_lt_value hw hu hwf huf h
  obtain ⟨k, hk⟩ := exists_smallest_mul hu huf
  obtain ⟨l, hl⟩ := exists_smallest_mul hw hwf
  have hpos := zpow_two_pos (-1074)
  rw [hk, hl] at hlt
  have hkl : l + 1 ≤ k := by
    have := lt_of_mul_lt_mul_right hlt hpos.le
    exact_mod_cast this
  have hsmallest : (2 : ℚ) ^ (-1074 : ℤ) ≤ value u - value w := by
    have : (1 : ℚ) ≤ k - l := by
      have : ((l + 1 : ℤ) : ℚ) ≤ k := by exact_mod_cast hkl
      push_cast at this
      linarith
    calc (2 : ℚ) ^ (-1074 : ℤ) = 1 * 2 ^ (-1074 : ℤ) := (one_mul _).symm
      _ ≤ (k - l) * 2 ^ (-1074 : ℤ) := mul_le_mul_of_nonneg_right this hpos.le
      _ = _ := by rw [hk, hl]; ring
  exact Rounds.mono (.inl ⟨hpos.le, smallest_nearest⟩) hr hsmallest

/-- A difference that the order makes at least zero. -/
theorem unpack_difference (hu : Canonical u) (hw : Canonical w) (hun : u.isNaN = false)
    (hwf : w.isFinite = true) (h : rank w ≤ rank u) :
    (u.isFinite = true ∧
      IsNearest (value u - value w)
        (unpack64 (pack64 (UnpackedFloat.sub Format.binary64 u w)))) ∨
    unpack64 (pack64 (UnpackedFloat.sub Format.binary64 u w)) = .infinity .positive := by
  cases u with
  | notANumber => cases hun
  | zero | finite => exact .inl ⟨rfl, sub_nearest hu hw rfl hwf⟩
  | infinity s =>
    cases s
    · have hlow := ((isFinite_iff_rank hw (by cases w <;> first | rfl | cases hwf)).mp hwf).1
      exact absurd h (not_le.mpr hlow)
    · cases w with
      | infinity | notANumber => cases hwf
      | zero | finite => exact .inr (unpack_pack_infinity _)

/-- A difference that the order makes at most zero. -/
theorem unpack_difference_neg (hu : Canonical u) (hw : Canonical w) (huf : u.isFinite = true)
    (hwn : w.isNaN = false) (h : rank u ≤ rank w) :
    (w.isFinite = true ∧
      IsNearest (value u - value w)
        (unpack64 (pack64 (UnpackedFloat.sub Format.binary64 u w)))) ∨
    unpack64 (pack64 (UnpackedFloat.sub Format.binary64 u w)) = .infinity .negative := by
  cases w with
  | notANumber => cases hwn
  | zero | finite => exact .inl ⟨rfl, sub_nearest hu hw huf rfl⟩
  | infinity s =>
    cases s
    · have hlow := ((isFinite_iff_rank hu (by cases u <;> first | rfl | cases huf)).mp huf).1
      exact absurd h (not_le.mpr hlow)
    · cases u with
      | infinity | notANumber => cases huf
      | zero | finite => exact .inr (unpack_pack_infinity _)

/-! ## Products and quotients -/

/-- Not below zero, if a number at all. -/
def NotBelow (u : UnpackedFloat) : Prop := u.isNaN = false → 0 ≤ rank u

theorem NotBelow.cases (h : NotBelow u) :
    u = .notANumber ∨ u = .infinity .positive ∨ u.isFinite = true ∧ 0 ≤ rank u := by
  by_cases hn : u.isNaN = false
  · rcases finite_or_infinity hn (h hn) with hf | rfl
    · exact .inr (.inr ⟨hf, h hn⟩)
    · exact .inr (.inl rfl)
  · cases u with
    | notANumber => exact .inl rfl
    | _ => exact absurd rfl hn

theorem IsNearest.notBelow {v : ℚ} (h : IsNearest v u) (hv : 0 ≤ v) : NotBelow u :=
  fun _ => rounds_zero.mono h.2 hv

theorem notBelow_infinity : NotBelow (unpack64 (pack64 (.infinity .positive))) := by
  rw [unpack_pack_infinity]
  exact fun _ => by decide

theorem notBelow_zero (s : Sign) : NotBelow (unpack64 (pack64 (.zero s))) := by
  rw [unpack_pack_zero]
  exact fun _ => le_rfl

theorem isNaN_notANumber : (unpack64 (pack64 .notANumber)).isNaN = true := by decide

theorem notBelow_notANumber : NotBelow (unpack64 (pack64 .notANumber)) := by
  rw [unpack_pack_notANumber]
  exact fun h => by cases h

/-- The sign of a finite double that is not below zero, unless it is a zero. -/
theorem zero_or_positive (hu : Canonical u) (hf : u.isFinite = true) (h : 0 ≤ rank u) :
    (∃ s, u = .zero s) ∨ ∃ m p hm, u = .finite .positive m p hm := by
  cases u with
  | infinity | notANumber => cases hf
  | zero s => exact .inl ⟨s, rfl⟩
  | finite s m p hm =>
    cases s
    · have := hu.1.rank_pos hm
      simp only [rank, apply_negative] at h
      omega
    · exact .inr ⟨m, p, hm, rfl⟩

theorem positive_of_rank_pos (hu : Canonical u) (hf : u.isFinite = true) (h : 0 < rank u) :
    ∃ m p hm, u = .finite .positive m p hm := by
  rcases zero_or_positive hu hf h.le with ⟨s, rfl⟩ | hpos
  · exact absurd h (lt_irrefl _)
  · exact hpos

theorem notBelow_mul (hu : Canonical u) (hw : Canonical w) (hun : NotBelow u) (hwn : NotBelow w) :
    NotBelow (unpack64 (pack64 (UnpackedFloat.mul Format.binary64 u w))) := by
  rcases hun.cases with rfl | rfl | ⟨huf, hu0⟩
  · exact notBelow_notANumber
  · rcases hwn.cases with rfl | rfl | ⟨hwf, hw0⟩
    · exact notBelow_notANumber
    · exact notBelow_infinity
    · rcases zero_or_positive hw hwf hw0 with ⟨s, rfl⟩ | ⟨m, p, hm, rfl⟩
      · exact notBelow_notANumber
      · exact notBelow_infinity
  · rcases hwn.cases with rfl | rfl | ⟨hwf, hw0⟩
    · cases u <;> exact notBelow_notANumber
    · rcases zero_or_positive hu huf hu0 with ⟨s, rfl⟩ | ⟨m, p, hm, rfl⟩
      · exact notBelow_notANumber
      · exact notBelow_infinity
    · exact (mul_nearest hu hw huf hwf).notBelow
        (mul_nonneg (value_nonneg hu huf hu0) (value_nonneg hw hwf hw0))

theorem number_mul (hu : Canonical u) (hw : Canonical w) (hun : u.isNaN = false)
    (hwf : w.isFinite = true) (hw0 : 0 < rank w) :
    (unpack64 (pack64 (UnpackedFloat.mul Format.binary64 u w))).isNaN = false := by
  cases u with
  | notANumber => cases hun
  | infinity s =>
    obtain ⟨m, p, hm, rfl⟩ := positive_of_rank_pos hw hwf hw0
    change (unpack64 (pack64 (.infinity _))).isNaN = false
    rw [unpack_pack_infinity]
    rfl
  | zero | finite => exact (mul_nearest hu hw rfl hwf).1

theorem number_mul_left (hu : Canonical u) (hw : Canonical w) (huf : u.isFinite = true)
    (hu0 : 0 < rank u) (hwn : w.isNaN = false) :
    (unpack64 (pack64 (UnpackedFloat.mul Format.binary64 u w))).isNaN = false := by
  cases w with
  | notANumber => cases hwn
  | infinity s =>
    obtain ⟨m, p, hm, rfl⟩ := positive_of_rank_pos hu huf hu0
    change (unpack64 (pack64 (.infinity _))).isNaN = false
    rw [unpack_pack_infinity]
    rfl
  | zero | finite => exact (mul_nearest hu hw huf rfl).1

theorem notBelow_div (hu : Canonical u) (hw : Canonical w) (hun : NotBelow u)
    (hwn : w.isNaN = false) (hw0 : 0 < rank w) :
    NotBelow (unpack64 (pack64 (UnpackedFloat.div Format.binary64 u w))) := by
  rcases finite_or_infinity hwn hw0.le with hwf | rfl
  · have hv := value_pos hw hwf hw0
    obtain ⟨m, p, hm, rfl⟩ := positive_of_rank_pos hw hwf hw0
    rcases hun.cases with rfl | rfl | ⟨huf, hu0⟩
    · exact notBelow_notANumber
    · exact notBelow_infinity
    · exact (div_nearest huf hwf hv.ne').notBelow (div_nonneg (value_nonneg hu huf hu0) hv.le)
  · rcases hun.cases with rfl | rfl | ⟨huf, hu0⟩
    · exact notBelow_notANumber
    · exact notBelow_notANumber
    · rcases zero_or_positive hu huf hu0 with ⟨s, rfl⟩ | ⟨m, p, hm, rfl⟩
      · cases s <;> exact notBelow_zero _
      · exact notBelow_zero _

/-- Dividing by a zero without a sign gives infinity or no number. -/
theorem notBelow_div_zero (hu : Canonical u) (hun : NotBelow u) :
    NotBelow (unpack64 (pack64 (UnpackedFloat.div Format.binary64 u (.zero .positive)))) := by
  rcases hun.cases with rfl | rfl | ⟨huf, hu0⟩
  · exact notBelow_notANumber
  · exact notBelow_infinity
  · rcases zero_or_positive hu huf hu0 with ⟨s, rfl⟩ | ⟨m, p, hm, rfl⟩
    · exact notBelow_notANumber
    · exact notBelow_infinity

theorem zero_or_pos_of_sign (hu : Canonical u) (h : HasSign .positive u) :
    u = .zero .positive ∨ u.isNaN = false ∧ 0 < rank u := by
  cases u with
  | notANumber => exact absurd h id
  | infinity s =>
    cases h
    exact .inr ⟨rfl, by decide⟩
  | zero s =>
    cases h
    exact .inl rfl
  | finite s m p hm =>
    cases h
    exact .inr ⟨rfl, hu.1.rank_pos hm⟩

/-- Products of doubles above zero are not below it, and where they are zero it has no sign. -/
theorem unpack_product (hu : Canonical u) (hw : Canonical w) (hun : u.isNaN = false)
    (hwn : w.isNaN = false) (hu0 : 0 < rank u) (hw0 : 0 < rank w) :
    let r := unpack64 (pack64 (UnpackedFloat.mul Format.binary64 u w))
    r = .zero .positive ∨ r.isNaN = false ∧ 0 < rank r := by
  intro r
  have infinite (h : r = .infinity .positive) :
      r = .zero .positive ∨ r.isNaN = false ∧ 0 < rank r := by
    rw [h]
    exact .inr ⟨rfl, by decide⟩
  rcases finite_or_infinity hun hu0.le with huf | rfl
  · obtain ⟨m, p, hm, rfl⟩ := positive_of_rank_pos hu huf hu0
    rcases finite_or_infinity hwn hw0.le with hwf | rfl
    · obtain ⟨n, q, hn, rfl⟩ := positive_of_rank_pos hw hwf hw0
      have hresult : Result .positive _ r := mul_result .positive hm hn hu.1 hw.1
      exact zero_or_pos_of_sign (canonical_unpack _) hresult.1
    · exact infinite (unpack_pack_infinity _)
  · rcases finite_or_infinity hwn hw0.le with hwf | rfl
    · obtain ⟨n, q, hn, rfl⟩ := positive_of_rank_pos hw hwf hw0
      exact infinite (unpack_pack_infinity _)
    · exact infinite (unpack_pack_infinity _)

theorem number_div (hu : Canonical u) (hw : Canonical w) (hun : u.isNaN = false)
    (hwn : w.isNaN = false) (hw0 : 0 < rank w) (h : u.isFinite = true ∨ w.isFinite = true) :
    (unpack64 (pack64 (UnpackedFloat.div Format.binary64 u w))).isNaN = false := by
  rcases finite_or_infinity hwn hw0.le with hwf | rfl
  · have hv := value_pos hw hwf hw0
    obtain ⟨m, p, hm, rfl⟩ := positive_of_rank_pos hw hwf hw0
    cases u with
    | notANumber => cases hun
    | infinity s =>
      change (unpack64 (pack64 (.infinity _))).isNaN = false
      rw [unpack_pack_infinity]
      rfl
    | zero | finite => exact (div_nearest rfl hwf hv.ne').1
  · cases u with
    | notANumber => cases hun
    | infinity s => exact absurd h (by simp [UnpackedFloat.isFinite])
    | zero | finite =>
      change (unpack64 (pack64 (.zero _))).isNaN = false
      rw [unpack_pack_zero]
      rfl

theorem rank_div_le_one (hu : Canonical u) (hw : Canonical w) (huf : u.isFinite = true)
    (hwn : w.isNaN = false) (hw0 : 0 < rank w) (h : rank u ≤ rank w) {r : ℤ} (hr : Rounds 1 r) :
    rank (unpack64 (pack64 (UnpackedFloat.div Format.binary64 u w))) ≤ r := by
  rcases finite_or_infinity hwn hw0.le with hwf | rfl
  · have hv := value_pos hw hwf hw0
    refine (div_nearest huf hwf hv.ne').2.mono hr ?_
    rw [div_le_one hv]
    exact value_le_value hu hw huf hwf h
  · cases u with
    | infinity | notANumber => cases huf
    | zero | finite =>
      change rank (unpack64 (pack64 (.zero _))) ≤ r
      rw [unpack_pack_zero]
      exact rounds_zero.mono hr zero_le_one

end Stigmergy.Binary64
