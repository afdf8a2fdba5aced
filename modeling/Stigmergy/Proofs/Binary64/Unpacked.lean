import Mathlib
import Stigmergy.Proofs.Binary64.Nearest

/-!
# Unpacked doubles

* `Fields`: the counts and places that a finite double can have, each double once.
* `rank`, `value`: where a double stands in the row of all doubles, and the rational it is.
* `le_iff_rank`, `lt_iff_rank`: the order of doubles is that of their ranks.
* `value_lt_value`, `value_le_value`: among finite doubles it is that of their values.
* `Rounds.mono`, `Rounds.unique`: rounding keeps the order of rationals, and has one result.
-/

namespace Stigmergy.Binary64

open Float.Model Float.Model.UnpackedFloat

/-- A count below `2 ^ 53` of a place, and at least `2 ^ 52` of it above the lowest place. -/
structure Fields (m : ℕ) (p : ℤ) : Prop where
  count_lt : m < 2 ^ 53
  place_ge : -1074 ≤ p
  normal : 2 ^ 52 ≤ m ∨ p = -1074

def fieldRank (m : ℕ) (p : ℤ) : ℤ := (p + 1074) * 2 ^ 52 + m

theorem Fields.isPlace {m : ℕ} {p : ℤ} (h : Fields m p) : IsPlace (m * 2 ^ p) p := by
  have hpos := zpow_two_pos p
  refine ⟨h.place_ge, ?_, h.normal.symm.imp_right fun hm => ?_⟩
  · rw [add_comm, zpow_two_add]
    exact mul_lt_mul_of_pos_right (by exact_mod_cast h.count_lt) hpos
  · rw [add_comm, zpow_two_add]
    exact mul_le_mul_of_nonneg_right (by exact_mod_cast hm) hpos.le

theorem Fields.nearest {m : ℕ} {p : ℤ} (h : Fields m p) :
    Nearest (m * 2 ^ p) (min (fieldRank m p) topRank) := by
  refine ⟨p, h.isPlace, ?_⟩
  rw [mul_div_cancel_right₀ _ (zpow_two_pos p).ne', show (m : ℚ) = ((m : ℤ) : ℚ) by norm_cast,
    nearestEven_intCast]
  rfl

theorem Fields.rank_lt_topRank {m : ℕ} {p : ℤ} (h : Fields m p) (hp : p ≤ 971) :
    fieldRank m p < topRank := by
  have := h.count_lt
  unfold fieldRank topRank
  omega

theorem Fields.topRank_le {m : ℕ} {p : ℤ} (h : Fields m p) (hp : 971 < p) :
    topRank ≤ fieldRank m p := by
  have := h.normal.resolve_right (by omega)
  unfold fieldRank topRank
  omega

theorem Fields.rank_nonneg {m : ℕ} {p : ℤ} (h : Fields m p) : 0 ≤ fieldRank m p := by
  have := h.place_ge
  unfold fieldRank
  omega

theorem Fields.rank_pos {m : ℕ} {p : ℤ} (h : Fields m p) (hm : 0 < m) : 0 < fieldRank m p := by
  have := h.place_ge
  unfold fieldRank
  omega

/-- Places go before counts in the order of ranks. -/
theorem Fields.compare_eq {m n : ℕ} {p q : ℤ} (hm : Fields m p) (hn : Fields n q) :
    (compare p q).then (compare m n) = compare (fieldRank m p) (fieldRank n q) := by
  have := hm.count_lt
  have := hn.count_lt
  rcases lt_trichotomy p q with h | rfl | h
  · have := hn.normal.resolve_right (by have := hm.place_ge; omega)
    have hrank : fieldRank m p < fieldRank n q := by unfold fieldRank; omega
    rw [compare_lt_iff_lt.mpr h, compare_lt_iff_lt.mpr hrank, Ordering.lt_then]
  · rcases lt_trichotomy m n with h | rfl | h
    · have hrank : fieldRank m p < fieldRank n p := by unfold fieldRank; omega
      rw [compare_lt_iff_lt.mpr h, compare_lt_iff_lt.mpr hrank, compare_eq_iff_eq.mpr rfl,
        Ordering.eq_then]
    · simp
    · have hrank : fieldRank n p < fieldRank m p := by unfold fieldRank; omega
      rw [compare_gt_iff_gt.mpr h, compare_gt_iff_gt.mpr hrank, compare_eq_iff_eq.mpr rfl,
        Ordering.eq_then]
  · have := hm.normal.resolve_right (by have := hn.place_ge; omega)
    have hrank : fieldRank n q < fieldRank m p := by unfold fieldRank; omega
    rw [compare_gt_iff_gt.mpr h, compare_gt_iff_gt.mpr hrank, Ordering.gt_then]

/-- A rank has one count and one place. -/
theorem Fields.eq_of_rank_eq {m n : ℕ} {p q : ℤ} (hm : Fields m p) (hn : Fields n q)
    (h : fieldRank m p = fieldRank n q) : m = n ∧ p = q := by
  have hcompare := hm.compare_eq hn
  rw [h, compare_eq_iff_eq.mpr rfl, Ordering.then_eq_eq, compare_eq_iff_eq,
    compare_eq_iff_eq] at hcompare
  exact hcompare.symm

/-! ## Signed doubles -/

/-- Whether an unpacked double is one of the format. -/
def Canonical : UnpackedFloat → Prop
  | .finite _ m p _ => Fields m p ∧ p ≤ 971
  | _ => True

/-- The place of a double in the row of all, the zeros at zero. -/
def rank : UnpackedFloat → ℤ
  | .infinity s => s.apply topRank
  | .finite s m p _ => s.apply (fieldRank m p)
  | _ => 0

/-- The rational that a finite double is. -/
def value : UnpackedFloat → ℚ
  | .finite s m p _ => s.apply m * 2 ^ p
  | _ => 0

@[simp]
theorem rank_zero (s : Sign) : rank (.zero s) = 0 := rfl

@[simp]
theorem value_zero (s : Sign) : value (.zero s) = 0 := rfl

theorem value_finite (s : Sign) (m : ℕ) (p : ℤ) (hm : 0 < m) :
    value (.finite s m p hm) = s.apply m * 2 ^ p := rfl

/-- The sign of a number, kept by zeros too. -/
def HasSign (s : Sign) : UnpackedFloat → Prop
  | .infinity t | .zero t | .finite t .. => t = s
  | .notANumber => False

theorem apply_negative (n : ℤ) : Sign.negative.apply n = -n := rfl

theorem apply_positive (n : ℤ) : Sign.positive.apply n = n := rfl

theorem rank_bounds {u : UnpackedFloat} (hu : Canonical u) :
    -topRank ≤ rank u ∧ rank u ≤ topRank := by
  have htop : 0 ≤ topRank := by decide
  cases u with
  | infinity s => cases s <;> simp only [rank, apply_negative, apply_positive] <;> omega
  | notANumber | zero => simp only [rank]; omega
  | finite s m p =>
    have := hu.1.rank_lt_topRank hu.2
    have := hu.1.rank_nonneg
    cases s <;> simp only [rank, apply_negative, apply_positive] <;> omega

theorem isFinite_iff_rank {u : UnpackedFloat} (hu : Canonical u) (hn : u.isNaN = false) :
    u.isFinite = true ↔ -topRank < rank u ∧ rank u < topRank := by
  have htop : 0 < topRank := by decide
  cases u with
  | infinity s => cases s <;> simp [UnpackedFloat.isFinite, rank, apply_negative, apply_positive]
  | notANumber => cases hn
  | zero => simp [UnpackedFloat.isFinite, rank, htop]
  | finite s m p =>
    have := hu.1.rank_lt_topRank hu.2
    have := hu.1.rank_nonneg
    refine ⟨fun _ => ?_, fun _ => rfl⟩
    cases s <;> simp only [rank, apply_negative, apply_positive] <;> omega

theorem compare_neg_neg (a b : ℤ) : compare (-a) (-b) = (compare a b).swap := by
  rcases lt_trichotomy a b with h | rfl | h
  · rw [compare_lt_iff_lt.mpr h, compare_gt_iff_gt.mpr (neg_lt_neg h), Ordering.swap_lt]
  · simp
  · rw [compare_gt_iff_gt.mpr h, compare_lt_iff_lt.mpr (neg_lt_neg h), Ordering.swap_gt]

/-- Numbers are compared by their ranks. -/
theorem compare_eq_rank {u w : UnpackedFloat} (hu : Canonical u) (hw : Canonical w)
    (hun : u.isNaN = false) (hwn : w.isNaN = false) :
    u.compare w = some (compare (rank u) (rank w)) := by
  have htop : 0 < topRank := by decide
  have lt {a b : ℤ} (h : a < b) : some Ordering.lt = some (compare a b) := by
    rw [compare_lt_iff_lt.mpr h]
  have gt {a b : ℤ} (h : b < a) : some Ordering.gt = some (compare a b) := by
    rw [compare_gt_iff_gt.mpr h]
  cases u with
  | notANumber => cases hun
  | infinity s =>
    cases w with
    | notANumber => cases hwn
    | infinity t => cases s <;> cases t <;> decide
    | zero t =>
      cases s
      · exact lt (by simp only [rank, apply_negative]; omega)
      · exact gt (by simp only [rank, apply_positive]; omega)
    | finite t n q =>
      have := hw.1.rank_lt_topRank hw.2
      have := hw.1.rank_nonneg
      cases s
      · exact lt (by cases t <;> simp only [rank, apply_negative, apply_positive] <;> omega)
      · exact gt (by cases t <;> simp only [rank, apply_negative, apply_positive] <;> omega)
  | zero s =>
    cases w with
    | notANumber => cases hwn
    | infinity t =>
      cases t
      · exact gt (by simp only [rank, apply_negative]; omega)
      · exact lt (by simp only [rank, apply_positive]; omega)
    | zero t => simp [UnpackedFloat.compare, rank]
    | finite t n q hn =>
      have := hw.1.rank_pos hn
      cases t
      · exact gt (by simp only [rank, apply_negative]; omega)
      · exact lt (by simp only [rank, apply_positive]; omega)
  | finite s m p hm =>
    have := hu.1.rank_pos hm
    have := hu.1.rank_lt_topRank hu.2
    cases w with
    | notANumber => cases hwn
    | infinity t =>
      cases t
      · cases s <;> exact gt (by simp only [rank, apply_negative, apply_positive]; omega)
      · cases s <;> exact lt (by simp only [rank, apply_negative, apply_positive]; omega)
    | zero t =>
      cases s
      · exact lt (by simp only [rank, apply_negative]; omega)
      · exact gt (by simp only [rank, apply_positive]; omega)
    | finite t n q hn =>
      have := hw.1.rank_pos hn
      have same := hu.1.compare_eq hw.1
      cases s <;> cases t
      · simp only [UnpackedFloat.compare, rank, apply_negative, compare_neg_neg, same]
      · exact lt (by simp only [rank, apply_negative, apply_positive]; omega)
      · exact gt (by simp only [rank, apply_negative, apply_positive]; omega)
      · simp only [UnpackedFloat.compare, rank, apply_positive, same]

theorem le_iff_rank {u w : UnpackedFloat} (hu : Canonical u) (hw : Canonical w) :
    u.le w = true ↔ u.isNaN = false ∧ w.isNaN = false ∧ rank u ≤ rank w := by
  by_cases hun : u.isNaN = false
  · by_cases hwn : w.isNaN = false
    · simp only [UnpackedFloat.le, compare_eq_rank hu hw hun hwn, hun, hwn, Option.any_some,
        true_and]
      exact Ordering.ne_gt_iff_isLE.symm.trans compare_le_iff_le
    · cases w <;> first | exact absurd rfl hwn | cases u <;> simp_all [UnpackedFloat.le,
        UnpackedFloat.compare, UnpackedFloat.isNaN]
  · cases u <;> first | exact absurd rfl hun | simp [UnpackedFloat.le, UnpackedFloat.compare,
      UnpackedFloat.isNaN]

theorem lt_iff_rank {u w : UnpackedFloat} (hu : Canonical u) (hw : Canonical w) :
    u.lt w = true ↔ u.isNaN = false ∧ w.isNaN = false ∧ rank u < rank w := by
  by_cases hun : u.isNaN = false
  · by_cases hwn : w.isNaN = false
    · simp [UnpackedFloat.lt, compare_eq_rank hu hw hun hwn, hun, hwn, compare_lt_iff_lt]
    · cases w <;> first | exact absurd rfl hwn | cases u <;> simp_all [UnpackedFloat.lt,
        UnpackedFloat.compare, UnpackedFloat.isNaN]
  · cases u <;> first | exact absurd rfl hun | simp [UnpackedFloat.lt, UnpackedFloat.compare,
      UnpackedFloat.isNaN]

/-! ## Values -/

/-- The rank of the double nearest to a rational of either sign. -/
def Rounds (v : ℚ) (n : ℤ) : Prop := 0 ≤ v ∧ Nearest v n ∨ v ≤ 0 ∧ Nearest (-v) (-n)

theorem Rounds.neg {v : ℚ} {n : ℤ} (h : Rounds v n) : Rounds (-v) (-n) := by
  rcases h with ⟨hv, h⟩ | ⟨hv, h⟩
  · exact .inr ⟨by linarith, by simpa using h⟩
  · exact .inl ⟨by linarith, h⟩

theorem Rounds.mono {v w : ℚ} {m n : ℤ} (hv : Rounds v m) (hw : Rounds w n) (h : v ≤ w) :
    m ≤ n := by
  rcases hv with ⟨hv0, hv⟩ | ⟨hv0, hv⟩ <;> rcases hw with ⟨hw0, hw⟩ | ⟨hw0, hw⟩
  · exact hv.mono hw h
  · have hm := hv.mono nearest_zero (by linarith)
    have hn := hw.mono nearest_zero (by linarith)
    have := hw.nonneg (by linarith)
    omega
  · have hm := hv.nonneg (by linarith)
    have hn := hw.nonneg hw0
    omega
  · have := hw.mono hv (by linarith)
    omega

theorem Rounds.unique {v : ℚ} {m n : ℤ} (hm : Rounds v m) (hn : Rounds v n) : m = n :=
  le_antisymm (hm.mono hn le_rfl) (hn.mono hm le_rfl)

theorem rounds_zero : Rounds 0 0 := .inl ⟨le_rfl, nearest_zero⟩

theorem rounds_value {u : UnpackedFloat} (hu : Canonical u) (hf : u.isFinite = true) :
    Rounds (value u) (rank u) := by
  cases u with
  | infinity | notANumber => cases hf
  | zero => exact rounds_zero
  | finite s m p =>
    have near := hu.1.nearest
    rw [min_eq_left (hu.1.rank_lt_topRank hu.2).le] at near
    have hv : (0 : ℚ) ≤ m * 2 ^ p := by positivity
    cases s
    · refine .inr ⟨?_, ?_⟩
      · simp only [value, apply_negative]
        push_cast
        linarith
      · simpa [value, rank, apply_negative] using near
    · exact .inl ⟨by simpa [value, apply_positive] using hv,
        by simpa [value, rank, apply_positive] using near⟩

/-- Finite doubles of different ranks are different rationals, in the same order. -/
theorem value_lt_value {u w : UnpackedFloat} (hu : Canonical u) (hw : Canonical w)
    (huf : u.isFinite = true) (hwf : w.isFinite = true) (h : rank u < rank w) :
    value u < value w := by
  by_contra hle
  have := (rounds_value hw hwf).mono (rounds_value hu huf) (not_lt.mp hle)
  omega

theorem value_eq_value {u w : UnpackedFloat} (hu : Canonical u) (hw : Canonical w)
    (huf : u.isFinite = true) (hwf : w.isFinite = true) (h : rank u = rank w) :
    value u = value w := by
  cases u with
  | infinity | notANumber => cases huf
  | zero s =>
    cases w with
    | infinity | notANumber => cases hwf
    | zero t => rfl
    | finite t n q hn =>
      have := hw.1.rank_pos hn
      cases t <;> simp only [rank, apply_negative, apply_positive] at h <;> omega
  | finite s m p hm =>
    have := hu.1.rank_pos hm
    cases w with
    | infinity | notANumber => cases hwf
    | zero t => cases s <;> simp only [rank, apply_negative, apply_positive] at h <;> omega
    | finite t n q hn =>
      have := hw.1.rank_pos hn
      cases s <;> cases t <;> simp only [rank, apply_negative, apply_positive] at h
      · obtain ⟨rfl, rfl⟩ := hu.1.eq_of_rank_eq hw.1 (by omega)
        rfl
      · omega
      · omega
      · obtain ⟨rfl, rfl⟩ := hu.1.eq_of_rank_eq hw.1 h
        rfl

theorem value_le_value {u w : UnpackedFloat} (hu : Canonical u) (hw : Canonical w)
    (huf : u.isFinite = true) (hwf : w.isFinite = true) (h : rank u ≤ rank w) :
    value u ≤ value w := by
  rcases h.lt_or_eq with hlt | heq
  · exact (value_lt_value hu hw huf hwf hlt).le
  · exact (value_eq_value hu hw huf hwf heq).le

theorem value_nonneg {u : UnpackedFloat} (hu : Canonical u) (hf : u.isFinite = true)
    (h : 0 ≤ rank u) : 0 ≤ value u :=
  value_le_value (u := .zero .positive) trivial hu rfl hf h

theorem value_pos {u : UnpackedFloat} (hu : Canonical u) (hf : u.isFinite = true)
    (h : 0 < rank u) : 0 < value u :=
  value_lt_value (u := .zero .positive) trivial hu rfl hf h

/-- The largest double has `2 ^ 53 - 1` counts of the highest place. -/
theorem value_le_largest {u : UnpackedFloat} (hu : Canonical u) (hf : u.isFinite = true) :
    value u ≤ (2 ^ 53 - 1) * 2 ^ (971 : ℤ) := by
  have hpos := zpow_two_pos 971
  cases u with
  | infinity | notANumber => cases hf
  | zero => exact mul_nonneg (by norm_num) hpos.le
  | finite s m p =>
    have hm : (m : ℚ) ≤ 2 ^ 53 - 1 := by
      have hlt := hu.1.count_lt
      have : m + 1 ≤ 2 ^ 53 := hlt
      have : ((m + 1 : ℕ) : ℚ) ≤ (2 ^ 53 : ℕ) := by exact_mod_cast this
      push_cast at this
      linarith
    have hle : (m * 2 ^ p : ℚ) ≤ (2 ^ 53 - 1) * 2 ^ (971 : ℤ) := by
      have hp := zpow_le_zpow_two hu.2
      calc (m * 2 ^ p : ℚ) ≤ m * 2 ^ (971 : ℤ) := mul_le_mul_of_nonneg_left hp (by positivity)
        _ ≤ _ := mul_le_mul_of_nonneg_right hm hpos.le
    cases s
    · have hneg : value (.finite .negative m p ‹_›) = -(m * 2 ^ p) := by
        rw [value_finite, apply_negative]
        push_cast
        ring
      have hnonneg : (0 : ℚ) ≤ m * 2 ^ p := by positivity
      rw [hneg]
      exact (neg_nonpos.mpr hnonneg).trans (hnonneg.trans hle)
    · simpa [value_finite, apply_positive] using hle

end Stigmergy.Binary64
