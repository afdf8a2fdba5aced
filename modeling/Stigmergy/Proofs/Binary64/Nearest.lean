import Mathlib.Algebra.Order.Floor.Ring
import Mathlib.Data.Rat.Floor
import Mathlib.Tactic.Linarith
import Mathlib.Tactic.NormNum
import Mathlib.Tactic.Positivity

/-!
# The double nearest to a rational

The doubles at or above zero stand in one row, and the rank of a double is the number of those
before it: its bits, read as a number. Rounding is stated on ranks, so that it needs no doubles.

* `nearestEven`: the integer nearest to a rational, the even one of two.
* `Nearest v n`: the double nearest to `v` has the rank `n`.
* `Nearest.mono`: rounding keeps the order.
* `Nearest.lt_topRank`: up to half a step above the largest double nothing becomes infinite.
-/

namespace Stigmergy.Binary64

/-- The integer nearest to a rational; a half goes to the even one. -/
def nearestEven (x : ℚ) : ℤ :=
  if x - ⌊x⌋ < 1 / 2 then ⌊x⌋
  else if 1 / 2 < x - ⌊x⌋ then ⌊x⌋ + 1
  else ⌊x⌋ + ⌊x⌋ % 2

theorem nearestEven_intCast (n : ℤ) : nearestEven n = n := by
  simp [nearestEven]

theorem floor_le_nearestEven (x : ℚ) : ⌊x⌋ ≤ nearestEven x := by
  unfold nearestEven
  split_ifs <;> omega

theorem nearestEven_le_floor_add_one (x : ℚ) : nearestEven x ≤ ⌊x⌋ + 1 := by
  unfold nearestEven
  split_ifs <;> omega

theorem nearestEven_mono {x y : ℚ} (h : x ≤ y) : nearestEven x ≤ nearestEven y := by
  rcases (Int.floor_mono h).lt_or_eq with hlt | heq
  · have hx := nearestEven_le_floor_add_one x
    have hy := floor_le_nearestEven y
    omega
  · -- Within one unit the three cases come in order.
    unfold nearestEven
    rw [heq]
    split_ifs <;> first | omega | (exfalso; linarith)

theorem le_nearestEven {n : ℤ} {x : ℚ} (h : (n : ℚ) ≤ x) : n ≤ nearestEven x := by
  simpa only [nearestEven_intCast] using nearestEven_mono h

theorem nearestEven_le {n : ℤ} {x : ℚ} (h : x ≤ n) : nearestEven x ≤ n := by
  simpa only [nearestEven_intCast] using nearestEven_mono h

theorem nearestEven_le_of_lt {n : ℤ} {x : ℚ} (h : x < n + 1 / 2) : nearestEven x ≤ n := by
  have hfloor : ⌊x⌋ ≤ n := by
    rw [← Int.lt_add_one_iff, Int.floor_lt]
    push_cast
    linarith
  rcases hfloor.lt_or_eq with hlt | heq
  · have := nearestEven_le_floor_add_one x
    omega
  · have hbelow : x - ⌊x⌋ < 1 / 2 := by
      rw [heq]
      linarith
    rw [nearestEven, if_pos hbelow, heq]

/-! ## Ranks -/

def topRank : ℤ := 2047 * 2 ^ 52

/-- The last place of the doubles around `v`, never below that of the smallest double. -/
structure IsPlace (v : ℚ) (p : ℤ) : Prop where
  place_ge : -1074 ≤ p
  value_lt : v < 2 ^ (p + 53)
  normal : p = -1074 ∨ 2 ^ (p + 52) ≤ v

/-- The double nearest to `v` has the rank `n`. Ranks go up by one from count to count of a place,
and on from the last count of one place to the first of the next. -/
def Nearest (v : ℚ) (n : ℤ) : Prop :=
  ∃ p : ℤ, IsPlace v p ∧ n = min ((p + 1074) * 2 ^ 52 + nearestEven (v / 2 ^ p)) topRank

theorem zpow_le_zpow_two {a b : ℤ} (h : a ≤ b) : (2 : ℚ) ^ a ≤ 2 ^ b :=
  zpow_le_zpow_right₀ (by norm_num) h

theorem zpow_two_pos (a : ℤ) : (0 : ℚ) < 2 ^ a := zpow_pos (by norm_num) a

theorem zpow_two_add (a b : ℤ) : (2 : ℚ) ^ (a + b) = 2 ^ a * 2 ^ b :=
  zpow_add₀ (by norm_num) a b

/-- A value has less than `2 ^ 53` counts of its last place, and rounding keeps them there. -/
theorem IsPlace.count_le {v : ℚ} {p : ℤ} (h : IsPlace v p) : nearestEven (v / 2 ^ p) ≤ 2 ^ 53 := by
  have hlt := h.value_lt
  apply nearestEven_le
  rw [div_le_iff₀ (zpow_two_pos p)]
  have : (2 : ℚ) ^ (p + 53) = 2 ^ (53 : ℕ) * 2 ^ p := by rw [zpow_two_add, mul_comm]; norm_num
  push_cast
  linarith

/-- A value above the lowest binade has at least `2 ^ 52` counts of its last place. -/
theorem IsPlace.le_count {v : ℚ} {p : ℤ} (h : IsPlace v p) (hp : -1074 < p) :
    2 ^ 52 ≤ nearestEven (v / 2 ^ p) := by
  have hle := h.normal.resolve_left hp.ne'
  apply le_nearestEven
  rw [le_div_iff₀ (zpow_two_pos p)]
  have : (2 : ℚ) ^ (p + 52) = 2 ^ (52 : ℕ) * 2 ^ p := by rw [zpow_two_add, mul_comm]; norm_num
  push_cast
  linarith

theorem Nearest.mono {v w : ℚ} {m n : ℤ} (hv : Nearest v m) (hw : Nearest w n) (h : v ≤ w) :
    m ≤ n := by
  obtain ⟨p, hp, rfl⟩ := hv
  obtain ⟨q, hq, rfl⟩ := hw
  have hpge := hp.place_ge
  have hqge := hq.place_ge
  apply min_le_min_right
  rcases lt_trichotomy p q with hpq | rfl | hpq
  · -- The lower place's counts end where the higher one's begin.
    have hcount := hp.count_le
    have hcount' := hq.le_count (by omega)
    omega
  · have := nearestEven_mono (div_le_div_of_nonneg_right h (zpow_two_pos p).le)
    omega
  · have hlow := hp.normal.resolve_left (by omega)
    have hhigh := hq.value_lt
    have := zpow_le_zpow_two (a := q + 53) (b := p + 52) (by omega)
    linarith

theorem nearest_zero : Nearest 0 0 :=
  ⟨-1074, ⟨le_rfl, zpow_two_pos _, .inl rfl⟩, by
    rw [zero_div, show nearestEven 0 = 0 from mod_cast nearestEven_intCast 0]; decide⟩

theorem Nearest.nonneg {v : ℚ} {n : ℤ} (h : Nearest v n) (hv : 0 ≤ v) : 0 ≤ n :=
  nearest_zero.mono h hv

theorem Nearest.lt_topRank {v : ℚ} {n : ℤ} (h : Nearest v n)
    (hv : v < (2 ^ 53 - 1 / 2) * 2 ^ (971 : ℤ)) : n < topRank := by
  obtain ⟨p, hp, rfl⟩ := h
  refine (min_le_left _ _).trans_lt ?_
  unfold topRank
  rcases lt_trichotomy p 971 with hlt | rfl | hgt
  · have := hp.count_le
    omega
  · have hcount : nearestEven (v / 2 ^ (971 : ℤ)) ≤ 2 ^ 53 - 1 := by
      apply nearestEven_le_of_lt
      rw [div_lt_iff₀ (zpow_two_pos _)]
      refine hv.trans_le (mul_le_mul_of_nonneg_right ?_ (zpow_two_pos _).le)
      norm_num
    omega
  · have hlow := hp.normal.resolve_left (by omega)
    have hstep := zpow_le_zpow_two (a := 53 + 971) (b := p + 52) (by omega)
    rw [zpow_two_add] at hstep
    have hpos := zpow_two_pos 971
    generalize (2 : ℚ) ^ (971 : ℤ) = step at hv hstep hpos
    norm_num at hv hstep
    linarith

end Stigmergy.Binary64
