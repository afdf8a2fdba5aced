import Stigmergy.Proofs.Binary64.Shares
import Stigmergy.Proofs.Walk.Wheel
import Stigmergy.Random.Script

/-!
# Where the wheel can stop

A draw in proportion to weights stops at none without a share, as long as the threshold that is
drawn stays below all weights together.

* `select_isSome_iff`, `select_pos`: below all weights together a threshold stands for an index,
  and it is that of a weight above zero.
* `Overshoots`: the threshold is drawn too high, so that the last index has to do.
* `wheel_passes_over_zeros`: the wheel stops at an infinite weight if there is one, and else at one
  above zero if there is one, unless it overshoots and the last weight is zero.
-/

namespace Stigmergy.Walk.Roulette

open Scalar Stigmergy.Random

variable {α G : Type} [Scalar α]

/-- The threshold of a draw is not below all weights together: so little are these that rounding
takes a fraction of them to the whole. -/
def Overshoots [WordSource G] (weights : List α) (g : G) : Prop :=
  ∃ t g', threshold (sum (shares weights)) g = (.ok t, g') ∧ sum (shares weights) ≤ t

variable [Rounded α] {weights : List α}

/-! ## Sums -/

theorem le_foldl_add {x : α} (hx : ofNat 0 ≤ x) (h : ∀ w ∈ weights, ofNat 0 ≤ w) :
    x ≤ weights.foldl (· + ·) x := by
  induction weights generalizing x with
  | nil => exact Rounded.le_refl (Rounded.number_of_le hx).2
  | cons w weights ih =>
    obtain ⟨hw, hweights⟩ := List.forall_mem_cons.mp h
    exact Rounded.le_trans (Rounded.le_add_right hx hw) (ih (Rounded.add_nonneg hx hw) hweights)

/-- No weight is above the sum. -/
theorem le_foldl_add_of_mem {x w : α} (hx : ofNat 0 ≤ x) (h : ∀ w ∈ weights, ofNat 0 ≤ w)
    (hw : w ∈ weights) : w ≤ weights.foldl (· + ·) x := by
  induction weights generalizing x with
  | nil => cases hw
  | cons v weights ih =>
    obtain ⟨hv, hweights⟩ := List.forall_mem_cons.mp h
    have hsum := Rounded.add_nonneg hx hv
    cases List.mem_cons.mp hw with
    | inl heq =>
      subst heq
      exact Rounded.le_trans (Rounded.le_add_left hx hv) (le_foldl_add hsum hweights)
    | inr hrest => exact ih hsum hweights hrest

theorem le_sum_of_mem {w : α} (h : ∀ w ∈ weights, ofNat 0 ≤ w) (hw : w ∈ weights) :
    w ≤ sum weights :=
  le_foldl_add_of_mem Rounded.isZero_neg_zero.2 h hw

theorem sum_pos_iff (h : ∀ w ∈ weights, ofNat 0 ≤ w) :
    ofNat 0 < sum weights ↔ ∃ w ∈ weights, ofNat 0 < w := by
  constructor
  · intro hpos
    by_contra hnone
    have hzero : ∀ w ∈ weights, IsZero w := fun w hw =>
      (Rounded.isZero_or_pos (h w hw)).resolve_right fun hwpos => hnone ⟨w, hw, hwpos⟩
    exact Rounded.not_ge_of_lt hpos (isZero_sum hzero).1
  · intro ⟨w, hw, hwpos⟩
    exact Rounded.lt_of_lt_of_le hwpos (le_sum_of_mem h hw)

variable [Divisible α]

/-- The zero that a sum starts at does not show, if there is anything to add. -/
theorem foldl_add_of_isZero {x y : α} (hx : IsZero x) (hy : IsZero y)
    (h : ∀ w ∈ weights, ofNat 0 ≤ w) (hpos : ∃ w ∈ weights, ofNat 0 < w) :
    weights.foldl (· + ·) x = weights.foldl (· + ·) y := by
  induction weights generalizing x y with
  | nil =>
    obtain ⟨w, hw, -⟩ := hpos
    cases hw
  | cons w weights ih =>
    obtain ⟨hw, hweights⟩ := List.forall_mem_cons.mp h
    rw [List.foldl_cons, List.foldl_cons]
    -- The first weight above zero takes the place of either zero.
    cases Rounded.isZero_or_pos hw with
    | inr hwpos =>
      rw [Divisible.add_of_isZero_left hx hwpos, Divisible.add_of_isZero_left hy hwpos]
    | inl hzero =>
      have hrest : ∃ w ∈ weights, ofNat 0 < w := by
        obtain ⟨v, hv, hvpos⟩ := hpos
        cases List.mem_cons.mp hv with
        | inl heq =>
          subst heq
          exact absurd hzero.1 (Rounded.not_ge_of_lt hvpos)
        | inr hmem => exact ⟨v, hmem, hvpos⟩
      exact ih (Rounded.isZero_add hx hzero) (Rounded.isZero_add hy hzero) hweights hrest

/-! ## Landing -/

section Select

variable {t before : α}

omit [Divisible α] in
theorem select_isSome_iff (hbefore : ofNat 0 ≤ before) (ht : ¬t < before)
    (h : ∀ w ∈ weights, ofNat 0 ≤ w) :
    (select t before weights).isSome = true ↔ t < weights.foldl (· + ·) before := by
  induction weights generalizing before with
  | nil => simpa [select] using ht
  | cons w weights ih =>
    obtain ⟨hw, hweights⟩ := List.forall_mem_cons.mp h
    have hsum := Rounded.add_nonneg hbefore hw
    rw [select, List.foldl_cons]
    by_cases hlt : t < before + w
    · rw [if_pos hlt]
      exact iff_of_true rfl (Rounded.lt_of_lt_of_le hlt (le_foldl_add hsum hweights))
    · rw [if_neg hlt, Option.isSome_map]
      exact ih hsum hlt hweights

/-- A threshold lies within a weight above zero. -/
theorem select_pos (hbefore : ofNat 0 ≤ before) (ht : ¬t < before)
    (h : ∀ w ∈ weights, ofNat 0 ≤ w) {i : Nat} (hi : select t before weights = some i) :
    ∃ w, weights[i]? = some w ∧ ofNat 0 < w := by
  induction weights generalizing before i with
  | nil => cases hi
  | cons w weights ih =>
    obtain ⟨hw, hweights⟩ := List.forall_mem_cons.mp h
    rw [select] at hi
    by_cases hlt : t < before + w
    · rw [if_pos hlt] at hi
      cases hi
      refine ⟨w, rfl, ?_⟩
      cases Rounded.isZero_or_pos hw with
      | inr hpos => exact hpos
      | inl hzero =>
        have hle := Divisible.add_le_of_isZero hbefore hzero
        exact absurd (Rounded.lt_of_lt_of_le hlt hle) ht
    · rw [if_neg hlt] at hi
      obtain ⟨j, hj, rfl⟩ := Option.map_eq_some_iff.mp hi
      exact ih (Rounded.add_nonneg hbefore hw) hlt hweights hj

/-- A threshold from zero on stands for a weight above zero if it is below all weights together, and
for the last one if it is not. -/
theorem land_spec (h : ∀ w ∈ weights, ofNat 0 ≤ w) (hpos : ofNat 0 < sum weights)
    (ht : ofNat 0 ≤ t) :
    (t < sum weights ∧ ∃ w, weights[land t weights]? = some w ∧ ofNat 0 < w) ∨
      sum weights ≤ t ∧ land t weights = weights.length - 1 := by
  have hzero : IsZero (ofNat 0 : α) :=
    ⟨Rounded.le_refl Rounded.number_zero, Rounded.le_refl Rounded.number_zero⟩
  have hnot : ¬t < ofNat 0 := Rounded.not_lt_of_ge ht
  have hsum : weights.foldl (· + ·) (ofNat 0) = sum weights :=
    foldl_add_of_isZero hzero Rounded.isZero_neg_zero h ((sum_pos_iff h).mp hpos)
  have hsome := select_isSome_iff hzero.2 hnot h
  rw [hsum] at hsome
  unfold land
  cases hselect : select t (ofNat 0) weights with
  | some i => exact .inl ⟨hsome.mp (by rw [hselect]; rfl), select_pos hzero.2 hnot h hselect⟩
  | none =>
    rw [hselect] at hsome
    refine .inr ⟨?_, rfl⟩
    have hnumber := (Rounded.number_of_le (sum_nonneg h)).2
    exact Rounded.le_of_not_gt hnumber (Rounded.number_of_le ht).2 fun hlt =>
      Bool.false_ne_true (hsome.mpr hlt)

end Select

/-! ## Shares -/

omit [Rounded α] [Divisible α] in
theorem foldl_greatest_mem (x : α) (weights : List α) :
    weights.foldl greatest x = x ∨ weights.foldl greatest x ∈ weights := by
  induction weights generalizing x with
  | nil => exact .inl rfl
  | cons w weights ih =>
    rw [List.foldl_cons]
    cases ih (greatest x w) with
    | inr hmem => exact .inr (List.mem_cons_of_mem _ hmem)
    | inl heq =>
      rw [heq]
      unfold greatest
      split
      · exact .inl rfl
      · split
        · exact .inl rfl
        · exact .inr List.mem_cons_self

omit [Divisible α] in
/-- Where the sum is infinite, the largest weight is there. -/
theorem largest_mem (h : ∀ w ∈ weights, ofNat 0 ≤ w) (hinfinite : isInfinite (sum weights) = true) :
    weights.foldl greatest (ofNat 0) ∈ weights := by
  have hlargest := largest_pos h hinfinite
  cases foldl_greatest_mem (ofNat 0) weights with
  | inr hmem => exact hmem
  | inl heq =>
    rw [heq] at hlargest
    exact absurd hlargest (Rounded.lt_irrefl _)

/-- The largest weight has a share of one, where there is need of shares. -/
theorem sum_shares_cases (h : ∀ w ∈ weights, ofNat 0 ≤ w)
    (hfinite : ∀ w ∈ weights, isFinite w = true) :
    ofNat 1 ≤ sum (shares weights) ∨ shares weights = weights := by
  by_cases hinfinite : isInfinite (sum weights) = true
  · left
    have hmem := largest_mem h hinfinite
    have hone := Divisible.one_le_div_self (largest_pos h hinfinite) (hfinite _ hmem)
    refine Rounded.le_trans hone (le_sum_of_mem (shares_nonneg h hfinite) ?_)
    rw [shares_of_infinite hinfinite]
    exact List.mem_map_of_mem hmem
  · exact .inr (shares_of_finite hinfinite)

/-- A weight without a share may be above zero, but one with a share is. -/
theorem pos_of_share_pos (h : ∀ w ∈ weights, ofNat 0 ≤ w) {i : Nat} {part : α}
    (hpart : (shares weights)[i]? = some part) (hpos : ofNat 0 < part) :
    ∃ w, weights[i]? = some w ∧ ofNat 0 < w := by
  by_cases hinfinite : isInfinite (sum weights) = true
  · rw [shares_of_infinite hinfinite, List.getElem?_map, Option.map_eq_some_iff] at hpart
    obtain ⟨w, hw, rfl⟩ := hpart
    refine ⟨w, hw, ?_⟩
    cases Rounded.isZero_or_pos (h w (List.mem_of_getElem? hw)) with
    | inr hwpos => exact hwpos
    | inl hzero =>
      have hshare := Divisible.isZero_div hzero (largest_pos h hinfinite)
      exact absurd hshare.1 (Rounded.not_ge_of_lt hpos)
  · rw [shares_of_finite hinfinite] at hpart
    exact ⟨part, hpart, hpos⟩

/-! ## Stops -/

variable [WordSource G]

omit [Rounded α] [Divisible α] in
theorem threshold_spec {total t : α} {g g' : G} (h : threshold total g = (.ok t, g')) :
    ∃ n, n < 1 <<< 52 ∧ t = ratio n (1 <<< 52) * total := by
  unfold threshold at h
  split at h
  · cases h
    refine ⟨((WordSource.next64 g).1 >>> 12).toNat, ?_, rfl⟩
    have hword := (WordSource.next64 g).1.toNat_lt
    rw [UInt64.toNat_shiftRight, Nat.shiftRight_eq_div_pow]
    change _ / 2 ^ 12 < 2 ^ 52
    omega
  · cases h

omit [Divisible α] in
theorem threshold_nonneg {total t : α} {g g' : G} (hpos : ofNat 0 < total)
    (hfinite : isFinite total = true) (h : threshold total g = (.ok t, g')) : ofNat 0 ≤ t := by
  obtain ⟨n, hn, rfl⟩ := threshold_spec h
  have hcount : isFinite (ofNat n : α) = true := Rounded.isFinite_ofNat (by omega)
  have hparts : ofNat 0 < (ofNat (1 <<< 52) : α) := Rounded.ofNat_pos (by decide)
  have hfraction : ofNat 0 ≤ (ratio n (1 <<< 52) : α) :=
    Rounded.div_nonneg (Rounded.ofNat_le_ofNat (Nat.zero_le n)) hparts (.inl hcount)
  exact Rounded.mul_nonneg hfraction hpos hfinite

/-- Finite weights stop the wheel above zero, unless it overshoots and the last one is zero. -/
theorem spin_pos (hne : weights ≠ []) (hmany : weights.length ≠ 1)
    (h : ∀ w ∈ weights, ofNat 0 ≤ w) (hfinite : ∀ w ∈ weights, isFinite w = true)
    (hpos : ∃ w ∈ weights, ofNat 0 < w) (g : G) :
    ∃ i g' w, spin weights g = (.ok i, g') ∧ weights[i]? = some w ∧
      (leastNormal ≤ sum weights → ofNat 0 < w) ∧
      (ofNat 0 < w ↔ (Overshoots weights g → ofNat 0 < weights.getLast hne)) := by
  have hcases := sum_shares_cases h hfinite
  have htotal : ofNat 0 < sum (shares weights) := by
    cases hcases with
    | inl hone => exact Rounded.lt_of_lt_of_le Rounded.zero_lt_one hone
    | inr heq =>
      rw [heq]
      exact (sum_pos_iff h).mpr hpos
  obtain ⟨t, g', hthreshold, hspin⟩ := spin_finite hmany h hfinite htotal g
  have ht := threshold_nonneg htotal (parts_finite h hfinite).2 hthreshold
  cases land_spec (shares_nonneg h hfinite) htotal ht with
  | inl hbelow =>
    obtain ⟨hlt, part, hpart, hpartpos⟩ := hbelow
    obtain ⟨w, hw, hwpos⟩ := pos_of_share_pos h hpart hpartpos
    refine ⟨_, g', w, hspin, hw, fun _ => hwpos, fun _ hover => ?_, fun _ => hwpos⟩
    obtain ⟨t', g'', hsame, hle⟩ := hover
    rw [hthreshold] at hsame
    cases hsame
    exact absurd hle (Rounded.not_ge_of_lt hlt)
  | inr habove =>
    obtain ⟨hle, hland⟩ := habove
    have hlast : weights[land t (shares weights)]? = some (weights.getLast hne) := by
      rw [hland, length_shares, ← List.getLast?_eq_getElem?, List.getLast?_eq_some_getLast hne]
    refine ⟨_, g', _, hspin, hlast, fun hleast => ?_, fun hwpos _ => hwpos, fun himp => ?_⟩
    · have hwhole : leastNormal ≤ sum (shares weights) := by
        cases hcases with
        | inl hone => exact Rounded.le_trans leastNormal_le_one hone
        | inr heq => rwa [heq]
      obtain ⟨n, hn, rfl⟩ := threshold_spec hthreshold
      have hlt := Divisible.share_lt hn hwhole (parts_finite h hfinite).2
      exact absurd hle (Rounded.not_ge_of_lt hlt)
    · exact himp ⟨t, g', hthreshold, hle⟩

/-- **The wheel passes over zeros.** It stops at an infinite weight if there is one. If all are
finite and some above zero, it stops at one above zero unless the draw overshoots and the last one
is zero, which takes a sum that is next to nothing. -/
theorem wheel_passes_over_zeros (hne : weights ≠ []) (h : ∀ w ∈ weights, ofNat 0 ≤ w) (g : G) :
    ∃ i g' w, spin weights g = (.ok i, g') ∧ weights[i]? = some w ∧
      ((∃ v ∈ weights, isInfinite v = true) → isInfinite w = true) ∧
      ((∀ v ∈ weights, isFinite v = true) → (∃ v ∈ weights, ofNat 0 < v) →
        (leastNormal ≤ sum weights → ofNat 0 < w) ∧
        (ofNat 0 < w ↔ (Overshoots weights g → ofNat 0 < weights.getLast hne))) := by
  by_cases hmany : weights.length = 1
  · -- A single weight is the last one too, so that overshooting does not matter.
    obtain ⟨w, rfl⟩ := List.length_eq_one_iff.mp hmany
    refine ⟨0, g, w, if_pos rfl, rfl, by simp, fun _ hpos => ?_⟩
    have hwpos : ofNat 0 < w := by simpa using hpos
    exact ⟨fun _ => hwpos, fun _ _ => hwpos, fun _ => hwpos⟩
  · by_cases hinfinite : ∃ v ∈ weights, isInfinite v = true
    · obtain ⟨i, g', w, hspin, hw, hwinf⟩ := spin_infinite hmany hinfinite g
      refine ⟨i, g', w, hspin, hw, fun _ => hwinf, fun hfinite => ?_⟩
      simp [isInfinite, hfinite w (List.mem_of_getElem? hw)] at hwinf
    · by_cases hpos : ∃ v ∈ weights, ofNat 0 < v
      · have hnone : ∀ v ∈ weights, isInfinite v = false := by simpa using hinfinite
        have hfinite : ∀ v ∈ weights, isFinite v = true := fun v hv =>
          (isInfinite_eq_false_iff (h v hv)).mp (hnone v hv)
        obtain ⟨i, g', w, hspin, hw, hodds⟩ := spin_pos hne hmany h hfinite hpos g
        exact ⟨i, g', w, hspin, hw, fun hsome => absurd hsome hinfinite, fun _ _ => hodds⟩
      · obtain ⟨i, g', hspin, hi⟩ := spin_ok hne h g
        exact ⟨i, g', weights[i], hspin, List.getElem?_eq_getElem hi,
          fun hsome => absurd hsome hinfinite, fun _ hsome => absurd hsome hpos⟩

/-- Weights that are too large to be added. -/
theorem wheel_passes_over_zeros_of_large_weights :
    let weights : List Float := [1e308, 0, 1e308]
    let g := Script.mk #[0xFFFFFFFFFFFFFFFF] 0
    isInfinite (sum weights) = true ∧ (∀ w ∈ weights, ofNat 0 ≤ w) ∧
      ∃ i g' w, spin weights g = (.ok i, g') ∧ weights[i]? = some w ∧ ofNat 0 < w := by
  intro weights g
  have hnonneg : ∀ w ∈ weights, ofNat 0 ≤ w := by decide +kernel
  have hfinite : ∀ w ∈ weights, isFinite w = true := by decide +kernel
  have hpos : ∃ w ∈ weights, ofNat 0 < w := by decide +kernel
  obtain ⟨i, g', w, hspin, hw, -, hodds⟩ :=
    wheel_passes_over_zeros (List.cons_ne_nil _ _) hnonneg g
  have hleast : leastNormal ≤ sum weights := by decide +kernel
  exact ⟨by decide +kernel, hnonneg, i, g', w, hspin, hw, (hodds hfinite hpos).1 hleast⟩

/-- A weight so small that the highest fraction of it is rounded to all of it. -/
theorem wheel_stops_at_zero_after_small_weight :
    let weights : List Float := [1e-316, 0]
    let g := Script.mk #[0xFFFFFFFFFFFFFFFF] 0
    (∀ w ∈ weights, ofNat 0 ≤ w ∧ isFinite w = true) ∧ (∃ w ∈ weights, ofNat 0 < w) ∧
      ∃ i w, (spin weights g).1.toOption = some i ∧ weights[i]? = some w ∧ ¬ofNat 0 < w := by
  intro weights g
  refine ⟨by decide +kernel, by decide +kernel, 1, 0, by decide +kernel, rfl, by decide +kernel⟩

end Stigmergy.Walk.Roulette
