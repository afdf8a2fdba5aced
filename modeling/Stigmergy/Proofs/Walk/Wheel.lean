import Stigmergy.Proofs.Scalar.Rounded
import Stigmergy.Walk.Desirability
import Stigmergy.Walk.Roulette

/-!
# The wheel never fails

* `PowerKeepsSign`: what is asked of the power function.
* `desirability_nonneg`: a weight is a number and not negative, whatever became of the pheromone.
* `Roulette.parts_finite`: what the wheel divides has a finite sum, also where the weights have not.
* `Roulette.spin_infinite`, `Roulette.spin_finite`, `Roulette.spin_zero`: what one draw from several
  weights does.
* `Roulette.spin_ok`: so the wheel gives an index, for any weights at all.
-/

namespace Stigmergy.Walk

open Scalar Stigmergy.Random

variable {α G : Type} [Scalar α]

/-- Powers of scalars that are not negative are not negative, for exponents from zero on. -/
structure PowerKeepsSign (α : Type) [Scalar α] : Prop where
  notNegative_pow {x y : α} : NotNegative x → ofNat 0 ≤ y → NotNegative (pow x y)

variable [Rounded α]

theorem notNegative_appeal (hpow : PowerKeepsSign α) {cost beta : α} (hcost : ofNat 0 ≤ cost)
    (hbeta : ofNat 0 ≤ beta) : NotNegative (appeal cost beta) := by
  unfold appeal
  by_cases hzero : IsZero cost
  · rw [if_pos hzero]
    split
    · exact Rounded.notNegative_of_pos Rounded.infinity_pos
    · exact Rounded.notNegative_of_pos Rounded.zero_lt_one
  · rw [if_neg hzero]
    have hpos : ofNat 0 < cost :=
      Rounded.lt_of_not_ge Rounded.number_zero (Rounded.number_of_le hcost).2
        fun hle => hzero ⟨hle, hcost⟩
    have hone : NotNegative (ofNat 1 : α) := Rounded.notNegative_of_pos Rounded.zero_lt_one
    exact hpow.notNegative_pow (Rounded.notNegative_div hone hpos) hbeta

theorem desirability_nonneg (hpow : PowerKeepsSign α) {pheromone cost alpha beta : α}
    (hpheromone : NotNegative pheromone) (hcost : ofNat 0 ≤ cost) (halpha : ofNat 0 ≤ alpha)
    (hbeta : ofNat 0 ≤ beta) : ofNat 0 ≤ desirability pheromone cost alpha beta := by
  unfold desirability
  dsimp only
  split
  · exact Rounded.le_refl Rounded.number_zero
  · next hnumber =>
    have hweight := Rounded.notNegative_mul (hpow.notNegative_pow hpheromone halpha)
      (notNegative_appeal hpow hcost hbeta)
    exact Rounded.nonneg_of_notNegative hweight (by simpa using hnumber)

namespace Roulette

/-! ## Sums -/

omit [Rounded α] in
/-- What negative zero has and every addition keeps, a sum has. -/
theorem sum_induction {P Q : α → Prop} (hzero : P (-ofNat 0))
    (hadd : ∀ {x w}, P x → Q w → P (x + w)) {weights : List α} (h : ∀ w ∈ weights, Q w) :
    P (sum weights) := by
  unfold sum
  revert hzero
  generalize (-ofNat 0 : α) = before
  induction weights generalizing before with
  | nil => exact id
  | cons w weights ih =>
    obtain ⟨hw, hweights⟩ := List.forall_mem_cons.mp h
    intro hbefore
    exact ih hweights _ (hadd hbefore hw)

theorem sum_nonneg {weights : List α} (h : ∀ w ∈ weights, ofNat 0 ≤ w) : ofNat 0 ≤ sum weights :=
  sum_induction (P := fun x => ofNat 0 ≤ x) Rounded.isZero_neg_zero.2 Rounded.add_nonneg h

theorem isZero_sum {weights : List α} (h : ∀ w ∈ weights, IsZero w) : IsZero (sum weights) :=
  sum_induction (P := fun x => IsZero x) Rounded.isZero_neg_zero Rounded.isZero_add h

/-- A sum of scalars from zero to one never becomes infinite: where it is large, one more of them
changes nothing. -/
theorem isFinite_sum {weights : List α} (h : ∀ w ∈ weights, ofNat 0 ≤ w ∧ w ≤ ofNat 1) :
    isFinite (sum weights) = true := by
  have hzero : isFinite (-ofNat 0 : α) = true :=
    (Rounded.isFinite_iff_lt Rounded.isZero_neg_zero.2).mpr
      (Rounded.lt_of_le_of_lt Rounded.isZero_neg_zero.1 Rounded.infinity_pos)
  have hsum := sum_induction (P := fun x => ofNat 0 ≤ x ∧ isFinite x = true)
    (Q := fun w => ofNat 0 ≤ w ∧ w ≤ ofNat 1) ⟨Rounded.isZero_neg_zero.2, hzero⟩
    (fun hx hw => ⟨Rounded.add_nonneg hx.1 hw.1, Rounded.isFinite_add hx.1 hx.2 hw.1 hw.2⟩) h
  exact hsum.2

/-! ## Shares of the largest weight -/

theorem le_greatest {x y : α} (hx : isNaN x = false) (hy : isNaN y = false) :
    x ≤ greatest x y ∧ y ≤ greatest x y := by
  unfold greatest
  rw [if_neg (by simp [hy])]
  split
  · next hlt => exact ⟨Rounded.le_refl hx, Rounded.le_of_lt hlt⟩
  · next hge => exact ⟨Rounded.le_of_not_gt hx hy hge, Rounded.le_refl hy⟩

theorem le_foldl_greatest {weights : List α} (h : ∀ w ∈ weights, isNaN w = false) {x : α}
    (hx : isNaN x = false) :
    x ≤ weights.foldl greatest x ∧ ∀ w ∈ weights, w ≤ weights.foldl greatest x := by
  induction weights generalizing x with
  | nil => exact ⟨Rounded.le_refl hx, fun w hw => by cases hw⟩
  | cons w weights ih =>
    obtain ⟨hw, hweights⟩ := List.forall_mem_cons.mp h
    obtain ⟨hleft, hright⟩ := le_greatest hx hw
    obtain ⟨hlargest, hall⟩ := ih hweights (Rounded.number_of_le hleft).2
    refine ⟨Rounded.le_trans hleft hlargest, ?_⟩
    intro v hv
    rcases List.mem_cons.mp hv with rfl | hrest
    · exact Rounded.le_trans hright hlargest
    · exact hall v hrest

/-- Weights that are not all zero have a largest one above zero. -/
theorem largest_pos {weights : List α} (h : ∀ w ∈ weights, ofNat 0 ≤ w)
    (hinfinite : isInfinite (sum weights) = true) :
    ofNat 0 < weights.foldl greatest (ofNat 0) := by
  obtain ⟨hlargest, hall⟩ :=
    le_foldl_greatest (fun w hw => (Rounded.number_of_le (h w hw)).2) Rounded.number_zero
  refine Rounded.lt_of_not_ge Rounded.number_zero (Rounded.number_of_le hlargest).2 ?_
  intro hzero
  have hsum := isZero_sum fun w hw => ⟨Rounded.le_trans (hall w hw) hzero, h w hw⟩
  have hfinite : isFinite (sum weights) = true :=
    (Rounded.isFinite_iff_lt hsum.2).mpr (Rounded.lt_of_le_of_lt hsum.1 Rounded.infinity_pos)
  rw [isInfinite, hfinite] at hinfinite
  simp at hinfinite

omit [Rounded α] in
theorem shares_of_infinite {weights : List α} (hinfinite : isInfinite (sum weights) = true) :
    shares weights = weights.map (· / weights.foldl greatest (ofNat 0)) := if_pos hinfinite

omit [Rounded α] in
theorem shares_of_finite {weights : List α} (hfinite : ¬isInfinite (sum weights) = true) :
    shares weights = weights := if_neg hfinite

theorem share_mem_unit {weights : List α} (h : ∀ w ∈ weights, ofNat 0 ≤ w)
    (hfinite : ∀ w ∈ weights, isFinite w = true) (hinfinite : isInfinite (sum weights) = true) :
    ∀ part ∈ shares weights, ofNat 0 ≤ part ∧ part ≤ ofNat 1 := by
  have hpos := largest_pos h hinfinite
  obtain ⟨-, hall⟩ :=
    le_foldl_greatest (fun w hw => (Rounded.number_of_le (h w hw)).2) Rounded.number_zero
  rw [shares_of_infinite hinfinite]
  intro part hpart
  obtain ⟨w, hw, rfl⟩ := List.mem_map.mp hpart
  exact ⟨Rounded.div_nonneg (h w hw) hpos (.inl (hfinite w hw)),
    Rounded.div_le_one (h w hw) (hfinite w hw) (hall w hw) hpos⟩

theorem shares_nonneg {weights : List α} (h : ∀ w ∈ weights, ofNat 0 ≤ w)
    (hfinite : ∀ w ∈ weights, isFinite w = true) : ∀ part ∈ shares weights, ofNat 0 ≤ part := by
  by_cases hinfinite : isInfinite (sum weights) = true
  · exact fun part hpart => (share_mem_unit h hfinite hinfinite part hpart).1
  · rw [shares_of_finite hinfinite]
    exact h

theorem parts_finite {weights : List α} (h : ∀ w ∈ weights, ofNat 0 ≤ w)
    (hfinite : ∀ w ∈ weights, isFinite w = true) :
    ofNat 0 ≤ sum (shares weights) ∧ isFinite (sum (shares weights)) = true := by
  refine ⟨sum_nonneg (shares_nonneg h hfinite), ?_⟩
  by_cases hinfinite : isInfinite (sum weights) = true
  · exact isFinite_sum (share_mem_unit h hfinite hinfinite)
  · rw [shares_of_finite hinfinite]
    simpa [isInfinite, (Rounded.number_of_le (sum_nonneg h)).2] using hinfinite

/-! ## The draw -/

omit [Rounded α] in
theorem mem_infiniteIndices_iff {weights : List α} {i : Nat} :
    i ∈ infiniteIndices weights ↔ ∃ w, weights[i]? = some w ∧ isInfinite w = true := by
  unfold infiniteIndices
  constructor
  · intro h
    obtain ⟨⟨w, j⟩, hentry, rfl⟩ := List.mem_map.mp h
    obtain ⟨hmem, hinfinite⟩ := List.mem_filter.mp hentry
    exact ⟨w, List.mem_zipIdx_iff_getElem?.mp hmem, hinfinite⟩
  · rintro ⟨w, hw, hinfinite⟩
    have hmem : (w, i) ∈ weights.zipIdx := List.mem_zipIdx_iff_getElem?.mpr hw
    exact List.mem_map.mpr ⟨(w, i), List.mem_filter.mpr ⟨hmem, hinfinite⟩, rfl⟩

omit [Rounded α] in
theorem infiniteIndices_eq_nil_iff {weights : List α} :
    infiniteIndices weights = [] ↔ ∀ w ∈ weights, isInfinite w = false := by
  rw [List.eq_nil_iff_forall_not_mem]
  constructor
  · intro h w hw
    obtain ⟨i, hi⟩ := List.mem_iff_getElem?.mp hw
    cases hinfinite : isInfinite w with
    | false => rfl
    | true => exact absurd (mem_infiniteIndices_iff.mpr ⟨w, hi, hinfinite⟩) (h i)
  · intro h i hi
    obtain ⟨w, hw, hinfinite⟩ := mem_infiniteIndices_iff.mp hi
    simp [h w (List.mem_of_getElem? hw)] at hinfinite

theorem isInfinite_eq_false_iff {w : α} (hw : ofNat 0 ≤ w) :
    isInfinite w = false ↔ isFinite w = true := by
  simp [isInfinite, (Rounded.number_of_le hw).2]

variable [WordSource G]

omit [Rounded α] in
theorem threshold_eq {total : α} (hpos : ofNat 0 < total) (hfinite : isFinite total = true)
    (g : G) : threshold total g = (.ok ((fraction g).1 * total), (fraction (α := α) g).2) := by
  unfold threshold
  rw [if_pos ⟨hpos, hfinite⟩]

omit [Rounded α] in
/-- The only fault of the wheel is a range without an end. -/
theorem spin_error {weights : List α} {g g' : G} {f : Fault}
    (h : spin weights g = (.error f, g')) : f = .emptyRange := by
  unfold spin at h
  split at h
  · cases h
  · split at h
    · dsimp only at h
      split at h
      · cases h
      · unfold Random.threshold at h
        split at h
        · cases h
        · cases h
          rfl
    · cases h

omit [Rounded α] in
/-- Of several weights, the wheel stops at an infinite one if there is one. -/
theorem spin_infinite {weights : List α} (hmany : weights.length ≠ 1)
    (h : ∃ v ∈ weights, isInfinite v = true) (g : G) :
    ∃ i g' w, spin weights g = (.ok i, g') ∧ weights[i]? = some w ∧ isInfinite w = true := by
  unfold spin
  rw [if_neg hmany]
  cases hindices : infiniteIndices weights with
  | nil =>
    obtain ⟨v, hv, hinfinite⟩ := h
    simp [infiniteIndices_eq_nil_iff.mp hindices v hv] at hinfinite
  | cons first others =>
    have hlt := below_lt (Nat.succ_pos others.length) g
    have hmem : (first :: others).getD (below (others.length + 1) g).1 first ∈
        infiniteIndices weights := by
      rw [hindices, List.getD_eq_getElem?_getD, List.getElem?_eq_getElem hlt, Option.getD_some]
      exact List.getElem_mem hlt
    obtain ⟨w, hw, hinfinite⟩ := mem_infiniteIndices_iff.mp hmem
    exact ⟨_, _, w, rfl, hw, hinfinite⟩

omit [Rounded α] in
/-- One draw from several weights none of which is infinite, if their parts have a sum to draw a
threshold from. -/
theorem spin_eq_land {weights : List α} (hmany : weights.length ≠ 1)
    (hnone : ∀ w ∈ weights, isInfinite w = false) (hpos : ofNat 0 < sum (shares weights))
    (hnot : ¬sum (shares weights) ≤ ofNat 0) (hfinite : isFinite (sum (shares weights)) = true)
    (g : G) :
    spin weights g =
      (.ok (land ((fraction g).1 * sum (shares weights)) (shares weights)),
        (fraction (α := α) g).2) := by
  unfold spin
  rw [if_neg hmany, infiniteIndices_eq_nil_iff.mpr hnone]
  dsimp only
  rw [if_neg hnot, threshold_eq hpos hfinite]
  rfl

/-- Of several finite weights, the wheel stops where a threshold stands, if there is something to
divide. -/
theorem spin_finite {weights : List α} (hmany : weights.length ≠ 1)
    (h : ∀ w ∈ weights, ofNat 0 ≤ w) (hfinite : ∀ w ∈ weights, isFinite w = true)
    (hpos : ofNat 0 < sum (shares weights)) (g : G) :
    ∃ t g', threshold (sum (shares weights)) g = (.ok t, g') ∧
      spin weights g = (.ok (land t (shares weights)), g') := by
  have htotal := (parts_finite h hfinite).2
  have hnone : ∀ w ∈ weights, isInfinite w = false := fun w hw =>
    (isInfinite_eq_false_iff (h w hw)).mpr (hfinite w hw)
  exact ⟨_, _, threshold_eq hpos htotal g,
    spin_eq_land hmany hnone hpos (Rounded.not_ge_of_lt hpos) htotal g⟩

omit [Rounded α] in
/-- Where there is nothing to divide, any index will do. -/
theorem spin_zero {weights : List α} (hmany : weights.length ≠ 1)
    (hnone : infiniteIndices weights = []) (hzero : sum (shares weights) ≤ ofNat 0) (g : G) :
    spin weights g = (.ok (below weights.length g).1, (below weights.length g).2) := by
  unfold spin
  rw [if_neg hmany, hnone]
  dsimp only
  rw [if_pos hzero]

/-- **The wheel always stops at a weight**, if there is one. -/
theorem spin_ok {weights : List α} (hne : weights ≠ []) (h : ∀ w ∈ weights, ofNat 0 ≤ w) (g : G) :
    ∃ i g', spin weights g = (.ok i, g') ∧ i < weights.length := by
  have hlength : 0 < weights.length := List.length_pos_iff.mpr hne
  by_cases hmany : weights.length = 1
  · exact ⟨0, g, if_pos hmany, hlength⟩
  · by_cases hinfinite : ∃ v ∈ weights, isInfinite v = true
    · obtain ⟨i, g', w, hspin, hw, -⟩ := spin_infinite hmany hinfinite g
      exact ⟨i, g', hspin, (List.getElem?_eq_some_iff.mp hw).1⟩
    · have hnone : ∀ v ∈ weights, isInfinite v = false := by simpa using hinfinite
      have hfinite : ∀ v ∈ weights, isFinite v = true := fun v hv =>
        (isInfinite_eq_false_iff (h v hv)).mp (hnone v hv)
      by_cases hzero : sum (shares weights) ≤ ofNat 0
      · have hspin := spin_zero hmany (infiniteIndices_eq_nil_iff.mpr hnone) hzero g
        exact ⟨_, _, hspin, below_lt hlength g⟩
      · have hnumber := (Rounded.number_of_le (parts_finite h hfinite).1).2
        have hpos := Rounded.lt_of_not_ge Rounded.number_zero hnumber hzero
        obtain ⟨t, g', -, hspin⟩ := spin_finite hmany h hfinite hpos g
        have hparts : shares weights ≠ [] := by
          rw [← List.length_pos_iff, length_shares]
          exact hlength
        have hland : land t (shares weights) < (shares weights).length := land_lt hparts
        rw [length_shares] at hland
        exact ⟨_, g', hspin, hland⟩

end Roulette

end Stigmergy.Walk
