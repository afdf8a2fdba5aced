import Stigmergy.Proofs.Scalar.Exact
import Stigmergy.Proofs.Walk.Wheel
import Stigmergy.Random.Script

/-!
# The wheel is proportional

Without rounding, the thresholds below all weights together are divided among the weights without
a gap and without an overlap, and each weight gets an interval of its own length.

* `slot`: the thresholds from the sum of the weights before an index up to the sum with its own.
* `select_eq_some_iff`, `exists_select`: a threshold is in one slot, and that is where it lands.
* `land_div`: thresholds and weights may be divided alike.
* `limited`: exact arithmetic with a limit, above which sums are infinite. A wheel that has to
  divide its weights stops where the one without a limit does.
-/

namespace Stigmergy

namespace Exact

/-- Exact arithmetic in which everything from a limit on counts as infinite. -/
@[reducible]
def limited {K : Type} [Exact K] (limit : K) : Scalar K :=
  { Exact.scalar with
    infinity := limit
    isFinite := fun x => x < limit }

end Exact

namespace Walk.Roulette

open Scalar Stigmergy.Random

variable {K : Type} [Exact K] {weights : List K} {t before : K} {i : Nat}

/-- The thresholds that an index stands for. -/
def slot (weights : List K) (i : Nat) : Set K :=
  Set.Ico (weights.take i).sum (weights.take (i + 1)).sum

/-! ## Sums -/

theorem foldl_add_eq (x : K) (weights : List K) :
    weights.foldl (· + ·) x = x + weights.sum := by
  induction weights generalizing x with
  | nil => simp
  | cons w weights ih => simp [ih, add_assoc]

theorem sum_eq (weights : List K) : Scalar.sum weights = weights.sum := by
  simp [Scalar.sum, foldl_add_eq]

/-! ## Slots -/

theorem slot_of_getElem? {w : K} (hw : weights[i]? = some w) :
    slot weights i = Set.Ico (weights.take i).sum ((weights.take i).sum + w) := by
  obtain ⟨hi, rfl⟩ := List.getElem?_eq_some_iff.mp hw
  rw [slot, List.sum_take_succ weights i hi]

@[simp]
theorem mem_slot_zero {w : K} : t ∈ slot (w :: weights) 0 ↔ 0 ≤ t ∧ t < w := by
  simp [slot]

@[simp]
theorem mem_slot_succ {w : K} : t ∈ slot (w :: weights) (i + 1) ↔ t - w ∈ slot weights i := by
  simp [slot, le_sub_iff_add_le', sub_lt_iff_lt_add']

/-- Slots lie between zero and the sum of all weights. -/
theorem of_mem_slot (h : ∀ w ∈ weights, 0 ≤ w) (ht : t ∈ slot weights i) :
    0 ≤ t ∧ t < weights.sum := by
  have hbefore : 0 ≤ (weights.take i).sum :=
    List.sum_nonneg fun w hw => h w (List.mem_of_mem_take hw)
  have hafter : 0 ≤ (weights.drop (i + 1)).sum :=
    List.sum_nonneg fun w hw => h w (List.mem_of_mem_drop hw)
  have hsplit := List.sum_take_add_sum_drop weights (i + 1)
  exact ⟨hbefore.trans ht.1, ht.2.trans_le (hsplit ▸ le_add_of_nonneg_right hafter)⟩

/-! ## Landing -/

/-- **A threshold lands where its slot is**, counted from the weights before. -/
theorem select_eq_some_iff (h : ∀ w ∈ weights, 0 ≤ w) (ht : before ≤ t) :
    select t before weights = some i ↔ t - before ∈ slot weights i := by
  induction weights generalizing before i with
  | nil => simp [select, slot]
  | cons w weights ih =>
    obtain ⟨hw, hweights⟩ := List.forall_mem_cons.mp h
    rw [select]
    by_cases hlt : t < before + w
    · have hpassed : t - before - w < 0 := by linarith
      rw [if_pos hlt]
      cases i with
      | zero => simpa [ht, sub_lt_iff_lt_add'] using hlt
      | succ j =>
        have hnone : t - before - w ∉ slot weights j := fun hmem =>
          absurd (of_mem_slot hweights hmem).1 (not_le.mpr hpassed)
        simpa using hnone
    · rw [if_neg hlt]
      cases i with
      | zero => simpa [ht, sub_lt_iff_lt_add'] using not_lt.mp hlt
      | succ j => simpa [sub_sub] using ih hweights (not_lt.mp hlt)

/-- Below all weights together no threshold has to do without a slot. -/
theorem exists_select (hbefore : before ≤ t) (ht : t < before + weights.sum) :
    ∃ i, select t before weights = some i := by
  induction weights generalizing before with
  | nil => exact absurd hbefore (by simpa using ht)
  | cons w weights ih =>
    by_cases hlt : t < before + w
    · exact ⟨0, if_pos hlt⟩
    · obtain ⟨i, hi⟩ := ih (not_lt.mp hlt) (by simpa [add_assoc] using ht)
      exact ⟨i + 1, by simp [select, hlt, hi]⟩

/-- **Below all weights together a threshold lands in the one slot that it is in.** -/
theorem exists_land (h : ∀ w ∈ weights, 0 ≤ w) (ht : 0 ≤ t) (hlt : t < weights.sum) :
    ∃ i, select t (ofNat 0) weights = some i ∧ land t weights = i ∧
      ∀ j, t ∈ slot weights j ↔ j = i := by
  have hbefore : ofNat 0 ≤ t := by simpa using ht
  have hslot (j : Nat) : select t (ofNat 0) weights = some j ↔ t ∈ slot weights j := by
    simpa using select_eq_some_iff h hbefore
  obtain ⟨i, hi⟩ : ∃ i, select t (ofNat 0) weights = some i :=
    exists_select (by simpa using ht) (by simpa using hlt)
  refine ⟨i, hi, by rw [land, hi, Option.getD_some], fun j => ?_⟩
  rw [← hslot, hi, Option.some.injEq, eq_comm]

theorem land_eq_iff (h : ∀ w ∈ weights, 0 ≤ w) :
    (0 ≤ t ∧ t < weights.sum) ∧ land t weights = i ↔ t ∈ slot weights i := by
  constructor
  · rintro ⟨⟨ht, hlt⟩, rfl⟩
    obtain ⟨i, -, hland, hslot⟩ := exists_land h ht hlt
    exact (hslot _).mpr hland
  · intro hmem
    have hrange := of_mem_slot h hmem
    obtain ⟨j, -, hland, hslot⟩ := exists_land h hrange.1 hrange.2
    exact ⟨hrange, hland.trans ((hslot i).mp hmem).symm⟩

/-- Weights and thresholds can be divided alike. -/
theorem select_div {c : K} (hc : 0 < c) (t before : K) (weights : List K) :
    select (t / c) (before / c) (weights.map (· / c)) = select t before weights := by
  induction weights generalizing before with
  | nil => rfl
  | cons w weights ih =>
    have hsum : before / c + w / c = (before + w) / c := (add_div before w c).symm
    simp [select, hsum, ih, div_lt_div_iff_of_pos_right hc]

theorem land_div {c : K} (hc : 0 < c) (t : K) (weights : List K) :
    land (t / c) (weights.map (· / c)) = land t weights := by
  have hselect := select_div hc t (ofNat 0) weights
  simp only [Exact.ofNat_eq, Nat.cast_zero, zero_div] at hselect
  simp [land, hselect]

/-! ## The largest weight -/

theorem greatest_eq (x y : K) : greatest x y = max x y := by
  rw [max_comm]
  exact (max_def_lt y x).symm

theorem le_largest (x : K) (weights : List K) :
    x ≤ weights.foldl greatest x ∧ ∀ w ∈ weights, w ≤ weights.foldl greatest x := by
  induction weights generalizing x with
  | nil => simp
  | cons w weights ih =>
    obtain ⟨hleft, hright⟩ := ih (greatest x w)
    have hstep : x ≤ greatest x w ∧ w ≤ greatest x w := by simp [greatest_eq]
    exact ⟨hstep.1.trans hleft, List.forall_mem_cons.mpr ⟨hstep.2.trans hleft, hright⟩⟩

theorem sum_div (weights : List K) (c : K) : (weights.map (· / c)).sum = weights.sum / c := by
  simp [div_eq_mul_inv, List.sum_map_mul_right]

theorem largest_pos_of_sum_pos (hpos : 0 < weights.sum) :
    0 < weights.foldl greatest (ofNat 0) := by
  by_contra hle
  have hnonpos : ∀ w ∈ weights, w ≤ 0 := fun w hw =>
    ((le_largest (ofNat 0) weights).2 w hw).trans (not_lt.mp hle)
  have hsum : weights.sum ≤ 0 := by simpa using List.sum_le_card_nsmul weights 0 hnonpos
  exact absurd hsum (not_le.mpr hpos)

/-- No share of the largest weight is above one. -/
theorem sum_div_largest_le (hpos : 0 < weights.sum) :
    weights.sum / weights.foldl greatest (ofNat 0) ≤ weights.length := by
  have hlargest := largest_pos_of_sum_pos hpos
  have hshare : ∀ part ∈ weights.map (· / weights.foldl greatest (ofNat 0)), part ≤ 1 := by
    intro part hpart
    obtain ⟨w, hw, rfl⟩ := List.mem_map.mp hpart
    exact (div_le_one hlargest).mpr ((le_largest (ofNat 0) weights).2 w hw)
  simpa [sum_div] using List.sum_le_card_nsmul _ 1 hshare

/-! ## Draws -/

variable {G : Type} [WordSource G]

/-- A fraction is one of the first `2 ^ 52` that are `2 ^ -52` apart. -/
theorem fraction_mem_unit (g : G) : 0 ≤ (fraction g : K × G).1 ∧ (fraction g : K × G).1 < 1 := by
  have hcount : ((WordSource.next64 g).1 >>> 12).toNat < 1 <<< 52 := by
    have hword := (WordSource.next64 g).1.toNat_lt
    rw [UInt64.toNat_shiftRight, Nat.shiftRight_eq_div_pow]
    change _ / 2 ^ 12 < 2 ^ 52
    omega
  have hparts : (0 : K) < ((1 <<< 52 : Nat) : K) := Nat.cast_pos.mpr (by decide)
  exact ⟨div_nonneg (Nat.cast_nonneg _) hparts.le, (div_lt_one hparts).mpr (Nat.cast_lt.mpr hcount)⟩

/-- **One draw in exact arithmetic**: a threshold lands. -/
theorem spin_exact (hmany : 2 ≤ weights.length) (hpos : 0 < weights.sum) (g : G) :
    spin weights g =
      (.ok (land ((fraction g : K × G).1 * weights.sum) weights), (fraction g : K × G).2) := by
  have hshares : shares weights = weights := shares_of_finite (by simp [isInfinite, isFinite])
  have hsum : Scalar.sum (shares weights) = weights.sum := by rw [hshares, sum_eq]
  have hspin : spin weights g = _ :=
    spin_eq_land (by omega) (fun w _ => rfl) (by simpa [hsum]) (by simpa [hsum]) rfl g
  rwa [hsum, hshares] at hspin

section Limited

variable {limit : K}

theorem isInfinite_limited (x : K) : @isInfinite K (Exact.limited limit) x = !decide (x < limit) :=
  rfl

theorem land_limited (t : K) (parts : List K) :
    @land K (Exact.limited limit) t parts = land t parts := by
  have hselect (before : K) :
      @select K (Exact.limited limit) t before parts = select t before parts := by
    induction parts generalizing before with
    | nil => rfl
    | cons w parts ih =>
      have hrest := congrArg (Option.map (· + 1)) (ih (before + w))
      exact if_congr Iff.rfl rfl hrest
  exact congrArg (Option.getD · (parts.length - 1)) (hselect (ofNat 0))

theorem shares_limited_of_lt (h : weights.sum < limit) :
    @shares K (Exact.limited limit) weights = weights := by
  apply @shares_of_finite K (Exact.limited limit)
  have hsum : @Scalar.sum K (Exact.limited limit) weights = weights.sum := sum_eq weights
  simp [isInfinite_limited, hsum, h]

theorem shares_limited_of_ge (h : limit ≤ weights.sum) :
    @shares K (Exact.limited limit) weights =
      weights.map (· / weights.foldl greatest (ofNat 0)) := by
  apply @shares_of_infinite K (Exact.limited limit)
  have hsum : @Scalar.sum K (Exact.limited limit) weights = weights.sum := sum_eq weights
  simp [isInfinite_limited, hsum, h]

theorem spin_limited_eq_land (hmany : 2 ≤ weights.length) (hlimit : ∀ w ∈ weights, w < limit)
    {parts : List K} (hparts : @shares K (Exact.limited limit) weights = parts)
    (hpos : 0 < parts.sum) (hlt : parts.sum < limit) (g : G) :
    @spin K G (Exact.limited limit) _ weights g =
      (.ok (land ((fraction g : K × G).1 * parts.sum) parts), (fraction g : K × G).2) := by
  have hsum : @Scalar.sum K (Exact.limited limit) parts = parts.sum := sum_eq parts
  have hzero : (@ofNat K (Exact.limited limit) 0) = 0 := Nat.cast_zero
  have hspin := @spin_eq_land K G (Exact.limited limit) _ weights (by omega)
    fun w hw => by simp [isInfinite_limited, hlimit w hw]
  rw [hparts, hsum, hzero] at hspin
  rw [← land_limited]
  exact hspin hpos (not_le.mpr hpos) (decide_eq_true hlt) g

/-- **With a limit the draw is the same.** Where the sum gets to the limit, the weights are divided
by the largest one, and the threshold with them. -/
theorem spin_limited (hmany : 2 ≤ weights.length) (hpos : 0 < weights.sum)
    (hlimit : ∀ w ∈ weights, w < limit) (hcount : (weights.length : K) < limit) (g : G) :
    @spin K G (Exact.limited limit) _ weights g = spin weights g := by
  rw [spin_exact hmany hpos]
  by_cases hlt : weights.sum < limit
  · exact spin_limited_eq_land hmany hlimit (shares_limited_of_lt hlt) hpos hlt g
  · have hlargest := largest_pos_of_sum_pos hpos
    have hquotient : 0 < weights.sum / weights.foldl greatest (ofNat 0) := div_pos hpos hlargest
    have hspin := spin_limited_eq_land hmany hlimit (shares_limited_of_ge (not_lt.mp hlt))
      (by rwa [sum_div]) (by rw [sum_div]; exact (sum_div_largest_le hpos).trans_lt hcount) g
    rw [hspin, sum_div, ← mul_div_assoc, land_div hlargest]

end Limited

end Walk.Roulette

end Stigmergy
