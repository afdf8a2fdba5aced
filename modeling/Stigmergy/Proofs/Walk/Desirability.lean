import Stigmergy.Proofs.Binary64.Extended
import Stigmergy.Proofs.Binary64.Power
import Stigmergy.Settings.Validity
import Stigmergy.Walk.Desirability

/-!
# The pull of a candidate keeps order

* `PowerKeepsOrder`: what is asked of the power function.
* `appeal_nonneg`, `appeal_le_appeal`: a cost appeals the less the higher it is, from the free step
  to the infinite one.
* `guarded_nonneg`, `desirability_le_desirability`: guarded products are not negative, and keep the
  order of their factors.
* `desirability_keeps_order`: the pull of a candidate is a number and not negative, more pheromone
  never makes it weaker, and a higher cost never makes it stronger.
-/

namespace Stigmergy.Walk

open Scalar
open Settings (IsExponent)

variable {α : Type} [Scalar α]

/-- Powers of scalars that are not negative, infinity among them, are not negative, grow with the
base, and are one where the exponent is zero. -/
structure PowerKeepsOrder (α : Type) [Scalar α] : Prop where
  pow_nonneg {x y : α} : ofNat 0 ≤ x → IsExponent y → ofNat 0 ≤ pow x y
  pow_le_pow {x x' y : α} : ofNat 0 ≤ x → x ≤ x' → IsExponent y → pow x y ≤ pow x' y
  pow_zero {x y : α} : ofNat 0 ≤ x → IsZero y → pow x y = ofNat 1

theorem powerKeepsOrder_sketched :
    @PowerKeepsOrder Float (Binary64.withPower Binary64.sketchedPower) := by
  let _ : Scalar Float := Binary64.withPower Binary64.sketchedPower
  constructor
  · intro x y hx _
    exact Binary64.sketchedPower_cases (P := fun v => Float.ofNat 0 ≤ v) (by decide +kernel)
      (by decide +kernel) hx y
  · intro x x' y _ hxx _
    exact Binary64.sketchedPower_le_sketchedPower hxx y
  · intro x y _ hy
    exact if_pos hy

variable [Rounded α] {pheromone pheromone' cost cost' alpha beta : α}

/-! ## The appeal of a cost -/

theorem inverse_nonneg (hcost : ofNat 0 < cost) : ofNat 0 ≤ ofNat 1 / cost :=
  Rounded.div_nonneg (Rounded.le_of_lt Rounded.zero_lt_one) hcost (.inl Rounded.isFinite_one)

theorem pos_of_not_isZero (hcost : ofNat 0 ≤ cost) (hzero : ¬IsZero cost) : ofNat 0 < cost :=
  (Rounded.isZero_or_pos hcost).resolve_left hzero

theorem appeal_nonneg (hpow : PowerKeepsOrder α) (hcost : ofNat 0 ≤ cost)
    (hbeta : IsExponent beta) : ofNat 0 ≤ appeal cost beta := by
  unfold appeal
  by_cases hzero : IsZero cost
  · rw [if_pos hzero]
    split
    · exact Rounded.le_of_lt Rounded.infinity_pos
    · exact Rounded.le_of_lt Rounded.zero_lt_one
  · rw [if_neg hzero]
    exact hpow.pow_nonneg (inverse_nonneg (pos_of_not_isZero hcost hzero)) hbeta

/-- Where cost does not matter, every cost appeals alike. -/
theorem appeal_eq_one (hpow : PowerKeepsOrder α) (hcost : ofNat 0 ≤ cost) (hbeta : IsZero beta) :
    appeal cost beta = ofNat 1 := by
  unfold appeal
  by_cases hzero : IsZero cost
  · rw [if_pos hzero, if_neg (Rounded.not_lt_of_ge hbeta.1)]
  · rw [if_neg hzero]
    exact hpow.pow_zero (inverse_nonneg (pos_of_not_isZero hcost hzero)) hbeta

/-- **The higher cost appeals less.** The free step has no reciprocal, and is above all others by
itself. -/
theorem appeal_le_appeal [Extended α] (hpow : PowerKeepsOrder α) (hcost : ofNat 0 ≤ cost)
    (hle : cost ≤ cost') (hbeta : IsExponent beta) : appeal cost' beta ≤ appeal cost beta := by
  have hcost' : ofNat 0 ≤ cost' := Rounded.le_trans hcost hle
  obtain hzero | hpos := Rounded.isZero_or_pos hbeta.1
  · rw [appeal_eq_one hpow hcost hzero, appeal_eq_one hpow hcost' hzero]
    exact Rounded.le_refl Rounded.number_one
  · obtain hfree | hcosts := Rounded.isZero_or_pos hcost
    · have hinfinity : appeal cost beta = infinity := by simp [appeal, hfree, hpos]
      rw [hinfinity]
      exact Rounded.le_infinity (Rounded.number_of_le (appeal_nonneg hpow hcost' hbeta)).2
    · have hcosts' : ofNat 0 < cost' := Rounded.lt_of_lt_of_le hcosts hle
      have hreciprocal {c : α} (hc : ofNat 0 < c) : appeal c beta = pow (ofNat 1 / c) beta :=
        if_neg fun hzero => Rounded.not_ge_of_lt hc hzero.1
      rw [hreciprocal hcosts, hreciprocal hcosts']
      exact hpow.pow_le_pow (inverse_nonneg hcosts') (Extended.inverse_le_inverse hcosts hle) hbeta

/-! ## The guarded product -/

omit [Rounded α] in
theorem desirability_of_number (h : isNaN (pow pheromone alpha * appeal cost beta) = false) :
    desirability pheromone cost alpha beta = pow pheromone alpha * appeal cost beta := by
  simp [desirability, h]

omit [Rounded α] in
theorem desirability_of_isNaN (h : isNaN (pow pheromone alpha * appeal cost beta) = true) :
    desirability pheromone cost alpha beta = ofNat 0 := by
  simp [desirability, h]

theorem guarded_nonneg (hpull : ofNat 0 ≤ pow pheromone alpha)
    (happeal : ofNat 0 ≤ appeal cost beta) : ofNat 0 ≤ desirability pheromone cost alpha beta := by
  cases hnumber : isNaN (pow pheromone alpha * appeal cost beta) with
  | true =>
    rw [desirability_of_isNaN hnumber]
    exact Rounded.le_refl Rounded.number_zero
  | false =>
    rw [desirability_of_number hnumber]
    exact Rounded.nonneg_of_notNegative (Rounded.notNegative_mul
      (Rounded.notNegative_of_nonneg hpull) (Rounded.notNegative_of_nonneg happeal)) hnumber

/-- **Guarded products keep order.** Where the larger product is no number, one of its factors is
zero, and so is the factor below it. -/
theorem desirability_le_desirability [Extended α] (hpull : ofNat 0 ≤ pow pheromone alpha)
    (hpulls : pow pheromone alpha ≤ pow pheromone' alpha) (happeal : ofNat 0 ≤ appeal cost beta)
    (happeals : appeal cost beta ≤ appeal cost' beta) :
    desirability pheromone cost alpha beta ≤ desirability pheromone' cost' alpha beta := by
  have hpull' := Rounded.le_trans hpull hpulls
  have happeal' := Rounded.le_trans happeal happeals
  cases hnumber : isNaN (pow pheromone alpha * appeal cost beta) with
  | true =>
    rw [desirability_of_isNaN hnumber]
    exact guarded_nonneg hpull' happeal'
  | false =>
    rw [desirability_of_number hnumber]
    cases hnumber' : isNaN (pow pheromone' alpha * appeal cost' beta) with
    | true =>
      rw [desirability_of_isNaN hnumber']
      have hzero : IsZero (pow pheromone alpha) ∨ IsZero (appeal cost beta) :=
        (Extended.isZero_of_isNaN_mul hpull' happeal' hnumber').imp
          (Rounded.isZero_of_le hpull hpulls) (Rounded.isZero_of_le happeal happeals)
      exact (Extended.isZero_mul hpull happeal hzero hnumber).1
    | false =>
      rw [desirability_of_number hnumber']
      exact Extended.mul_le_mul hpull hpulls happeal happeals hnumber hnumber'

/-- **The pull of a candidate keeps order.** With exponents that settings may have, from no
pheromone to infinitely much and from a free step to an infinite cost, the pull is a number and not
negative, more pheromone never makes it weaker, and a higher cost never makes it stronger. -/
theorem desirability_keeps_order [Extended α] (hpow : PowerKeepsOrder α) (halpha : IsExponent alpha)
    (hbeta : IsExponent beta) :
    (∀ pheromone cost : α, ofNat 0 ≤ pheromone → ofNat 0 ≤ cost →
      ofNat 0 ≤ desirability pheromone cost alpha beta ∧
        isNaN (desirability pheromone cost alpha beta) = false) ∧
    (∀ pheromone pheromone' cost : α, ofNat 0 ≤ pheromone → pheromone ≤ pheromone' →
      ofNat 0 ≤ cost →
      desirability pheromone cost alpha beta ≤ desirability pheromone' cost alpha beta) ∧
    ∀ pheromone cost cost' : α, ofNat 0 ≤ pheromone → ofNat 0 ≤ cost → cost ≤ cost' →
      desirability pheromone cost' alpha beta ≤ desirability pheromone cost alpha beta := by
  have hsame {x : α} (hx : ofNat 0 ≤ x) : x ≤ x := Rounded.le_refl (Rounded.number_of_le hx).2
  refine ⟨?_, ?_, ?_⟩
  · intro pheromone cost hpheromone hcost
    have hnonneg := guarded_nonneg (hpow.pow_nonneg hpheromone halpha)
      (appeal_nonneg hpow hcost hbeta)
    exact ⟨hnonneg, (Rounded.number_of_le hnonneg).2⟩
  · intro pheromone pheromone' cost hpheromone hmore hcost
    have happeal := appeal_nonneg hpow hcost hbeta
    apply desirability_le_desirability
    · exact hpow.pow_nonneg hpheromone halpha
    · exact hpow.pow_le_pow hpheromone hmore halpha
    · exact happeal
    · exact hsame happeal
  · intro pheromone cost cost' hpheromone hcost hdearer
    have hpull := hpow.pow_nonneg hpheromone halpha
    apply desirability_le_desirability
    · exact hpull
    · exact hsame hpull
    · exact appeal_nonneg hpow (Rounded.le_trans hcost hdearer) hbeta
    · exact appeal_le_appeal hpow hcost hdearer hbeta

/-- Free steps, steps of cost one and infinitely dear ones, with no pheromone, some and infinitely
much. -/
theorem desirability_keeps_order_at_ends :
    let _ : Scalar Float := Binary64.withPower Binary64.sketchedPower
    let pull (pheromone cost : Float) : Float := desirability pheromone cost 1 3
    IsExponent (1 : Float) ∧ IsExponent (3 : Float) ∧
      ofNat 0 ≤ pull 0 0 ∧ pull 0 0 ≤ pull 0.5 0 ∧
      pull infinity infinity ≤ pull infinity 1 ∧ pull infinity 1 ≤ pull infinity 0 := by
  intro _ pull
  let _ := Binary64.rounded_withPower Binary64.sketchedPower
  let _ := Binary64.extended_withPower Binary64.sketchedPower
  have halpha : IsExponent (1 : Float) := by decide +kernel
  have hbeta : IsExponent (3 : Float) := by decide +kernel
  obtain ⟨hnonneg, hpheromone, hcost⟩ :=
    desirability_keeps_order powerKeepsOrder_sketched halpha hbeta
  refine ⟨halpha, hbeta, (hnonneg 0 0 ?_ ?_).1, hpheromone 0 0.5 0 ?_ ?_ ?_,
    hcost infinity 1 infinity ?_ ?_ ?_, hcost infinity 0 1 ?_ ?_ ?_⟩ <;> decide +kernel

end Stigmergy.Walk
