import Stigmergy.Proofs.Pheromone.Band
import Stigmergy.Proofs.Scalar.Proportional

/-!
# Cheaper trails have higher bands

What a trail lays may be too much for a finite level, or too little for one above zero, and the
formula of the bottom may come to no number. The band of a cheaper trail is not below it all the
same.

* `Band.top_le_top`: the cheaper trail has the higher top.
* `Band.bottom_le_bottom`: a higher top has the higher bottom, as far as the formula says what the
  bottom is.
* `Band.low_le_low`: and so it has after the bottom has been lowered to the top.
* `Band.ofTrail_le_ofTrail`: both for the bands of two trails.
-/

namespace Stigmergy.Pheromone.Band

open Scalar

variable {α : Type} [Scalar α] [Rounded α] [Proportional α] {high high' pBest : α} {states : Nat}

theorem top_le_top {cost cost' rho q : α} (hrho : ofNat 0 < rho) (hlt : ¬ofNat 1 ≤ rho)
    (hq : ofNat 0 < q) (hqf : isFinite q = true) (hpos : ofNat 0 < cost') (hle : cost' ≤ cost)
    (hfinite : isFinite cost = true) : top cost rho q ≤ top cost' rho q := by
  obtain ⟨hremaining, -, hrf⟩ := remaining_pos hrho hlt
  have hshare : ofNat 0 ≤ ofNat 1 / (ofNat 1 - rho) :=
    Rounded.div_nonneg (Rounded.le_of_lt Rounded.zero_lt_one) hremaining (.inr hrf)
  exact Proportional.div_le_div_left (Rounded.mul_nonneg hshare hq hqf) hpos hle hfinite

omit [Rounded α] [Proportional α] in
theorem bottom_eq (havg : (ofNat 1 : α) < ofNat states / ofNat 2) (high pBest : α) :
    bottom high states pBest =
      high * (ofNat 1 - decision states pBest) /
        ((ofNat states / ofNat 2 - ofNat 1) * decision states pBest) := if_pos havg

section Bottom

variable (hpow : ShrinkingPower α) (hstates : 0 < states) (hpos : ofNat 0 < pBest)
  (hlt : pBest < ofNat 1) (hhigh : ofNat 0 ≤ high) (hle : high ≤ high')
include hpow hstates hpos hlt hhigh hle

/-- A higher top has the higher bottom, if its own bottom is below it. It is a number then, and not
what a quotient by zero comes to. -/
theorem bottom_le_bottom (hbelow : bottom high' states pBest < high') :
    bottom high states pBest ≤ bottom high' states pBest := by
  have hnumber := (Rounded.number_of_lt hbelow).1
  by_cases havg : (ofNat 1 : α) < ofNat states / ofNat 2
  · have hnonneg : ofNat 0 ≤ bottom high' states pBest := by
      have hbottom := notNegative_bottom hpow (Rounded.le_trans hhigh hle) hstates hpos hlt
      exact Rounded.nonneg_of_notNegative hbottom hnumber
    have hfinite := Rounded.isFinite_of_lt hnonneg hbelow
    rw [bottom_eq havg] at hnumber hfinite ⊢
    rw [bottom_eq havg]
    obtain ⟨hroot, hroot1⟩ := decision_mem hpow hstates hpos hlt
    obtain ⟨herror, herrorf⟩ := error_nonneg hpow hstates hpos hlt
    have hproduct : isNaN (high' * (ofNat 1 - decision states pBest)) = false := by
      apply Bool.eq_false_iff.mpr
      intro hnan
      rw [Proportional.isNaN_div hnan] at hnumber
      cases hnumber
    have hmul := Proportional.mul_le_mul_right hhigh hle herror herrorf hproduct
    have hfirst : ofNat 0 ≤ high * (ofNat 1 - decision states pBest) := by
      have hsign := Rounded.notNegative_mul (Rounded.notNegative_of_nonneg hhigh)
        (Rounded.notNegative_of_nonneg herror)
      exact Rounded.nonneg_of_notNegative hsign (Rounded.number_of_le hmul).1
    have hothers : ofNat 0 < ofNat states / ofNat 2 - (ofNat 1 : α) :=
      Rounded.sub_pos Rounded.isFinite_one havg
    have hrf := Rounded.isFinite_of_le (Rounded.le_of_lt hroot) hroot1 Rounded.isFinite_one
    cases Rounded.isZero_or_pos (Rounded.mul_nonneg (Rounded.le_of_lt hothers) hroot hrf) with
    | inl hzero =>
      rw [Proportional.isFinite_div_zero hzero] at hfinite
      cases hfinite
    | inr hdivisor => exact Proportional.div_le_div_right hfirst hmul hdivisor hnumber
  · have hnone (top : α) : bottom top states pBest = ofNat 0 := if_neg havg
    rw [hnone, hnone]
    exact Rounded.le_refl Rounded.number_zero

/-- A higher top has the higher bottom, once it is lowered to the top. A bottom that is lowered, or
is no number, is the top itself. -/
theorem low_le_low :
    least (bottom high states pBest) high ≤ least (bottom high' states pBest) high' := by
  apply Rounded.least_le_least hle
  intro hbelow
  have hbottom := bottom_le_bottom hpow hstates hpos hlt hhigh hle hbelow
  exact Rounded.le_trans
    (Rounded.least_le_left (Rounded.number_of_le hbottom).1 (Rounded.number_of_le hle).1) hbottom

end Bottom

/-- The cheaper of two trails has the band whose top is not lower, and whose bottom is not lower
either if they have as many states. -/
theorem ofTrail_le_ofTrail {S : Type} (hpow : ShrinkingPower α) {t t' : Trail S α} {rho q : α}
    (hrho : ofNat 0 < rho) (hrho1 : ¬ofNat 1 ≤ rho) (hq : ofNat 0 < q) (hqf : isFinite q = true)
    (hpos : ofNat 0 < pBest) (hlt : pBest < ofNat 1) (ht : t.path ≠ []) (ht' : ofNat 0 < t'.cost)
    (hle : t'.cost ≤ t.cost) (hfinite : isFinite t.cost = true) :
    (ofTrail t rho q pBest).high ≤ (ofTrail t' rho q pBest).high ∧
      (t.path.length = t'.path.length →
        (ofTrail t rho q pBest).low ≤ (ofTrail t' rho q pBest).low) := by
  have htop := top_le_top hrho hrho1 hq hqf ht' hle hfinite
  refine ⟨htop, fun hlength => ?_⟩
  unfold ofTrail derive
  rw [← hlength]
  have hcost : ofNat 0 < t.cost := Rounded.lt_of_lt_of_le ht' hle
  have hhigh := top_nonneg hrho hrho1 hq hqf hcost hfinite
  exact low_le_low hpow (List.length_pos_iff.mpr ht) hpos hlt hhigh htop

end Stigmergy.Pheromone.Band
