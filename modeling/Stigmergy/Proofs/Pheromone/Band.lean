import Stigmergy.Pheromone.Band
import Stigmergy.Proofs.Scalar.Rounded

/-!
# Bands are in order

The top of a band may be infinite or zero, and then its bottom may be no number before it is lowered
to the top.

* `ShrinkingPower`: what is asked of the power function.
* `Band.InOrder`: from a level that is not negative up to one that is not below it.
* `Band.inOrder_derive`: the band of a trail is in order.
-/

namespace Stigmergy.Pheromone

open Scalar

/-- A power of a base between zero and one stays above zero and at most one, for exponents from zero
to one. The exponent is zero where a trail has so many states that their count is infinite. -/
structure ShrinkingPower (α : Type) [Scalar α] : Prop where
  pow_pos {x y : α} : ofNat 0 < x → x < ofNat 1 → ofNat 0 ≤ y → y ≤ ofNat 1 → ofNat 0 < pow x y
  pow_le_one {x y : α} : ofNat 0 < x → x < ofNat 1 → ofNat 0 ≤ y → y ≤ ofNat 1 →
    pow x y ≤ ofNat 1

namespace Band

variable {S α : Type} [Scalar α]

/-- Two numbers in order, the lower one not negative. -/
structure InOrder (b : Band α) : Prop where
  nonneg : ofNat 0 ≤ b.low
  low_le_high : b.low ≤ b.high

variable [Rounded α]

theorem inOrder_initial {level : α} (h : ofNat 0 < level) : (Band.initial level).InOrder :=
  ⟨Rounded.le_refl Rounded.number_zero, Rounded.le_of_lt h⟩

/-- The share that evaporation leaves is above zero and at most one. -/
theorem remaining_pos {rho : α} (hrho : ofNat 0 < rho) (hlt : ¬ofNat 1 ≤ rho) :
    ofNat 0 < ofNat 1 - rho ∧ ofNat 1 - rho ≤ ofNat 1 ∧ isFinite (ofNat 1 - rho) = true := by
  have hnumber := (Rounded.number_of_lt hrho).2
  have hlt : rho < ofNat 1 := Rounded.lt_of_not_ge hnumber Rounded.number_one hlt
  have hfinite := Rounded.isFinite_of_lt (Rounded.le_of_lt hrho) hlt
  have hpos : ofNat 0 < ofNat 1 - rho := Rounded.sub_pos hfinite hlt
  have hle : ofNat 1 - rho ≤ ofNat 1 :=
    Rounded.sub_le_self Rounded.isFinite_one (Rounded.le_of_lt hrho) hfinite
  exact ⟨hpos, hle, Rounded.isFinite_of_le (Rounded.le_of_lt hpos) hle Rounded.isFinite_one⟩

theorem top_nonneg {cost rho q : α} (hrho : ofNat 0 < rho) (hlt : ¬ofNat 1 ≤ rho)
    (hq : ofNat 0 < q) (hqf : isFinite q = true) (hcost : ofNat 0 < cost)
    (hcf : isFinite cost = true) : ofNat 0 ≤ top cost rho q := by
  obtain ⟨hpos, -, hfinite⟩ := remaining_pos hrho hlt
  have hshare : ofNat 0 ≤ ofNat 1 / (ofNat 1 - rho) :=
    Rounded.div_nonneg (Rounded.le_of_lt Rounded.zero_lt_one) hpos (.inr hfinite)
  have hlaid : ofNat 0 ≤ ofNat 1 / (ofNat 1 - rho) * q := Rounded.mul_nonneg hshare hq hqf
  exact Rounded.div_nonneg hlaid hcost (.inr hcf)

theorem decision_mem (hpow : ShrinkingPower α) {states : Nat} (hstates : 0 < states) {pBest : α}
    (hpos : ofNat 0 < pBest) (hlt : pBest < ofNat 1) :
    ofNat 0 < decision states pBest ∧ decision states pBest ≤ ofNat 1 := by
  have hcount : (ofNat 0 : α) < ofNat states := Rounded.ofNat_pos hstates
  have hone : (ofNat 0 : α) ≤ ofNat 1 := Rounded.le_of_lt Rounded.zero_lt_one
  have hnonneg : (ofNat 0 : α) ≤ ofNat 1 / ofNat states :=
    Rounded.div_nonneg hone hcount (.inl Rounded.isFinite_one)
  have hle : (ofNat 1 : α) / ofNat states ≤ ofNat 1 :=
    Rounded.div_le_one hone Rounded.isFinite_one (Rounded.ofNat_le_ofNat hstates) hcount
  exact ⟨hpow.pow_pos hpos hlt hnonneg hle, hpow.pow_le_one hpos hlt hnonneg hle⟩

/-- The probability of a single wrong decision is not negative. -/
theorem error_nonneg (hpow : ShrinkingPower α) {states : Nat} (hstates : 0 < states) {pBest : α}
    (hpos : ofNat 0 < pBest) (hlt : pBest < ofNat 1) :
    ofNat 0 ≤ ofNat 1 - decision states pBest ∧
      isFinite (ofNat 1 - decision states pBest) = true := by
  obtain ⟨hroot, hle⟩ := decision_mem hpow hstates hpos hlt
  have hnonneg := Rounded.le_of_lt hroot
  have hfinite := Rounded.isFinite_of_le hnonneg hle Rounded.isFinite_one
  have herror : ofNat 0 ≤ ofNat 1 - decision states pBest := Rounded.sub_nonneg hfinite hle
  have hless : ofNat 1 - decision states pBest ≤ ofNat 1 :=
    Rounded.sub_le_self Rounded.isFinite_one hnonneg hfinite
  exact ⟨herror, Rounded.isFinite_of_le herror hless Rounded.isFinite_one⟩

/-- The bottom is not negative, if it is a number: infinity times nothing is none, and so is nothing
over nothing. -/
theorem notNegative_bottom (hpow : ShrinkingPower α) {high : α} (hhigh : ofNat 0 ≤ high)
    {states : Nat} (hstates : 0 < states) {pBest : α} (hpos : ofNat 0 < pBest)
    (hlt : pBest < ofNat 1) : NotNegative (bottom high states pBest) := by
  obtain ⟨hroot, -⟩ := decision_mem hpow hstates hpos hlt
  obtain ⟨herror, -⟩ := error_nonneg hpow hstates hpos hlt
  unfold bottom
  dsimp only
  split
  · next havg =>
    have hothers : ofNat 0 < ofNat states / ofNat 2 - (ofNat 1 : α) :=
      Rounded.sub_pos Rounded.isFinite_one havg
    have hproduct := Rounded.notNegative_mul (Rounded.notNegative_of_nonneg hhigh)
      (Rounded.notNegative_of_nonneg herror)
    exact Rounded.notNegative_div_mul hproduct hothers hroot
  · exact Rounded.notNegative_of_nonneg (Rounded.le_refl Rounded.number_zero)

theorem inOrder_derive (hpow : ShrinkingPower α) {cost rho q pBest : α} {states : Nat}
    (hhigh : ofNat 0 ≤ top cost rho q) (hstates : 0 < states) (hpos : ofNat 0 < pBest)
    (hlt : pBest < ofNat 1) : (derive cost states rho q pBest).InOrder :=
  ⟨Rounded.least_nonneg (notNegative_bottom hpow hhigh hstates hpos hlt) hhigh,
    Rounded.least_le (Rounded.number_of_le hhigh).2⟩

end Band

end Stigmergy.Pheromone
