import Stigmergy.Proofs.Scalar.Exact
import Stigmergy.Proofs.Pheromone.Band

/-!
# The band at stagnation

At stagnation the edges of the best trail hold the top of the band and all others its bottom. An ant
that stands on the trail then has one edge at the top to go on by, and on average half as many
candidates as the trail has states.

* `Band.keep`: the probability that the ant keeps to the trail in one step.
* `Band.others_mul_bottom`: what the other candidates weigh at the bottom, which the formula of the
  bottom is made for.
* `Band.band_solves_stagnation`: so the whole trail is taken again with the given probability,
  unless the bottom had to be lowered to the top; then with a larger one.
-/

namespace Stigmergy.Pheromone.Band

open Scalar

variable {K : Type} [Exact K] {cost rho q pBest high : K} {states : Nat}

/-- The probability of one edge at the top against half as many candidates as there are states, all
others at the bottom. -/
def keep (b : Band K) (states : Nat) : K := b.high / (b.high + (states / 2 - 1) * b.low)

theorem top_eq : top cost rho q = 1 / (1 - rho) * q / cost := by
  simp [top]

theorem top_pos (hcost : 0 < cost) (hlt : rho < 1) (hq : 0 < q) : 0 < top cost rho q := by
  have hremaining : 0 < 1 - rho := sub_pos.mpr hlt
  rw [top_eq]
  positivity

/-- What evaporation leaves of the top is what a trail of that cost lays. -/
theorem top_mul_remaining (hlt : rho < 1) : top cost rho q * (1 - rho) = q / cost := by
  have hremaining : 1 - rho ≠ 0 := (sub_pos.mpr hlt).ne'
  rw [top_eq]
  field_simp

theorem others_pos (hstates : 3 ≤ states) : (0 : K) < states / 2 - 1 := by
  have hcount : (3 : K) ≤ states := by exact_mod_cast hstates
  linarith

/-- With two states there is nothing to decide. -/
theorem bottom_of_two (high pBest : K) : bottom high 2 pBest = 0 := by
  simp [bottom]

section Root

variable (hstates : 3 ≤ states) (hroot : 0 < decision states pBest)
include hstates hroot

/-- The other candidates at the bottom weigh as much as makes the root the probability of the one at
the top. -/
theorem others_mul_bottom (high : K) :
    (states / 2 - 1) * decision states pBest * bottom high states pBest =
      high * (1 - decision states pBest) := by
  have hothers : (0 : K) < states / 2 - 1 := others_pos hstates
  have havg : (1 : K) < states / 2 := by linarith
  have hbottom : bottom high states pBest =
      high * (1 - decision states pBest) / ((states / 2 - 1) * decision states pBest) := by
    simp [bottom, havg]
  rw [hbottom]
  exact mul_div_cancel₀ _ (mul_pos hothers hroot).ne'

/-- The bottom is above zero, and it has to be lowered only if half of the states, all at one level,
are more than a root can decide between. -/
theorem bottom_pos (hhigh : 0 < high) (hlt : decision states pBest < 1) :
    0 < bottom high states pBest := by
  have hothers : (0 : K) < states / 2 - 1 := others_pos hstates
  have hrest : 0 < high * (1 - decision states pBest) := mul_pos hhigh (sub_pos.mpr hlt)
  rw [← others_mul_bottom hstates hroot] at hrest
  exact (mul_pos_iff_of_pos_left (mul_pos hothers hroot)).mp hrest

theorem bottom_le_iff (hhigh : 0 < high) :
    bottom high states pBest ≤ high ↔ 1 ≤ decision states pBest * (states / 2) := by
  have hothers : (0 : K) < states / 2 - 1 := others_pos hstates
  rw [← mul_le_mul_iff_right₀ (mul_pos hothers hroot), others_mul_bottom hstates hroot,
    mul_comm _ high, mul_le_mul_iff_right₀ hhigh]
  constructor
  · intro h
    linarith
  · intro h
    linarith

/-- The root is the probability of the edge at the top if the others are at the bottom, and below it
if they have been lowered. -/
theorem decision_le_keep {b : Band K} (hhigh : 0 < b.high) (hlow : 0 < b.low)
    (hle : b.low ≤ bottom b.high states pBest) :
    decision states pBest ≤ b.keep states ∧
      (b.keep states = decision states pBest ↔ b.low = bottom b.high states pBest) := by
  have hothers : (0 : K) < states / 2 - 1 := others_pos hstates
  have hpos := mul_pos hothers hroot
  have hweights : 0 < b.high + (states / 2 - 1) * b.low := add_pos hhigh (mul_pos hothers hlow)
  have hbottom := others_mul_bottom hstates hroot b.high
  unfold keep
  constructor
  · have hlowered := mul_le_mul_of_nonneg_left hle hpos.le
    rw [le_div_iff₀ hweights]
    linarith
  · have hlows : b.low = bottom b.high states pBest ↔
        (states / 2 - 1) * decision states pBest * b.low =
          (states / 2 - 1) * decision states pBest * bottom b.high states pBest :=
      (mul_right_inj' hpos.ne').symm
    rw [div_eq_iff hweights.ne', hlows, hbottom]
    constructor
    · intro h
      linarith
    · intro h
      linarith

/-- The bottom of the band is above zero and at most its top. -/
theorem low_derive (hcost : 0 < cost) (hlt : rho < 1) (hq : 0 < q) (hpBest : pBest < 1)
    (hpower : decision states pBest ^ states = pBest) :
    0 < (derive cost states rho q pBest).low ∧
      (derive cost states rho q pBest).low ≤ (derive cost states rho q pBest).high := by
  have hhigh : 0 < top cost rho q := top_pos hcost hlt hq
  have hbottom : 0 < bottom (top cost rho q) states pBest :=
    bottom_pos hstates hroot hhigh (Exact.root_lt_one hpower hpBest)
  simp [derive, hbottom, hhigh]

end Root

/-- **The band solves the equation of stagnation.** Let a root of the given probability, of as many
factors as the trail has states, be above zero. Then the bottom of the band is above zero and at
most its top. An ant that stands on the trail keeps to it with at least the root's probability in
each step, and so with at least the given one in all of them; with exactly that if the bottom has
not been lowered to the top, which is so where the root times half the number of states is one or
more. With two states the bottom is zero. -/
theorem band_solves_stagnation (hcost : 0 < cost) (hlt : rho < 1) (hq : 0 < q)
    (hpBest : pBest < 1) :
    (∀ states : Nat, 3 ≤ states → 0 < decision states pBest →
      decision states pBest ^ states = pBest →
      let b := derive cost states rho q pBest
      (0 < b.low ∧ b.low ≤ b.high) ∧
        decision states pBest ≤ b.keep states ∧ pBest ≤ b.keep states ^ states ∧
        (b.keep states ^ states = pBest ↔ bottom b.high states pBest ≤ b.high) ∧
        (bottom b.high states pBest ≤ b.high ↔ 1 ≤ decision states pBest * (states / 2))) ∧
    (derive cost 2 rho q pBest).low = 0 := by
  have hhigh : 0 < top cost rho q := top_pos hcost hlt hq
  constructor
  · intro states hstates hroot hpower b
    have hlow : b.low = min (bottom b.high states pBest) b.high := Exact.least_eq _ _
    have horder : 0 < b.low ∧ b.low ≤ b.high :=
      low_derive hstates hroot hcost hlt hq hpBest hpower
    have hle : b.low ≤ bottom b.high states pBest := hlow ▸ min_le_left _ _
    obtain ⟨hkeep, heq⟩ := decision_le_keep hstates hroot (b := b) hhigh horder.1 hle
    have hsome : states ≠ 0 := by omega
    have hpowers : b.keep states ^ states = decision states pBest ^ states ↔
        b.keep states = decision states pBest :=
      pow_left_inj₀ (hroot.le.trans hkeep) hroot.le hsome
    rw [hpower] at hpowers
    refine ⟨horder, hkeep, ?_, ?_, bottom_le_iff hstates hroot hhigh⟩
    · calc pBest = decision states pBest ^ states := hpower.symm
        _ ≤ b.keep states ^ states := pow_le_pow_left₀ hroot.le hkeep states
    · rw [hpowers, heq, hlow, min_eq_left_iff]
  · simp [derive, bottom_of_two, hhigh.le]

/-- Among the real numbers, the probability of one decision is that root. -/
theorem decision_real {root : ℝ} (hroot : 0 ≤ root) {states : Nat} (hstates : states ≠ 0) :
    decision states (root ^ states) = root := by
  have hpower : decision states (root ^ states) = (root ^ states) ^ ((1 : Nat) / states : ℝ) := rfl
  rw [hpower, Nat.cast_one, one_div]
  exact Real.pow_rpow_inv_natCast hroot hstates

/-- With four states and the root one half the bottom is the top, without having been lowered. -/
theorem band_solves_stagnation_at_one_half :
    let b : Band ℝ := derive 1 4 (1 / 2) 1 ((1 / 2) ^ 4)
    (0 < b.low ∧ b.low ≤ b.high) ∧ 1 / 2 ≤ b.keep 4 ∧ b.keep 4 ^ 4 = (1 / 2) ^ 4 := by
  intro b
  have hroot : decision 4 ((1 / 2) ^ 4) = (1 / 2 : ℝ) := decision_real (by norm_num) (by decide)
  have hcost : (0 : ℝ) < 1 := one_pos
  have hlt : (1 / 2 : ℝ) < 1 := by norm_num
  have hpBest : (1 / 2 : ℝ) ^ 4 < 1 := by norm_num
  obtain ⟨hsolves, -⟩ := band_solves_stagnation hcost hlt hcost hpBest
  obtain ⟨horder, hkeep, -, heq, hlowered⟩ :=
    hsolves 4 (by decide) (by rw [hroot]; norm_num) (by rw [hroot])
  rw [hroot] at hkeep hlowered
  exact ⟨horder, hkeep, heq.mpr (hlowered.mpr (by norm_num))⟩

end Stigmergy.Pheromone.Band
