import Stigmergy.Proofs.Binary64.Laws
import Stigmergy.Proofs.Pheromone.Band
import Stigmergy.Proofs.Walk.Wheel

/-!
# A power function to compute with

Nothing is known of the powers that doubles come with, so runs are evaluated with a sketch of them.
It is right at the powers that these runs take, though not everywhere, and it keeps all laws that
are asked of powers.

* `sketchedPower_cases`: a power is one, one half or its base.
* `sketchedPower_le_sketchedPower`: the larger base has the larger power.
* `shrinkingPower_sketched`, `powerKeepsSign_sketched`: so the laws hold.
-/

namespace Stigmergy.Binary64

open Scalar
open Pheromone (ShrinkingPower)
open Walk (PowerKeepsSign)

def sketchedRoot (x : Float) : Float :=
  if ofNat 0 < x ∧ x < ofNat 1 then ofNat 1 / ofNat 2 else x

/-- Right at the exponents zero and one, at the bases zero, one and infinity for all exponents from
zero on, and for the roots that are one half: the third of `1 / 8`, the fourth of `1 / 16`, the
fifth of `1 / 32`. -/
def sketchedPower (x y : Float) : Float :=
  if IsZero y then ofNat 1 else if y < ofNat 1 then sketchedRoot x else x

variable {x x' : Float}

theorem sketchedPower_cases {P : Float → Prop} (hone : P (ofNat 1)) (hhalf : P (ofNat 1 / ofNat 2))
    (hx : P x) (y : Float) : P (sketchedPower x y) := by
  unfold sketchedPower sketchedRoot
  split
  · exact hone
  · split
    · split
      · exact hhalf
      · exact hx
    · exact hx

theorem sketchedRoot_le_sketchedRoot (hxx : x ≤ x') : sketchedRoot x ≤ sketchedRoot x' := by
  have hnumber := Rounded.number_of_le hxx
  unfold sketchedRoot
  by_cases hmiddle' : ofNat 0 < x' ∧ x' < ofNat 1
  · rw [if_pos hmiddle']
    by_cases hmiddle : ofNat 0 < x ∧ x < ofNat 1
    · rw [if_pos hmiddle]
      decide +kernel
    · rw [if_neg hmiddle]
      have hzero : ¬ofNat 0 < x := fun hpos =>
        hmiddle ⟨hpos, Rounded.lt_of_le_of_lt hxx hmiddle'.2⟩
      have hle : x ≤ ofNat 0 := Rounded.le_of_not_gt hnumber.1 Rounded.number_zero hzero
      exact Rounded.le_trans hle (by decide +kernel)
  · rw [if_neg hmiddle']
    by_cases hmiddle : ofNat 0 < x ∧ x < ofNat 1
    · rw [if_pos hmiddle]
      have hone : ¬x' < ofNat 1 := fun hlt =>
        hmiddle' ⟨Rounded.lt_of_lt_of_le hmiddle.1 hxx, hlt⟩
      have hle : ofNat 1 ≤ x' := Rounded.le_of_not_gt Rounded.number_one hnumber.2 hone
      exact Rounded.le_trans (by decide +kernel) hle
    · rw [if_neg hmiddle]
      exact hxx

theorem sketchedPower_le_sketchedPower (hxx : x ≤ x') (y : Float) :
    sketchedPower x y ≤ sketchedPower x' y := by
  unfold sketchedPower
  split
  · decide +kernel
  · split
    · exact sketchedRoot_le_sketchedRoot hxx
    · exact hxx

theorem shrinkingPower_sketched : @ShrinkingPower Float (withPower sketchedPower) := by
  let _ : Scalar Float := withPower sketchedPower
  let _ := rounded_withPower sketchedPower
  constructor
  · intro x y hpos _ _ _
    exact sketchedPower_cases (P := fun v => Float.ofNat 0 < v) (by decide +kernel)
      (by decide +kernel) hpos y
  · intro x y _ hlt _ _
    exact sketchedPower_cases (P := fun v => v ≤ Float.ofNat 1) (by decide +kernel)
      (by decide +kernel) (Rounded.le_of_lt hlt) y

theorem powerKeepsSign_sketched : @PowerKeepsSign Float (withPower sketchedPower) := by
  let _ : Scalar Float := withPower sketchedPower
  constructor
  intro x y hx _
  exact sketchedPower_cases (P := fun v => ¬v < Float.ofNat 0) (by decide +kernel)
    (by decide +kernel) hx y

end Stigmergy.Binary64
