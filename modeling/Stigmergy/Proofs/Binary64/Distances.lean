import Stigmergy.Proofs.Binary64.Laws
import Stigmergy.Proofs.Tour.Distance

/-!
# Distances between doubles

* `rank_sub_comm`: a difference and the one the other way round are equally far from zero.
* `hypotenuse_eq_of_natAbs`: the hypotenuse reads its sides' distances from zero alone.
* `mirrored_withPower`: so distances are the same in both directions, whatever the power function.
-/

namespace Stigmergy.Binary64

open Float.Model Float.Model.UnpackedFloat

variable {x x' y y' : Float}

/-- Rounding does not depend on the sign. -/
theorem rank_sub_comm (hx : (read x).isFinite = true) (hy : (read y).isFinite = true) :
    (read (x - y)).isNaN = false ∧ rank (read (x - y)) = -rank (read (y - x)) := by
  obtain ⟨hnumber, hrounds⟩ := sub_nearest (canonical_read x) (canonical_read y) hx hy
  obtain ⟨-, hback⟩ := sub_nearest (canonical_read y) (canonical_read x) hy hx
  have hneg := hback.neg
  rw [neg_sub] at hneg
  rw [read_sub, read_sub]
  exact ⟨hnumber, hrounds.unique hneg⟩

/-- The bits without the sign tell how far a double is from zero. -/
theorem natAbs_rank (hx : (read x).isNaN = false) :
    (rank (read x)).natAbs = x.toBits.toNat % 2 ^ 63 := by
  have hrank : rank (read x) = _ := rank_unpack x.toModel.toBits.toBitVec hx
  rw [hrank]
  cases signOf x.toModel.toBits.toBitVec with
  | negative => rw [apply_negative, Int.natAbs_neg, Int.natAbs_natCast]; rfl
  | positive => rw [apply_positive, Int.natAbs_natCast]; rfl

section Sides

variable (hx : (read x).isNaN = false) (hx' : (read x').isNaN = false)
  (h : (rank (read x)).natAbs = (rank (read x')).natAbs)
include hx hx' h

theorem isInf_eq_of_natAbs : x.isInf = x'.isInf := by
  have hfinite : (read x).isFinite = true ↔ (read x').isFinite = true := by
    rw [isFinite_iff_rank (canonical_read x) hx, isFinite_iff_rank (canonical_read x') hx']
    omega
  rw [Bool.eq_iff_iff, isInf_iff hx, isInf_iff hx']
  simpa using hfinite.not

theorem magnitudeOf_eq_of_natAbs : magnitudeOf x = magnitudeOf x' := by
  have hbits : x.toBits.toNat % 2 ^ 63 = x'.toBits.toNat % 2 ^ 63 := by
    rw [← natAbs_rank hx, ← natAbs_rank hx', h]
  have hfields (bits : ℕ) : magnitude (bits % 2 ^ 63) = magnitude bits := by
    have hfraction : bits % 2 ^ 63 % (1 <<< 52) = bits % (1 <<< 52) := by
      change bits % 2 ^ 63 % 2 ^ 52 = bits % 2 ^ 52
      omega
    have hexponent : (bits % 2 ^ 63) >>> 52 % (1 <<< 11) = bits >>> 52 % (1 <<< 11) := by
      rw [Nat.shiftRight_eq_div_pow, Nat.shiftRight_eq_div_pow]
      change bits % 2 ^ 63 / 2 ^ 52 % 2 ^ 11 = bits / 2 ^ 52 % 2 ^ 11
      omega
    unfold magnitude
    rw [hfraction, hexponent]
  unfold magnitudeOf
  rw [← hfields, hbits, hfields]

end Sides

/-- The hypotenuse reads of its sides how far they are from zero, and nothing else. -/
theorem hypotenuse_eq_of_natAbs (hx : (read x).isNaN = false) (hx' : (read x').isNaN = false)
    (hy : (read y).isNaN = false) (hy' : (read y').isNaN = false)
    (hsides : (rank (read x)).natAbs = (rank (read x')).natAbs)
    (hsides' : (rank (read y)).natAbs = (rank (read y')).natAbs) :
    hypotenuse x y = hypotenuse x' y' := by
  unfold hypotenuse
  simp only [isInf_eq_of_natAbs hx hx' hsides, isInf_eq_of_natAbs hy hy' hsides', isNaN_eq, hx, hx',
    hy, hy', magnitudeOf_eq_of_natAbs hx hx' hsides, magnitudeOf_eq_of_natAbs hy hy' hsides']
  rfl

/-- **Distances between doubles are the same in both directions**, whatever the power function. -/
theorem mirrored_withPower (pow : Float → Float → Float) :
    @Tour.Mirrored Float (withPower pow) := by
  let : Scalar Float := withPower pow
  constructor
  intro x x' y y' hx hx' hy hy'
  obtain ⟨hnumber, hrank⟩ := rank_sub_comm hx hx'
  obtain ⟨hnumber', -⟩ := rank_sub_comm hx' hx
  obtain ⟨hother, hranks⟩ := rank_sub_comm hy hy'
  obtain ⟨hother', -⟩ := rank_sub_comm hy' hy
  exact hypotenuse_eq_of_natAbs hnumber hnumber' hother hother' (by omega) (by omega)

instance : Tour.Mirrored Float := mirrored_withPower Float.pow

end Stigmergy.Binary64
