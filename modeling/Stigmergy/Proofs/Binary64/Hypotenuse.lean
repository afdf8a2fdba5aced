import Stigmergy.Binary64.Hypotenuse
import Stigmergy.Proofs.Binary64.Reading

/-!
# The hypotenuse is zero at zero sides only

* `squareRoot_eq`: the descent gives the integer square root.
* `nearest_rootMagnitude_pos`: the root of a positive count is not rounded to zero.
* `hypotenuse_rank`: the hypotenuse of numbers is a number at or above zero, and zero for zeros
  only.
-/

namespace Stigmergy.Binary64

open Float.Model Float.Model.UnpackedFloat

theorem descend_eq (n guess : ℕ) : descend n guess = Nat.sqrt.iter n guess := by
  induction guess using descend.induct n with
  | case1 guess next hlt ih =>
    rw [descend, Nat.sqrt.iter]
    simp only [next] at hlt ih
    rw [if_pos hlt, dif_pos hlt, ih]
  | case2 guess next hge =>
    rw [descend, Nat.sqrt.iter]
    simp only [next] at hge
    rw [if_neg hge, dif_neg hge]

theorem squareRoot_eq (n : ℕ) : squareRoot n = n.sqrt := by
  unfold squareRoot
  rw [descend_eq]
  by_cases hn : n ≤ 1
  · obtain rfl | rfl : n = 0 ∨ n = 1 := by omega
    · decide +kernel
    · decide +kernel
  · rw [Nat.sqrt, if_neg hn]

theorem le_squareRoot_shiftLeft {n : ℕ} (k : ℕ) (hn : 0 < n) :
    2 ^ k ≤ squareRoot (n <<< (2 * k)) := by
  rw [squareRoot_eq, Nat.le_sqrt, Nat.shiftLeft_eq, ← pow_add, ← two_mul]
  exact Nat.le_mul_of_pos_left _ hn

theorem le_halfEven (m k : ℕ) : m / 2 ^ k ≤ halfEven m k := by
  have hunit : 1 <<< k = 2 ^ k := by rw [Nat.shiftLeft_eq, one_mul]
  simp only [halfEven, hunit]
  split_ifs <;> omega

theorem nearest_le (m : ℕ) (e : ℤ) : nearest m e ≤ infinityBits := by
  unfold nearest
  split_ifs
  · exact Nat.zero_le _
  · exact min_le_right _ _

/-- A count that reaches the lowest place is not rounded to zero. -/
theorem nearest_pos {m k : ℕ} {e : ℤ} (hm : 2 ^ k ≤ m) (he : lowestPlace ≤ e + k) :
    0 < nearest m e := by
  have hpos : 0 < m := (Nat.two_pow_pos k).trans_le hm
  unfold lowestPlace at he
  unfold nearest
  rw [if_neg hpos.ne']
  dsimp only
  refine lt_min ?_ (by decide)
  rcases lt_or_ge lowestPlace (m.log2 + e - 52) with hhigh | hlow
  · have : 0 < (max (m.log2 + e - 52) lowestPlace - lowestPlace).toNat <<< 52 := by
      rw [Nat.shiftLeft_eq]
      exact Nat.mul_pos (by omega) (by norm_num)
    omega
  · rw [max_eq_right hlow]
    have hcount : 0 < if e ≤ lowestPlace then halfEven m (lowestPlace - e).toNat
        else m <<< (e - lowestPlace).toNat := by
      split_ifs with h
      · have hk : (lowestPlace - e).toNat ≤ k := by
          unfold lowestPlace
          omega
        have hone : 1 ≤ m / 2 ^ (lowestPlace - e).toNat := by
          rw [Nat.le_div_iff_mul_le (Nat.two_pow_pos _), one_mul]
          exact (Nat.pow_le_pow_right (by norm_num) hk).trans hm
        exact hone.trans (le_halfEven _ _)
      · rw [Nat.shiftLeft_eq]
        exact Nat.mul_pos hpos (Nat.two_pow_pos _)
    omega

theorem rootMagnitude_zero (e : ℤ) : (rootMagnitude 0 e).count = 0 := by
  simp [rootMagnitude, squareRoot_eq]

theorem nearest_rootMagnitude_pos {n : ℕ} {e : ℤ} (hn : 0 < n) (he : lowestPlace ≤ e) :
    0 < nearest (rootMagnitude n e).count (rootMagnitude n e).place := by
  have hroot := le_squareRoot_shiftLeft (56 - n.log2 / 2) hn
  refine nearest_pos (k := 56 - n.log2 / 2 + 1) ?_ ?_
  · simp only [rootMagnitude]
    omega
  · simp only [rootMagnitude]
    omega

/-! ## Bits of magnitudes -/

theorem lowestPlace_le_magnitude (bits : ℕ) : lowestPlace ≤ (magnitude bits).place := by
  unfold magnitude
  dsimp only
  split
  · exact le_rfl
  · dsimp only
    omega

theorem magnitude_count_eq_zero_iff (bits : ℕ) :
    (magnitude bits).count = 0 ↔ bits % 2 ^ 63 = 0 := by
  have hfraction : bits % (1 <<< 52) = bits % 2 ^ 52 := rfl
  have hexponent : (bits >>> 52) % (1 <<< 11) = bits / 2 ^ 52 % 2 ^ 11 := by
    rw [Nat.shiftRight_eq_div_pow]
    rfl
  unfold magnitude
  rw [hfraction, hexponent]
  dsimp only
  split
  · next h =>
    dsimp only
    omega
  · next h =>
    have hone : 1 <<< 52 = 2 ^ 52 := rfl
    dsimp only
    rw [hone]
    omega

theorem magnitudeOf_count_eq_zero_iff {x : Float} (hx : (read x).isNaN = false) :
    (magnitudeOf x).count = 0 ↔ rank (read x) = 0 := by
  have hrank := rank_unpack x.toModel.toBits.toBitVec hx
  change (magnitude x.toModel.toBits.toBitVec.toNat).count = 0 ↔ rank (unpack64 _) = 0
  rw [magnitude_count_eq_zero_iff, hrank]
  cases signOf x.toModel.toBits.toBitVec <;> simp only [apply_negative, apply_positive] <;> omega

/-- Bits up to those of infinity are the rank of what they hold. -/
theorem unpack_magnitude {n : ℕ} (hn : n ≤ infinityBits) :
    (unpack64 (BitVec.ofNat 64 n)).isNaN = false ∧ rank (unpack64 (BitVec.ofNat 64 n)) = n := by
  have hbits : infinityBits = 2047 * 2 ^ 52 := by decide
  have htoNat : (BitVec.ofNat 64 n).toNat = n := by
    rw [BitVec.toNat_ofNat]
    omega
  have hnumber : (unpack64 (BitVec.ofNat 64 n)).isNaN = false := by
    have he := toNat_unpackExponent (BitVec.ofNat 64 n)
    have hm := toNat_unpackMantissa (BitVec.ofNat 64 n)
    rw [htoNat] at he hm
    rw [unpack_eq_ofFields]
    unfold ofFields
    split_ifs with htop hzero hlow hm0
    · rfl
    · -- The fields of what is no number are above those of infinity.
      rw [htop] at he
      have htop' : (-1#11).toNat = 2047 := rfl
      have hfraction : @unpackMantissa Format.binary64 (BitVec.ofNat 64 n) = 0#52 := by
        apply BitVec.eq_of_toNat_eq
        rw [hm, BitVec.toNat_zero]
        omega
      exact absurd hfraction hzero
    · rfl
    · rfl
    · rfl
  refine ⟨hnumber, ?_⟩
  rw [rank_unpack _ hnumber, signOf_eq, htoNat, if_pos (by omega), apply_positive]
  omega

theorem read_ofMagnitude (m : Magnitude) :
    (read (ofMagnitude m)).isNaN = false ∧
      rank (read (ofMagnitude m)) = nearest m.count m.place := by
  have hread : read (ofMagnitude m) = unpack64 (pack64 (unpack64
    (BitVec.ofNat 64 (nearest m.count m.place)))) := rfl
  rw [hread, unpack_pack (canonical_unpack _)]
  exact unpack_magnitude (nearest_le _ _)

/-! ## The hypotenuse -/

theorem isInf_iff {x : Float} (hx : (read x).isNaN = false) :
    x.isInf = true ↔ (read x).isFinite = false := by
  change (read x).isInf = true ↔ _
  cases h : read x with
  | notANumber =>
    rw [h] at hx
    cases hx
  | infinity | zero | finite => simp [UnpackedFloat.isInf, UnpackedFloat.isFinite]

variable {x y : Float}

/-- Of numbers, a number at or above zero, and zero for zeros only. -/
theorem hypotenuse_rank (hx : (read x).isNaN = false) (hy : (read y).isNaN = false) :
    (read (hypotenuse x y)).isNaN = false ∧ 0 ≤ rank (read (hypotenuse x y)) ∧
      (rank (read (hypotenuse x y)) ≤ 0 ↔ rank (read x) = 0 ∧ rank (read y) = 0) := by
  unfold hypotenuse
  by_cases hinf : (x.isInf || y.isInf) = true
  · rw [if_pos hinf]
    have hread : read (Float.ofBits infinityBits.toUInt64) = .infinity .positive := rfl
    have htop : ¬rank (.infinity .positive) ≤ 0 := by decide
    have infinite {z : Float} (hz : (read z).isNaN = false) (h : z.isInf = true) :
        rank (read z) ≠ 0 := by
      intro hzero
      rw [isInf_iff hz] at h
      have := (isFinite_iff_rank (canonical_read z) hz).not.mp (by simp [h])
      rw [hzero] at this
      exact this (by decide)
    rw [hread]
    refine ⟨rfl, by decide, ⟨fun h => absurd h htop, fun ⟨hx0, hy0⟩ => ?_⟩⟩
    rcases Bool.or_eq_true_iff.mp hinf with h | h
    · exact absurd hx0 (infinite hx h)
    · exact absurd hy0 (infinite hy h)
  · rw [if_neg hinf]
    have hnan : ¬(x.isNaN || y.isNaN) = true := by
      rw [isNaN_eq, isNaN_eq, hx, hy]
      decide
    rw [if_neg hnan]
    dsimp only
    set place := min (magnitudeOf x).place (magnitudeOf y).place with hplace
    set p := (magnitudeOf x).count <<< ((magnitudeOf x).place - place).toNat with hp
    set q := (magnitudeOf y).count <<< ((magnitudeOf y).place - place).toNat with hq
    obtain ⟨hnumber, hrank⟩ := read_ofMagnitude (rootMagnitude (p * p + q * q) place)
    refine ⟨hnumber, by omega, ?_⟩
    rw [hrank, ← magnitudeOf_count_eq_zero_iff hx, ← magnitudeOf_count_eq_zero_iff hy]
    have hlow : lowestPlace ≤ place :=
      le_min (lowestPlace_le_magnitude _) (lowestPlace_le_magnitude _)
    have shifted {m k : ℕ} : m <<< k = 0 ↔ m = 0 := by
      rw [Nat.shiftLeft_eq]
      simp
    rw [← shifted (k := ((magnitudeOf x).place - place).toNat), ← hp,
      ← shifted (m := (magnitudeOf y).count) (k := ((magnitudeOf y).place - place).toNat), ← hq]
    constructor
    · intro hle
      by_contra hne
      have hpos : 0 < p * p + q * q := by
        rcases not_and_or.mp hne with h | h
        · have := Nat.mul_pos (Nat.pos_of_ne_zero h) (Nat.pos_of_ne_zero h)
          omega
        · have := Nat.mul_pos (Nat.pos_of_ne_zero h) (Nat.pos_of_ne_zero h)
          omega
      have := nearest_rootMagnitude_pos hpos hlow
      omega
    · rintro ⟨hp0, hq0⟩
      rw [hp0, hq0]
      simp [nearest, rootMagnitude_zero]

end Stigmergy.Binary64
