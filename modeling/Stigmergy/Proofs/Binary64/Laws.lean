import Stigmergy.Binary64.Arithmetic
import Stigmergy.Proofs.Binary64.Hypotenuse
import Stigmergy.Proofs.Binary64.Signs
import Stigmergy.Proofs.Scalar.Ample

/-!
# Doubles keep the laws of rounded arithmetic

* `withPower`: doubles with a power function of choice, since nothing is known of the usual one.
* `rounded_withPower`, `ample_withPower`, `absorbing_withPower`: they keep the laws, whatever the
  power function.
-/

namespace Stigmergy.Binary64

open Float.Model Float.Model.UnpackedFloat

@[reducible]
def withPower (pow : Float → Float → Float) : Scalar Float :=
  { (inferInstance : Scalar Float) with pow }

variable {x y : Float}

theorem nonneg_iff : Float.ofNat 0 ≤ x ↔ (read x).isNaN = false ∧ 0 ≤ rank (read x) := by
  rw [le_iff, rank_ofNat_zero]
  exact and_iff_right (ofNat_nearest 0).1

theorem pos_iff : Float.ofNat 0 < x ↔ (read x).isNaN = false ∧ 0 < rank (read x) := by
  rw [lt_iff, rank_ofNat_zero]
  exact and_iff_right (ofNat_nearest 0).1

theorem neg_iff : x < Float.ofNat 0 ↔ (read x).isNaN = false ∧ rank (read x) < 0 := by
  rw [lt_iff, rank_ofNat_zero]
  exact and_congr_right fun _ => and_iff_right (ofNat_nearest 0).1

theorem nonpos_iff : x ≤ Float.ofNat 0 ↔ (read x).isNaN = false ∧ rank (read x) ≤ 0 := by
  rw [le_iff, rank_ofNat_zero]
  exact and_congr_right fun _ => and_iff_right (ofNat_nearest 0).1

theorem isZero_iff :
    (x ≤ Float.ofNat 0 ∧ Float.ofNat 0 ≤ x) ↔ (read x).isNaN = false ∧ rank (read x) = 0 := by
  rw [nonpos_iff, nonneg_iff]
  constructor
  · rintro ⟨⟨hx, hle⟩, -, hge⟩
    exact ⟨hx, le_antisymm hle hge⟩
  · rintro ⟨hx, heq⟩
    exact ⟨⟨hx, heq.le⟩, hx, heq.ge⟩

theorem notBelow_iff : ¬x < Float.ofNat 0 ↔ NotBelow (read x) := by
  rw [neg_iff, NotBelow]
  constructor
  · exact fun h hx => not_lt.mp fun hlt => h ⟨hx, hlt⟩
  · rintro h ⟨hx, hlt⟩
    exact absurd (h hx) (not_le.mpr hlt)

theorem number_of_finite (h : (read x).isFinite = true) : (read x).isNaN = false := by
  cases hx : read x with
  | notANumber | infinity =>
    rw [hx] at h
    cases h
  | zero | finite => rfl

theorem read_eq_notANumber (h : ¬(read x).isNaN = false) : read x = .notANumber := by
  cases hx : read x with
  | notANumber => rfl
  | infinity | zero | finite => simp [hx, UnpackedFloat.isNaN] at h

theorem eq_of_rank_eq_of_pos (hx : (read x).isNaN = false) (hy : (read y).isNaN = false)
    (hpos : 0 < rank (read x)) (h : rank (read x) = rank (read y)) : x = y := by
  obtain ⟨⟨⟨a⟩, ha⟩⟩ := x
  obtain ⟨⟨⟨b⟩, hb⟩⟩ := y
  have hbits : a = b := eq_of_rank_eq hx hy hpos h
  subst hbits
  rfl

/-! ## Sums -/

theorem le_add_right (hx : Float.ofNat 0 ≤ x) (hy : Float.ofNat 0 ≤ y) : x ≤ x + y := by
  obtain ⟨hxn, hx0⟩ := nonneg_iff.mp hx
  obtain ⟨hyn, hy0⟩ := nonneg_iff.mp hy
  have hcx := canonical_read x
  have hcy := canonical_read y
  rw [le_iff, read_add]
  rcases unpack_sum hcx hcy hxn hyn hx0 hy0 with ⟨hxf, hyf, hnumber, hrounds⟩ | hinf
  · have hle := le_add_of_nonneg_right (a := value (read x)) (value_nonneg hcy hyf hy0)
    exact ⟨hxn, hnumber, (rounds_value hcx hxf).mono hrounds hle⟩
  · rw [hinf]
    exact ⟨hxn, rfl, (rank_bounds hcx).2⟩

theorem le_add_left (hx : Float.ofNat 0 ≤ x) (hy : Float.ofNat 0 ≤ y) : y ≤ x + y := by
  obtain ⟨hxn, hx0⟩ := nonneg_iff.mp hx
  obtain ⟨hyn, hy0⟩ := nonneg_iff.mp hy
  have hcx := canonical_read x
  have hcy := canonical_read y
  rw [le_iff, read_add]
  rcases unpack_sum hcx hcy hxn hyn hx0 hy0 with ⟨hxf, hyf, hnumber, hrounds⟩ | hinf
  · have hle := le_add_of_nonneg_left (a := value (read y)) (value_nonneg hcx hxf hx0)
    exact ⟨hyn, hnumber, (rounds_value hcy hyf).mono hrounds hle⟩
  · rw [hinf]
    exact ⟨hyn, rfl, (rank_bounds hcy).2⟩

theorem finite_of_rank_zero {u : UnpackedFloat} (hn : u.isNaN = false) (h : rank u = 0) :
    u.isFinite = true := by
  rcases finite_or_infinity hn h.ge with hf | rfl
  · exact hf
  · exact absurd h (by decide)

theorem isZero_add (hx : x ≤ Float.ofNat 0 ∧ Float.ofNat 0 ≤ x)
    (hy : y ≤ Float.ofNat 0 ∧ Float.ofNat 0 ≤ y) :
    x + y ≤ Float.ofNat 0 ∧ Float.ofNat 0 ≤ x + y := by
  obtain ⟨hxn, hx0⟩ := isZero_iff.mp hx
  obtain ⟨hyn, hy0⟩ := isZero_iff.mp hy
  have hxf := finite_of_rank_zero hxn hx0
  have hyf := finite_of_rank_zero hyn hy0
  have hcx := canonical_read x
  have hcy := canonical_read y
  have hxv : value (read x) = 0 := value_eq_value (w := .zero .positive) hcx trivial hxf rfl hx0
  have hyv : value (read y) = 0 := value_eq_value (w := .zero .positive) hcy trivial hyf rfl hy0
  obtain ⟨hnumber, hrounds⟩ := add_nearest hcx hcy hxf hyf
  rw [hxv, hyv, add_zero] at hrounds
  rw [isZero_iff, read_add]
  exact ⟨hnumber, hrounds.unique rounds_zero⟩

theorem notBelow_add (hx : ¬x < Float.ofNat 0) (hy : ¬y < Float.ofNat 0) :
    ¬x + y < Float.ofNat 0 := by
  rw [notBelow_iff] at hx hy ⊢
  rw [read_add]
  by_cases hxn : (read x).isNaN = false
  · by_cases hyn : (read y).isNaN = false
    · have hx0 := hx hxn
      have hy0 := hy hyn
      have hcx := canonical_read x
      have hcy := canonical_read y
      rcases unpack_sum hcx hcy hxn hyn hx0 hy0 with ⟨hxf, hyf, hnear⟩ | hinf
      · exact hnear.notBelow (add_nonneg (value_nonneg hcx hxf hx0) (value_nonneg hcy hyf hy0))
      · rw [hinf]
        exact fun _ => by decide
    · rw [read_eq_notANumber hyn]
      cases read x <;> exact notBelow_notANumber
  · rw [read_eq_notANumber hxn]
    exact notBelow_notANumber

theorem isFinite_of_le_one (hx : Float.ofNat 0 ≤ x) (hx1 : x ≤ Float.ofNat 1) :
    (read x).isFinite = true := by
  obtain ⟨hxn, hx0⟩ := nonneg_iff.mp hx
  have hle := (le_iff.mp hx1).2.2
  have hone := isFinite_ofNat (n := 1) (by norm_num)
  have hbounds := (isFinite_iff_rank (canonical_read _) (number_of_finite hone)).mp hone
  have htop : 0 < topRank := by decide
  exact (isFinite_iff_rank (canonical_read x) hxn).mpr ⟨by omega, by omega⟩

/-- One is too little to take the largest double to infinity. -/
theorem isFinite_add (hx : Float.ofNat 0 ≤ x) (hxf : (read x).isFinite = true)
    (hy : Float.ofNat 0 ≤ y) (hy1 : y ≤ Float.ofNat 1) : (read (x + y)).isFinite = true := by
  have hx0 := (nonneg_iff.mp hx).2
  have hy0 := (nonneg_iff.mp hy).2
  have hcx := canonical_read x
  have hcy := canonical_read y
  have hone := isFinite_ofNat (n := 1) (by norm_num)
  have hle := (le_iff.mp hy1).2.2
  have hyf := isFinite_of_le_one hy hy1
  have hone_value : value (read (Float.ofNat 1)) = 1 := value_one
  have hyv := value_le_value hcy (canonical_read _) hyf hone hle
  rw [hone_value] at hyv
  have hlargest := value_le_largest hcx hxf
  refine (add_nearest hcx hcy hxf hyf).isFinite (canonical_read (x + y))
    (add_nonneg (value_nonneg hcx hxf hx0) (value_nonneg hcy hyf hy0)) ?_
  have hstep := zpow_le_zpow_two (a := 2) (b := 971) (by norm_num)
  have hfour : (2 : ℚ) ^ (2 : ℤ) = 4 := by norm_num
  rw [hfour] at hstep
  generalize (2 : ℚ) ^ (971 : ℤ) = step at hlargest hstep ⊢
  rw [sub_mul, one_mul] at hlargest
  rw [sub_mul]
  linarith

/-- A sum has the same rank either way round. -/
theorem isFinite_add_comm (hxf : (read x).isFinite = true) (hyf : (read y).isFinite = true) :
    (read (x + y)).isFinite = (read (y + x)).isFinite := by
  have hleft := add_nearest (canonical_read x) (canonical_read y) hxf hyf
  have hright := add_nearest (canonical_read y) (canonical_read x) hyf hxf
  rw [add_comm, ← read_add] at hright
  rw [← read_add] at hleft
  have hrank : rank (read (x + y)) = rank (read (y + x)) := hleft.2.unique hright.2
  rw [Bool.eq_iff_iff, isFinite_iff_rank (canonical_read _) hleft.1,
    isFinite_iff_rank (canonical_read _) hright.1, hrank]

/-! ## Differences -/

theorem sub_of_le (hyf : (read y).isFinite = true) (h : y ≤ x) :
    Float.ofNat 0 ≤ x - y ∧ (y < x → Float.ofNat 0 < x - y) := by
  obtain ⟨hyn, hxn, hle⟩ := le_iff.mp h
  have hcx := canonical_read x
  have hcy := canonical_read y
  rw [nonneg_iff, pos_iff, read_sub]
  rcases unpack_difference hcx hcy hxn hyf hle with ⟨hxf, hnumber, hrounds⟩ | hinf
  · have hvalue := value_le_value hcy hcx hyf hxf hle
    refine ⟨⟨hnumber, rounds_zero.mono hrounds (by linarith)⟩, fun hlt => ⟨hnumber, ?_⟩⟩
    have := one_le_rank_sub hcx hcy hxf hyf (lt_iff.mp hlt).2.2 hrounds
    omega
  · rw [hinf]
    exact ⟨⟨rfl, by decide⟩, fun _ => ⟨rfl, by decide⟩⟩

theorem sub_of_ge (hxf : (read x).isFinite = true) (h : x ≤ y) :
    x - y ≤ Float.ofNat 0 ∧ (x < y → x - y < Float.ofNat 0) := by
  obtain ⟨hxn, hyn, hle⟩ := le_iff.mp h
  have hcx := canonical_read x
  have hcy := canonical_read y
  rw [nonpos_iff, neg_iff, read_sub]
  rcases unpack_difference_neg hcx hcy hxf hyn hle with ⟨hyf, hnumber, hrounds⟩ | hinf
  · have hvalue := value_le_value hcx hcy hxf hyf hle
    refine ⟨⟨hnumber, hrounds.mono rounds_zero (by linarith)⟩, fun hlt => ⟨hnumber, ?_⟩⟩
    have hneg := hrounds.neg
    rw [neg_sub] at hneg
    have := one_le_rank_sub hcy hcx hyf hxf (lt_iff.mp hlt).2.2 hneg
    omega
  · rw [hinf]
    exact ⟨⟨rfl, by decide⟩, fun _ => ⟨rfl, by decide⟩⟩

theorem sub_le_self (hxf : (read x).isFinite = true) (hy : Float.ofNat 0 ≤ y)
    (hyf : (read y).isFinite = true) : x - y ≤ x := by
  have hcx := canonical_read x
  have hcy := canonical_read y
  obtain ⟨hnumber, hrounds⟩ := sub_nearest hcx hcy hxf hyf
  have hvalue := value_nonneg hcy hyf (nonneg_iff.mp hy).2
  rw [le_iff, read_sub]
  exact ⟨hnumber, number_of_finite hxf, hrounds.mono (rounds_value hcx hxf) (by linarith)⟩

/-! ## The laws -/

/-- **Doubles have the laws of rounded arithmetic**, whatever their power function. -/
theorem rounded_withPower (pow : Float → Float → Float) :
    @Scalar.Rounded Float (withPower pow) := by
  have hinfinity : read (Float.ofBits infinityBits.toUInt64) = .infinity .positive := rfl
  let : Scalar Float := withPower pow
  exact
  { number_of_le := fun h => ⟨(le_iff.mp h).1, (le_iff.mp h).2.1⟩
    le_total := fun {x y} hx hy => by
      rcases le_total (rank (read x)) (rank (read y)) with h | h
      · exact .inl (le_iff.mpr ⟨hx, hy, h⟩)
      · exact .inr (le_iff.mpr ⟨hy, hx, h⟩)
    le_trans := fun hxy hyz => by
      obtain ⟨hx, -, hxy⟩ := le_iff.mp hxy
      obtain ⟨-, hz, hyz⟩ := le_iff.mp hyz
      exact le_iff.mpr ⟨hx, hz, hxy.trans hyz⟩
    lt_iff_le_not_ge := fun {x y} => by
      constructor
      · intro h
        obtain ⟨hx, hy, hlt⟩ := lt_iff.mp h
        exact ⟨le_iff.mpr ⟨hx, hy, hlt.le⟩, fun hge => not_lt.mpr (le_iff.mp hge).2.2 hlt⟩
      · rintro ⟨hle, hnot⟩
        obtain ⟨hx, hy, hle⟩ := le_iff.mp hle
        exact lt_iff.mpr ⟨hx, hy, not_le.mp fun hge => hnot (le_iff.mpr ⟨hy, hx, hge⟩)⟩
    eq_of_le_of_ge := fun hpos hxy hyx => by
      obtain ⟨hx, hy, hle⟩ := le_iff.mp hxy
      exact eq_of_rank_eq_of_pos hx hy (pos_iff.mp hpos).2
        (le_antisymm hle (le_iff.mp hyx).2.2)
    number_of_isFinite := number_of_finite
    le_infinity := fun {x} hx => by
      change x ≤ Float.ofBits infinityBits.toUInt64
      rw [le_iff, hinfinity]
      exact ⟨hx, rfl, (rank_bounds (canonical_read x)).2⟩
    isFinite_iff_lt := fun {x} h => by
      obtain ⟨hx, h0⟩ := nonneg_iff.mp h
      have htop : 0 < topRank := by decide
      change (read x).isFinite = true ↔ x < Float.ofBits infinityBits.toUInt64
      rw [isFinite_iff_rank (canonical_read x) hx, lt_iff, hinfinity]
      exact ⟨fun h => ⟨hx, rfl, h.2⟩, fun h => ⟨by omega, h.2.2⟩⟩
    ofNat_le_ofNat := fun {m n} h => le_iff.mpr ⟨(ofNat_nearest m).1, (ofNat_nearest n).1,
      (ofNat_nearest m).2.mono (ofNat_nearest n).2 (by exact_mod_cast h)⟩
    zero_lt_one := by
      change Float.ofNat 0 < Float.ofNat 1
      decide +kernel
    isFinite_ofNat := fun hn => isFinite_ofNat (hn.trans (by decide))
    isZero_neg_zero := by
      change -Float.ofNat 0 ≤ Float.ofNat 0 ∧ Float.ofNat 0 ≤ -Float.ofNat 0
      decide +kernel
    le_add_right := le_add_right
    le_add_left := le_add_left
    isZero_add := isZero_add
    notNegative_add := notBelow_add
    isFinite_add := isFinite_add
    sub_pos := fun hy h => (sub_of_le hy (le_iff.mpr
      ⟨(lt_iff.mp h).1, (lt_iff.mp h).2.1, (lt_iff.mp h).2.2.le⟩)).2 h
    sub_nonneg := fun hy h => (sub_of_le hy h).1
    sub_le_self := sub_le_self
    sub_neg := fun hx h => (sub_of_ge hx (le_iff.mpr
      ⟨(lt_iff.mp h).1, (lt_iff.mp h).2.1, (lt_iff.mp h).2.2.le⟩)).2 h
    sub_nonpos := fun hx h => (sub_of_ge hx h).1
    notNegative_mul := fun {x y} hx hy => notBelow_iff.mpr (by
      rw [show read (x * y) = _ from read_mul x y]
      exact notBelow_mul (canonical_read x) (canonical_read y) (notBelow_iff.mp hx)
        (notBelow_iff.mp hy))
    number_mul := fun {x y} hx hy hyf => by
      change (read (x * y)).isNaN = false
      rw [read_mul]
      exact number_mul (canonical_read x) (canonical_read y) hx hyf (pos_iff.mp hy).2
    number_mul_left := fun {x y} hx hxf hy => by
      change (read (x * y)).isNaN = false
      rw [read_mul]
      exact number_mul_left (canonical_read x) (canonical_read y) hxf (pos_iff.mp hx).2 hy
    notNegative_div := fun {x y} hx hy => notBelow_iff.mpr (by
      obtain ⟨hyn, hy0⟩ := pos_iff.mp hy
      rw [show read (x / y) = _ from read_div x y]
      exact notBelow_div (canonical_read x) (canonical_read y) (notBelow_iff.mp hx) hyn hy0)
    notNegative_div_mul := fun {x y z} hx hy hz => notBelow_iff.mpr (by
      obtain ⟨hyn, hy0⟩ := pos_iff.mp hy
      obtain ⟨hzn, hz0⟩ := pos_iff.mp hz
      rw [show read (x / (y * z)) = _ from read_div x (y * z), read_mul]
      rcases unpack_product (canonical_read y) (canonical_read z) hyn hzn hy0 hz0 with
        hzero | ⟨hnumber, hpos⟩
      · rw [hzero]
        exact notBelow_div_zero (canonical_read x) (notBelow_iff.mp hx)
      · exact notBelow_div (canonical_read x) (canonical_unpack _) (notBelow_iff.mp hx) hnumber
          hpos)
    number_div := fun {x y} hx hy h => by
      obtain ⟨hyn, hy0⟩ := pos_iff.mp hy
      change (read (x / y)).isNaN = false
      rw [read_div]
      exact number_div (canonical_read x) (canonical_read y) hx hyn hy0 h
    div_le_one := fun {x y} hx hxf hxy hy => by
      obtain ⟨hxn, -, hle⟩ := le_iff.mp hxy
      obtain ⟨hyn, hy0⟩ := pos_iff.mp hy
      have hone : IsNearest 1 (read (Float.ofNat 1)) := by simpa using ofNat_nearest 1
      have hnumber := number_div (canonical_read x) (canonical_read y) hxn hyn hy0 (.inl hxf)
      refine le_iff.mpr ⟨?_, hone.1, ?_⟩
      · rw [show read (x / y) = _ from read_div x y]
        exact hnumber
      · rw [show read (x / y) = _ from read_div x y]
        exact rank_div_le_one (canonical_read x) (canonical_read y) hxf hyn hy0 hle hone.2
    hypot_nonneg := fun hx hy => by
      obtain ⟨hnumber, hnonneg, -⟩ := hypotenuse_rank hx hy
      exact nonneg_iff.mpr ⟨hnumber, hnonneg⟩
    hypot_nonpos_iff := fun {x y} hx hy => by
      obtain ⟨hnumber, -, hiff⟩ := hypotenuse_rank hx hy
      change hypotenuse x y ≤ Float.ofNat 0 ↔ (x ≤ Float.ofNat 0 ∧ Float.ofNat 0 ≤ x) ∧
        (y ≤ Float.ofNat 0 ∧ Float.ofNat 0 ≤ y)
      rw [nonpos_iff, isZero_iff, isZero_iff]
      constructor
      · rintro ⟨-, hle⟩
        obtain ⟨hx0, hy0⟩ := hiff.mp hle
        exact ⟨⟨hx, hx0⟩, hy, hy0⟩
      · rintro ⟨⟨-, hx0⟩, -, hy0⟩
        exact ⟨hnumber, hiff.mpr ⟨hx0, hy0⟩⟩ }

instance : Scalar.Rounded Float := rounded_withPower Float.pow

/-- **Doubles are ample**, whatever their power function. -/
theorem ample_withPower (pow : Float → Float → Float) : @Scalar.Ample Float (withPower pow) := by
  let : Scalar Float := withPower pow
  have hword {n : ℕ} (hn : n < 1 <<< 64) : n ≤ 2 ^ 64 := hn.le.trans (by decide)
  have hone : Float.ofNat 0 ≤ Float.ofNat 1 := by decide +kernel
  exact
  { isFinite_ofNat := fun hn => isFinite_ofNat (hword hn)
    isFinite_one_add := fun {n} hn => by
      have hnonneg : Float.ofNat 0 ≤ Float.ofNat n := nonneg_iff.mpr
        ⟨(ofNat_nearest n).1, rounds_zero.mono (ofNat_nearest n).2 n.cast_nonneg⟩
      have hcount := isFinite_ofNat (hword hn)
      change (read (Float.ofNat 1 + Float.ofNat n)).isFinite = true
      rw [isFinite_add_comm (isFinite_of_le_one hone (by decide +kernel)) hcount]
      exact isFinite_add hnonneg hcount hone (by decide +kernel)
    number_mul := fun {x y} hx hy => by
      change (read (x * y)).isNaN = false
      rw [read_mul]
      exact (mul_nearest (canonical_read x) (canonical_read y) hx hy).1 }

instance : Scalar.Ample Float := ample_withPower Float.pow

/-- An infinity has no product with zero. -/
theorem isNaN_mul_zero (hx : (read x).isFinite = false)
    (hy : y ≤ Float.ofNat 0 ∧ Float.ofNat 0 ≤ y) : (read (x * y)).isNaN = true := by
  obtain ⟨hyn, hy0⟩ := isZero_iff.mp hy
  have hcy := canonical_read y
  obtain ⟨t, hyr⟩ | ⟨m, p, hm, hyr⟩ := zero_or_positive hcy (finite_of_rank_zero hyn hy0) hy0.ge
  · rw [read_mul, hyr]
    cases hxr : read x with
    | notANumber | infinity => exact isNaN_notANumber
    | zero | finite => simp [hxr, UnpackedFloat.isFinite] at hx
  · rw [hyr] at hcy hy0
    have hpos := hcy.1.rank_pos hm
    simp only [rank, apply_positive] at hy0
    omega

/-- **Doubles do not come back from what is no number**, whatever their power function. -/
theorem absorbing_withPower (pow : Float → Float → Float) :
    @Scalar.Absorbing Float (withPower pow) := by
  let : Scalar Float := withPower pow
  have hnan {x : Float} (hx : Scalar.isNaN x = true) : read x = .notANumber :=
    read_eq_notANumber (ne_false_of_eq_true hx)
  exact
  { isNaN_add := fun {x y} hx => by
      change (read (x + y)).isNaN = true
      rw [read_add, hnan hx]
      cases read y <;> exact isNaN_notANumber
    isNaN_mul := fun {x y} hx => by
      change (read (x * y)).isNaN = true
      rw [read_mul, hnan hx]
      cases read y <;> exact isNaN_notANumber
    isNaN_mul_zero := isNaN_mul_zero }

instance : Scalar.Absorbing Float := absorbing_withPower Float.pow

end Stigmergy.Binary64
