import Stigmergy.Proofs.Binary64.Unpacked

/-!
# Doubles and their bits

* `canonical_unpack`: bits hold canonical doubles only.
* `unpack_pack`: packing a canonical double and unpacking it again gives it back.
* `unpack_pack_overflow`: a place above the highest becomes infinite.
* `rank_unpack`: bits without their sign are the rank of the number they hold.
-/

namespace Stigmergy.Binary64

open Float.Model Float.Model.UnpackedFloat

abbrev unpack64 (b : BitVec 64) : UnpackedFloat := UnpackedFloat.unpack Format.binary64 b

abbrev pack64 (u : UnpackedFloat) : BitVec 64 := UnpackedFloat.pack Format.binary64 u

theorem toNat_implicit (m : BitVec 52) : (1#1 ++ m).toNat = 2 ^ 52 + m.toNat := by
  rw [BitVec.toNat_append, ← Nat.shiftLeft_add_eq_or_of_lt m.isLt]
  rfl

def ofFields (s : Sign) (e : BitVec 11) (m : BitVec 52) : UnpackedFloat :=
  if e = -1#11 then if m = 0#52 then .infinity s else .notANumber
  else if e = 0#11 then
    if h : m = 0#52 then .zero s
    else .finite s m.toNat (-1074) (by simpa [BitVec.toNat_pos, BitVec.pos_iff_ne_zero])
  else .finite s (2 ^ 52 + m.toNat) (e.toNat - 1075) (by omega)

theorem unpack_eq_ofFields (b : BitVec 64) :
    unpack64 b = ofFields (Sign.ofBitVec (@unpackSign Format.binary64 b))
      (@unpackExponent Format.binary64 b) (@unpackMantissa Format.binary64 b) := by
  have hbias : ((Format.binary64.exponentBias : ℕ) : ℤ) = 1023 := rfl
  unfold unpack64 UnpackedFloat.unpack ofFields
  dsimp only
  simp only [hbias]
  split_ifs with htop hzero hlow hm
  · rfl
  · rfl
  · rfl
  · simp only [hlow]; rfl
  · simp only [toNat_implicit]; rfl

theorem canonical_ofFields (s : Sign) (e : BitVec 11) (m : BitVec 52) :
    Canonical (ofFields s e m) := by
  have hm := m.isLt
  have he := e.isLt
  unfold ofFields
  split_ifs with htop hzero hlow hm0
  · trivial
  · trivial
  · trivial
  · exact ⟨⟨by omega, le_rfl, .inr rfl⟩, by decide⟩
  · have hpos : e.toNat ≠ 0 := fun h => hlow (BitVec.eq_of_toNat_eq h)
    have hmost : e.toNat ≠ 2047 := fun h => htop (BitVec.eq_of_toNat_eq h)
    exact ⟨⟨by omega, by omega, .inl (by omega)⟩, by omega⟩

theorem canonical_unpack (b : BitVec 64) : Canonical (unpack64 b) := by
  rw [unpack_eq_ofFields]
  exact canonical_ofFields _ _ _

theorem unpack_packComponents (s : Sign) (e : BitVec 11) (m : BitVec 52) :
    unpack64 (packComponents Format.binary64 s e m) = ofFields s e m := by
  rw [unpack_eq_ofFields, unpackSign_packComponents, Sign.ofBitVec_toBitVec,
    unpackExponent_packComponents, unpackMantissa_packComponents]

theorem unpack_pack_zero (s : Sign) : unpack64 (pack64 (.zero s)) = .zero s := by
  change unpack64 (packComponents Format.binary64 s 0#11 0#52) = _
  rw [unpack_packComponents]
  rfl

theorem unpack_pack_infinity (s : Sign) : unpack64 (pack64 (.infinity s)) = .infinity s := by
  change unpack64 (packComponents Format.binary64 s (-1#11) 0#52) = _
  rw [unpack_packComponents]
  rfl

theorem unpack_pack_notANumber : unpack64 (pack64 .notANumber) = .notANumber := rfl

def exponentField (p : ℤ) : ℕ := (p + 1075).toNat

theorem pack_finite (s : Sign) (m : ℕ) (p : ℤ) (hm : 0 < m) :
    pack64 (.finite s m p hm) =
      if 2048 ≤ exponentField p + 1 then packedInfinity Format.binary64 s
      else if m.log2 + 1 = 53 then
        packComponents Format.binary64 s (BitVec.ofNat 11 (exponentField p)) (BitVec.ofNat 52 m)
      else packComponents Format.binary64 s 0#11 (BitVec.ofNat 52 m) := by
  have hfield : (p + (Format.binary64.exponentBias : ℕ) +
      (Format.binary64.mantissaBitsWithoutImplicit : ℕ)).toNat = exponentField p := by
    change (p + 1023 + 52).toNat = (p + 1075).toNat
    omega
  simp only [pack64, UnpackedFloat.pack, hfield]
  rfl

/-- A place above the highest is that of no finite double. -/
theorem unpack_pack_overflow (s : Sign) {m : ℕ} {p : ℤ} (hm : 0 < m) (hp : 971 < p) :
    unpack64 (pack64 (.finite s m p hm)) = .infinity s := by
  rw [pack_finite, if_pos (by unfold exponentField; omega)]
  exact unpack_pack_infinity s

theorem unpack_pack_finite (s : Sign) {m : ℕ} {p : ℤ} (hm : 0 < m) (h : Fields m p)
    (hp : p ≤ 971) : unpack64 (pack64 (.finite s m p hm)) = .finite s m p hm := by
  have hlt := h.count_lt
  have hge := h.place_ge
  have hfield : exponentField p < 2047 ∧ 0 < exponentField p := by unfold exponentField; omega
  rw [pack_finite, if_neg (by omega)]
  by_cases hnormal : 2 ^ 52 ≤ m
  · have hlog : m.log2 = 52 := (Nat.log2_eq_iff (by omega)).mpr ⟨hnormal, hlt⟩
    have he : (BitVec.ofNat 11 (exponentField p)).toNat = exponentField p := by
      rw [BitVec.toNat_ofNat]; omega
    have hm' : (BitVec.ofNat 52 m).toNat = m - 2 ^ 52 := by rw [BitVec.toNat_ofNat]; omega
    rw [if_pos (by omega), unpack_packComponents, ofFields, if_neg, if_neg]
    · congr 1
      · omega
      · rw [he]; unfold exponentField; omega
    · intro h0
      rw [h0] at he
      exact absurd he hfield.2.ne
    · intro htop
      rw [htop] at he
      exact absurd he (by change 2047 ≠ _; omega)
  · have hlog : m.log2 < 52 := (Nat.log2_lt hm.ne').mpr (by omega)
    have hm' : (BitVec.ofNat 52 m).toNat = m := by rw [BitVec.toNat_ofNat]; omega
    obtain rfl := h.normal.resolve_left hnormal
    rw [if_neg (by omega), unpack_packComponents, ofFields, if_neg (by decide), if_pos rfl, dif_neg]
    · simp only [hm']
    · intro h0
      rw [h0] at hm'
      exact absurd hm' (by change 0 ≠ m; omega)

/-- Packing keeps the doubles of the format. -/
theorem unpack_pack {u : UnpackedFloat} (hu : Canonical u) : unpack64 (pack64 u) = u := by
  cases u with
  | infinity s => exact unpack_pack_infinity s
  | notANumber => exact unpack_pack_notANumber
  | zero s => exact unpack_pack_zero s
  | finite s m p hm => exact unpack_pack_finite s hm hu.1 hu.2

/-! ## Bits -/

theorem toNat_unpackMantissa (b : BitVec 64) :
    (@unpackMantissa Format.binary64 b).toNat = b.toNat % 2 ^ 52 := by
  change (b.toNat >>> 0) % 2 ^ 52 = _
  rfl

theorem toNat_unpackExponent (b : BitVec 64) :
    (@unpackExponent Format.binary64 b).toNat = b.toNat / 2 ^ 52 % 2 ^ 11 := by
  change (b.toNat >>> 52) % 2 ^ 11 = _
  rw [Nat.shiftRight_eq_div_pow]

theorem toNat_unpackSign (b : BitVec 64) :
    (@unpackSign Format.binary64 b).toNat = b.toNat / 2 ^ 63 % 2 := by
  change (b.toNat >>> 63) % 2 ^ 1 = _
  rw [Nat.shiftRight_eq_div_pow]

def signOf (b : BitVec 64) : Sign := Sign.ofBitVec (@unpackSign Format.binary64 b)

theorem rank_ofFields (s : Sign) (e : BitVec 11) (m : BitVec 52)
    (h : (ofFields s e m).isNaN = false) :
    rank (ofFields s e m) = s.apply (e.toNat * 2 ^ 52 + m.toNat) := by
  unfold ofFields at h ⊢
  split_ifs at h ⊢ with htop hzero hlow hm0
  · subst htop hzero; rfl
  · cases h
  · subst hlow hm0
    rw [rank_zero, show ((0#11).toNat : ℤ) * 2 ^ 52 + (0#52).toNat = 0 from rfl]
    cases s <;> rfl
  · subst hlow
    change s.apply (fieldRank _ _) = _
    simp [fieldRank]
  · change s.apply (fieldRank _ _) = _
    congr 1
    unfold fieldRank
    push_cast
    ring

/-- The bits without the sign are the rank. -/
theorem rank_unpack (b : BitVec 64) (h : (unpack64 b).isNaN = false) :
    rank (unpack64 b) = (signOf b).apply (b.toNat % 2 ^ 63 : ℕ) := by
  rw [unpack_eq_ofFields] at h ⊢
  rw [rank_ofFields _ _ _ h, toNat_unpackExponent, toNat_unpackMantissa, signOf]
  congr 1
  omega

theorem signOf_eq (b : BitVec 64) :
    signOf b = if b.toNat < 2 ^ 63 then .positive else .negative := by
  have hlt := b.isLt
  have hsign := toNat_unpackSign b
  unfold signOf Sign.ofBitVec
  split_ifs with h0 h1 h1
  · rfl
  · rw [h0] at hsign
    simp only [BitVec.toNat_zero] at hsign
    omega
  · exact absurd (BitVec.eq_of_toNat_eq (by rw [hsign, BitVec.toNat_zero]; omega)) h0
  · rfl

/-- Above zero, doubles of one rank have the same bits. -/
theorem eq_of_rank_eq {a b : BitVec 64} (ha : (unpack64 a).isNaN = false)
    (hb : (unpack64 b).isNaN = false) (hpos : 0 < rank (unpack64 a))
    (h : rank (unpack64 a) = rank (unpack64 b)) : a = b := by
  have hbpos := h ▸ hpos
  have halt := a.isLt
  have hblt := b.isLt
  rw [rank_unpack a ha, signOf_eq] at h hpos
  rw [rank_unpack b hb, signOf_eq] at h hbpos
  split_ifs at hpos hbpos with h1 h2
  · apply BitVec.eq_of_toNat_eq
    simp only [h1, h2, if_true, apply_positive] at h
    omega
  all_goals simp only [apply_negative] at hpos hbpos; omega

end Stigmergy.Binary64
