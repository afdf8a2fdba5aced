import Stigmergy.Colony.Run
import Stigmergy.Settings.Validity

/-!
# What valid settings promise

* `Settings.Valid.common`, `Settings.Valid.bounded`: the rules, one by one.
* `Colony.ofSettings?_eq`, `Colony.ofSettings?_ok`: valid settings make a colony, and no others do.
-/

namespace Stigmergy

open Scalar

variable {α : Type} [Scalar α]

structure Settings.Common (s : Settings α) : Prop where
  alpha : IsExponent s.alpha
  beta : IsExponent s.beta
  rho_pos : ofNat 0 < s.rho
  rho_le : s.rho ≤ ofNat 1
  q : IsAmount s.q
  iterations : s.iterations ≠ 0

structure Settings.Bounded (s : Settings α) : Prop where
  rho_lt : ¬ofNat 1 ≤ s.rho
  infinity : IsAmount s.infinity
  pBest_pos : ofNat 0 < s.pBest
  pBest_lt : s.pBest < ofNat 1

omit [Scalar α] in
theorem Settings.isBounded_iff {s : Settings α} :
    s.variant.isBounded = true ↔ s.variant = .maxMin := by
  simp [Variant.isBounded]

omit [Scalar α] in
theorem Settings.antCount_pos {s : Settings α} {nodes : Nat} (h : 0 < nodes) :
    0 < s.antCount nodes := by
  unfold antCount
  split <;> omega

namespace Settings.Valid

/-- A check that finds no breach has seen its rule kept, and leaves the rest to the next one. -/
theorem kept_of_none {B : Type} {P : Prop} [Decidable P] {breach : B} {rest : Option B}
    (h : (if ¬P then some breach else rest) = none) : P ∧ rest = none := by
  by_cases hP : P
  · rw [if_neg (not_not_intro hP)] at h
    exact ⟨hP, h⟩
  · rw [if_pos hP] at h
    cases h

variable {s : Settings α}

theorem breaches (h : s.Valid) : s.commonBreach? = none ∧ s.variantBreach? = none := by
  change (s.commonBreach? <|> s.variantBreach?) = none at h
  cases hcommon : s.commonBreach? with
  | some breach =>
    rw [hcommon] at h
    cases h
  | none =>
    rw [hcommon] at h
    exact ⟨rfl, h⟩

theorem common (h : s.Valid) : s.Common := by
  obtain ⟨halpha, hrest⟩ := kept_of_none h.breaches.1
  obtain ⟨hbeta, hrest⟩ := kept_of_none hrest
  obtain ⟨hrho, hrest⟩ := kept_of_none hrest
  obtain ⟨hq, hrest⟩ := kept_of_none hrest
  by_cases hiterations : s.iterations = 0
  · rw [if_pos hiterations] at hrest
    cases hrest
  · exact ⟨halpha, hbeta, hrho.1, hrho.2, hq, hiterations⟩

theorem bounded (h : s.Valid) (hvariant : s.variant = .maxMin) : s.Bounded := by
  have hrest := h.breaches.2
  unfold variantBreach? at hrest
  rw [hvariant] at hrest
  dsimp only at hrest
  by_cases hrho : ofNat 1 ≤ s.rho
  · rw [if_pos hrho] at hrest
    cases hrest
  · rw [if_neg hrho] at hrest
    obtain ⟨hinfinity, hrest⟩ := kept_of_none hrest
    obtain ⟨hpBest, -⟩ := kept_of_none hrest
    exact ⟨hrho, hinfinity, hpBest.1, hpBest.2⟩

end Settings.Valid

variable {S : Type} [Ord S]

theorem Colony.ofSettings?_eq {s : Settings α} (h : s.Valid) :
    (Colony.ofSettings? s : Except _ (Colony S α)) = .ok (Colony.fresh s) := by
  unfold Colony.ofSettings?
  rw [show s.breach? = none from h]

theorem Colony.ofSettings?_ok {s : Settings α} {c : Colony S α} (h : Colony.ofSettings? s = .ok c) :
    s.Valid ∧ c = Colony.fresh s := by
  unfold Colony.ofSettings? at h
  split at h
  · cases h
  · next hvalid =>
    cases h
    exact ⟨hvalid, rfl⟩

end Stigmergy
