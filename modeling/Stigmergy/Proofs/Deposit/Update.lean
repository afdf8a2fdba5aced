import Stigmergy.Deposit.Rule
import Stigmergy.Proofs.Pheromone.Band
import Stigmergy.Proofs.Pheromone.Levels
import Stigmergy.Proofs.Scalar.Ample

/-!
# What an update keeps

An update evaporates and lays, and confines after each. So it takes a wide property of all levels,
which evaporation and laying keep, to the narrow one that confining brings about.

* `Deposit.update_all`: the update succeeds, with the narrow property everywhere.
* `Deposit.update_induction`: what evaporation, laying and confining keep, an update keeps; so the
  first background stays what it was.
* `Deposit.spoiled_update`: a level that is no number after evaporation stays none.
* `Deposit.of_mem_shares`, `Deposit.weight_of_mem_shares`: what is laid is that of an iteration's
  trail or of the best one, with a weight above zero.
-/

namespace Stigmergy.Deposit

open Std (TransOrd)
open Pheromone (Band)
open Scalar

variable {S α : Type} [Ord S] [TransOrd S] [Scalar α] {P Q : α → Prop} {band : Option (Band α)}
  {ph laid : Pheromone S α} {s : Settings α} {trails : List (Trail S α)} {best : Trail S α}

theorem layEdges_all {edges : List (S × S)} {amount : α}
    (hlay : ∀ level, P level → P (level + amount)) (h : ph.All P) :
    (layEdges ph edges amount).All P := by
  unfold layEdges
  induction edges generalizing ph with
  | nil => exact h
  | cons edge edges ih => exact ih (h.lay hlay)

/-- Confining takes the wide property to the narrow one. -/
def Confines (band : Option (Band α)) (S : Type) [Ord S] [TransOrd S] (P Q : α → Prop) : Prop :=
  ∀ ph : Pheromone S α, ph.All P → ∃ confined, confineTo band ph = .ok confined ∧ confined.All Q

/-- A band in order takes levels that are not negative into itself. -/
theorem confines_of_inOrder [Rounded α] {b : Band α} (hb : b.InOrder) :
    Confines (some b) S (fun level => ofNat 0 ≤ level)
      fun level => b.low ≤ level ∧ level ≤ b.high := by
  intro ph hph
  exact hph.confine hb.low_le_high fun _ hlevel =>
    Rounded.clamp_mem hb.low_le_high (Rounded.number_of_le hlevel).2

theorem layTrail_all {q : α} {share : Trail S α × α} (hwide : ∀ level, Q level → P level)
    (hlay : 2 ≤ share.1.path.length →
      ∀ level, P level → P (level + share.2 * amount q share.1.cost))
    (hconfine : Confines band S P Q) (h : ph.All Q) :
    ∃ laid, layTrail q band ph share = .ok laid ∧ laid.All Q := by
  unfold layTrail
  dsimp only
  by_cases hshort : share.1.path.length < 2
  · rw [if_pos hshort]
    exact ⟨ph, rfl, h⟩
  · rw [if_neg hshort]
    exact hconfine _ (layEdges_all (hlay (by omega)) (h.imp hwide))

theorem foldlM_layTrail_all {q : α} {shares : List (Trail S α × α)}
    (hwide : ∀ level, Q level → P level)
    (hlay : ∀ share ∈ shares, 2 ≤ share.1.path.length →
      ∀ level, P level → P (level + share.2 * amount q share.1.cost))
    (hconfine : Confines band S P Q) (h : ph.All Q) :
    ∃ laid, shares.foldlM (layTrail q band) ph = .ok laid ∧ laid.All Q := by
  induction shares generalizing ph with
  | nil => exact ⟨ph, rfl, h⟩
  | cons share shares ih =>
    obtain ⟨hshare, hshares⟩ := List.forall_mem_cons.mp hlay
    obtain ⟨next, hnext, hall⟩ := layTrail_all hwide hshare hconfine h
    rw [List.foldlM_cons, hnext]
    exact ih hshares hall

/-- An update succeeds, if evaporation has brought about the wide property. -/
theorem update_all_of_evaporated (hwide : ∀ level, Q level → P level)
    (hlay : ∀ share ∈ shares s trails best, 2 ≤ share.1.path.length →
      ∀ level, P level → P (level + share.2 * amount s.q share.1.cost))
    (hconfine : Confines band S P Q) (h : (ph.evaporate s.rho).All P) :
    ∃ laid, update s ph trails best band = .ok laid ∧ laid.All Q := by
  obtain ⟨evaporated, hevaporated, hall⟩ := hconfine _ h
  unfold update
  rw [show evaporate s ph band = .ok evaporated from hevaporated]
  exact foldlM_layTrail_all hwide hlay hconfine hall

/-- **Updates succeed** and keep what confining brings about. -/
theorem update_all (hwide : ∀ level, Q level → P level)
    (hscale : ∀ level, P level → P (level * (ofNat 1 - s.rho)))
    (hlay : ∀ share ∈ shares s trails best, 2 ≤ share.1.path.length →
      ∀ level, P level → P (level + share.2 * amount s.q share.1.cost))
    (hconfine : Confines band S P Q) (h : ph.All P) :
    ∃ laid, update s ph trails best band = .ok laid ∧ laid.All Q :=
  update_all_of_evaporated hwide hlay hconfine (h.evaporate hscale)

/-! ## What every operation keeps -/

section Induction

variable {R : Pheromone S α → Prop}

theorem layEdges_induction
    (hlay : ∀ ph source target amount, R ph → R (ph.lay source target amount)) (hph : R ph)
    (edges : List (S × S)) (amount : α) : R (layEdges ph edges amount) := by
  unfold layEdges
  induction edges generalizing ph with
  | nil => exact hph
  | cons edge edges ih =>
    apply ih
    exact hlay ph edge.1 edge.2 amount hph

theorem layTrail_induction
    (hlay : ∀ ph source target amount, R ph → R (ph.lay source target amount))
    (hconfine : ∀ ph confined, R ph → confineTo band ph = .ok confined → R confined) {q : α}
    {share : Trail S α × α} (hph : R ph) (h : layTrail q band ph share = .ok laid) : R laid := by
  unfold layTrail at h
  dsimp only at h
  split at h
  · cases h
    exact hph
  · exact hconfine _ _ (layEdges_induction hlay hph _ _) h

/-- What laying and confining keep, an update brings about if evaporation does. -/
theorem update_induction_of_evaporated
    (hlay : ∀ ph source target amount, R ph → R (ph.lay source target amount))
    (hconfine : ∀ ph confined, R ph → confineTo band ph = .ok confined → R confined)
    (hph : R (ph.evaporate s.rho)) (h : update s ph trails best band = .ok laid) : R laid := by
  have hall {shares : List (Trail S α × α)} {ph : Pheromone S α} (hph : R ph)
      (h : shares.foldlM (layTrail s.q band) ph = .ok laid) : R laid := by
    induction shares generalizing ph with
    | nil =>
      cases h
      exact hph
    | cons share shares ih =>
      rw [List.foldlM_cons] at h
      cases hnext : layTrail s.q band ph share with
      | error f =>
        rw [hnext] at h
        cases h
      | ok next =>
        rw [hnext] at h
        exact ih (layTrail_induction hlay hconfine hph hnext) h
  unfold update at h
  cases hevaporated : evaporate s ph band with
  | error f =>
    rw [hevaporated] at h
    cases h
  | ok evaporated =>
    rw [hevaporated] at h
    have hfirst : R evaporated := hconfine _ _ hph hevaporated
    exact hall hfirst h

/-- What evaporation, laying and confining keep, an update keeps. -/
theorem update_induction (hevaporate : ∀ ph, R ph → R (ph.evaporate s.rho))
    (hlay : ∀ ph source target amount, R ph → R (ph.lay source target amount))
    (hconfine : ∀ ph confined, R ph → confineTo band ph = .ok confined → R confined) (hph : R ph)
    (h : update s ph trails best band = .ok laid) : R laid :=
  update_induction_of_evaporated hlay hconfine (hevaporate ph hph) h

end Induction

omit [TransOrd S] in
theorem initial_confineTo (h : confineTo band ph = .ok laid) : laid.initial = ph.initial := by
  unfold confineTo at h
  split at h
  · cases h
    rfl
  · exact Pheromone.initial_confine h

/-- The first background stays what it was. -/
theorem initial_update (h : update s ph trails best band = .ok laid) :
    laid.initial = ph.initial := by
  apply update_induction (R := fun laid => laid.initial = ph.initial) _ _ _ rfl h
  · intro _ hkept
    exact hkept
  · intro _ _ _ _ hkept
    exact hkept
  · intro _ _ hkept hconfined
    exact (initial_confineTo hconfined).trans hkept

/-- An edge whose level is no number after evaporation stays so. -/
theorem spoiled_update [Rounded α] [Absorbing α] {e : Pheromone.Edge S}
    (hspoiled : (ph.evaporate s.rho).Spoiled e) (h : update s ph trails best band = .ok laid) :
    laid.Spoiled e := by
  apply update_induction_of_evaporated (R := fun laid => laid.Spoiled e) _ _ hspoiled h
  · intro _ source target amount hspoiled
    exact hspoiled.lay source target amount
  · intro _ _ hspoiled hconfined
    unfold confineTo at hconfined
    split at hconfined
    · cases hconfined
      exact hspoiled
    · exact hspoiled.confine hconfined

/-! ## What is laid -/

omit [Ord S] [TransOrd S] in
/-- The shares by rank, each at the place of its trail in the ranking. -/
theorem mem_rankShares {elitist : Nat} {entry : Trail S α × Nat} {weight : Nat} :
    (entry, weight) ∈ rankShares elitist trails ↔
      ∃ r, (ranked trails)[r]? = some entry ∧ r < elitist ∧ weight = elitist - r := by
  unfold rankShares
  rw [List.mem_map]
  constructor
  · rintro ⟨⟨found, r⟩, hfound, heq⟩
    cases heq
    have hget := List.mem_zipIdx_iff_getElem?.mp hfound
    rw [List.getElem?_take, Option.ite_none_right_eq_some] at hget
    exact ⟨r, hget.2, Nat.lt_of_lt_of_le hget.1 (Nat.min_le_left _ _), rfl⟩
  · rintro ⟨r, hr, hlt, rfl⟩
    have hlength := (List.getElem?_eq_some_iff.mp hr).1
    rw [length_ranked] at hlength
    refine ⟨(entry, r), List.mem_zipIdx_iff_getElem?.mpr ?_, rfl⟩
    rw [List.getElem?_take, if_pos (by omega), hr]

omit [Ord S] [TransOrd S] in
theorem weight_of_mem_rankShares {elitist : Nat} {entry : Trail S α × Nat} {weight : Nat}
    (h : (entry, weight) ∈ rankShares elitist trails) : 0 < weight ∧ weight ≤ elitist := by
  obtain ⟨r, -, hlt, rfl⟩ := mem_rankShares.mp h
  omega

omit [Ord S] [TransOrd S] in
theorem mem_of_mem_rankShares {elitist : Nat} {entry : Trail S α × Nat} {weight : Nat}
    (h : (entry, weight) ∈ rankShares elitist trails) : entry.1 ∈ trails := by
  obtain ⟨r, hr, -, -⟩ := mem_rankShares.mp h
  exact List.mem_of_getElem? (mem_ranked_iff.mp (List.mem_of_getElem? hr))

omit [Ord S] [TransOrd S] in
theorem of_mem_shares [Rounded α] {share : Trail S α × α} (h : share ∈ shares s trails best) :
    (share.1 = best ∨ share.1 ∈ trails) ∧ NotNegative share.2 := by
  have hcount (n : Nat) : NotNegative (ofNat n : α) :=
    Rounded.notNegative_of_nonneg (Rounded.ofNat_le_ofNat (Nat.zero_le n))
  have hone (h : share ∈ trails.map (·, ofNat 1)) : share.1 ∈ trails ∧ NotNegative share.2 := by
    obtain ⟨trail, htrail, rfl⟩ := List.mem_map.mp h
    exact ⟨htrail, hcount 1⟩
  unfold shares at h
  split at h
  · exact ⟨.inr (hone h).1, (hone h).2⟩
  · rcases List.mem_cons.mp h with rfl | hrest
    · exact ⟨.inl rfl, Rounded.notNegative_add (hcount 1) (hcount s.elitist)⟩
    · exact ⟨.inr (hone hrest).1, (hone hrest).2⟩
  · rw [List.mem_singleton.mp h]
    exact ⟨.inl rfl, hcount 1⟩
  · obtain ⟨⟨entry, weight⟩, hmem, rfl⟩ := List.mem_map.mp h
    exact ⟨.inr (mem_of_mem_rankShares hmem), hcount weight⟩

omit [Ord S] [TransOrd S] in
/-- A weight is above zero and not infinite, if a word holds the elitist count. -/
theorem weight_of_mem_shares [Rounded α] [Ample α] (hcount : s.elitist < 1 <<< 64)
    {share : Trail S α × α} (h : share ∈ shares s trails best) :
    ofNat 0 < share.2 ∧ isFinite share.2 = true := by
  have hone : ofNat 0 < (ofNat 1 : α) ∧ isFinite (ofNat 1 : α) = true :=
    ⟨Rounded.zero_lt_one, Rounded.isFinite_one⟩
  have hall (h : share ∈ trails.map (·, ofNat 1)) :
      ofNat 0 < share.2 ∧ isFinite share.2 = true := by
    obtain ⟨trail, -, rfl⟩ := List.mem_map.mp h
    exact hone
  unfold shares at h
  split at h
  · exact hall h
  · cases List.mem_cons.mp h with
    | inl hbest =>
      subst hbest
      have hnonneg : ofNat 0 ≤ (ofNat s.elitist : α) := Rounded.ofNat_le_ofNat (Nat.zero_le _)
      have hsum := Rounded.le_add_right (Rounded.le_of_lt hone.1) hnonneg
      exact ⟨Rounded.lt_of_lt_of_le hone.1 hsum, Ample.isFinite_one_add hcount⟩
    | inr hrest => exact hall hrest
  · simp only [List.mem_singleton] at h
    subst h
    exact hone
  · obtain ⟨⟨entry, weight⟩, hmem, rfl⟩ := List.mem_map.mp h
    obtain ⟨hpos, hle⟩ := weight_of_mem_rankShares hmem
    exact ⟨Rounded.ofNat_pos hpos, Ample.isFinite_ofNat (by omega)⟩

omit [Ord S] [TransOrd S] in
/-- What is laid is a number, infinite as it may be. -/
theorem laid_nonneg [Rounded α] [Ample α] (hcount : s.elitist < 1 <<< 64)
    (hq : ofNat 0 < s.q ∧ isFinite s.q = true) {share : Trail S α × α}
    (h : share ∈ shares s trails best) (hcost : ofNat 0 < share.1.cost) :
    ofNat 0 ≤ share.2 * amount s.q share.1.cost := by
  obtain ⟨hpos, hfinite⟩ := weight_of_mem_shares hcount h
  have hamount : ofNat 0 ≤ amount s.q share.1.cost :=
    Rounded.div_nonneg (Rounded.le_of_lt hq.1) hcost (.inl hq.2)
  exact Rounded.mul_nonneg_left hpos hfinite hamount

end Stigmergy.Deposit
