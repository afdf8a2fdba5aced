import Stigmergy.Proofs.Pheromone.Stagnation
import Stigmergy.Proofs.Deposit.Amounts
import Stigmergy.Proofs.Settings.Rules

/-!
# Whether stagnation lasts

The band of the best trail promises something of stagnation. Here is what an update makes of it,
without rounding.

* `update_maxMin`: an update of a bounded colony in one piece.
* `Stagnant`: the edges of the best trail hold the top of the band, and everything else its bottom.
* `exists_update_of_stagnant`: the edges of the best trail are left what evaporation leaves of the
  top, and they are laid that much again; everything else stays.
* `stagnation_lasts_iff`: so stagnation lasts if not more than half of the pheromone evaporates, or
  if the band is narrow, and not otherwise.
-/

namespace Stigmergy.Deposit

open Scalar
open Pheromone (Band Edge)

section Update

variable {S α : Type} [Ord S] [Std.TransOrd S] [Scalar α] {s : Settings α} {best : Trail S α}
  {b : Band α}

/-- A bounded colony lays the best trail alone, whatever the trails of the iteration are. -/
theorem update_maxMin (hvariant : s.variant = .maxMin) (hlength : 2 ≤ best.path.length)
    (hband : b.low ≤ b.high) (ph : Pheromone S α) (trails : List (Trail S α)) :
    update s ph trails best (some b) =
      .ok ((layEdges ((ph.evaporate s.rho).confined b) best.edges
        (ofNat 1 * amount s.q best.cost)).confined b) := by
  have hevaporate : evaporate s ph (some b) = .ok ((ph.evaporate s.rho).confined b) :=
    Pheromone.confine_eq hband _
  have hshares : shares s trails best = [(best, ofNat 1)] := by simp [shares, hvariant]
  have hlay (ph : Pheromone S α) : layTrail s.q (some b) ph (best, ofNat 1) =
      .ok ((layEdges ph best.edges (ofNat 1 * amount s.q best.cost)).confined b) := by
    simp [layTrail, Nat.not_lt.mpr hlength, confineTo, Pheromone.confine_eq hband]
  unfold update layAll
  rw [hevaporate, hshares]
  change [(best, ofNat 1)].foldlM (layTrail s.q (some b)) ((ph.evaporate s.rho).confined b) = _
  simp [hlay]

end Update

variable {S K : Type} [Ord S] [Std.TransOrd S] [Exact K] {s : Settings K} {best : Trail S K}
  {b : Band K} {ph : Pheromone S K}

/-- The edges of the trail hold the top of the band, and everything else its bottom. -/
structure Stagnant (best : Trail S K) (b : Band K) (ph : Pheromone S K) : Prop where
  onTrail : ∀ {e : Edge S}, (e.source, e.target) ∈ best.edges → ph.stored? e = some b.high
  elsewhere : ∀ {e : Edge S} {level : K}, (e.source, e.target) ∉ best.edges →
    ph.stored? e = some level → level = b.low
  background : ph.background = b.low

/-- The level of an edge that evaporation has left an amount, and on which as much is laid. -/
def renewed (b : Band K) (amount : K) : K := min b.high (max amount b.low + amount)

theorem clamp_add_eq_renewed {amount : K} (hband : b.low ≤ b.high) (hnonneg : 0 ≤ amount)
    (hle : amount ≤ b.high) :
    clamp b.low b.high (clamp b.low b.high amount + amount) = renewed b amount := by
  have hfirst : clamp b.low b.high amount = max amount b.low := by
    rw [Exact.clamp_eq, min_eq_right (max_le hle hband)]
  have habove : b.low ≤ max amount b.low + amount :=
    (le_max_right _ _).trans (le_add_of_nonneg_right hnonneg)
  rw [hfirst, Exact.clamp_eq, max_eq_left habove, renewed]

/-- It is the top again if the amount makes up for what has evaporated, or the bottom does. -/
theorem renewed_eq_high_iff {rho : K} (hhigh : 0 < b.high) :
    renewed b (b.high * (1 - rho)) = b.high ↔ rho ≤ 1 / 2 ∨ rho * b.high ≤ b.low := by
  have hevaporated : b.high - b.high * (1 - rho) = b.high * rho := by ring
  have hhalf : rho ≤ 1 - rho ↔ rho ≤ 1 / 2 := by
    constructor
    · intro h
      linarith
    · intro h
      linarith
  rw [renewed, min_eq_left_iff, ← sub_le_iff_le_add, hevaporated, le_max_iff,
    mul_le_mul_iff_right₀ hhigh, hhalf, mul_comm]

variable [Std.LawfulEqOrd S] [DecidableEq S]

/-- Pheromone at stagnation. -/
theorem stagnant_layEdges (hnodup : best.edges.Nodup) (b : Band K) :
    Stagnant best b (layEdges (Pheromone.uniform b.low) best.edges (b.high - b.low)) := by
  refine ⟨?_, ?_, background_layEdges _ _ _⟩
  · intro e he
    rw [stored?_layEdges, List.count_eq_one_of_mem hnodup he]
    have hbackground : (Pheromone.uniform b.low : Pheromone S K).background = b.low := rfl
    simp [raise, hbackground]
  · intro e level he hstored
    rw [stored?_layEdges, List.count_eq_zero_of_not_mem he] at hstored
    simp at hstored

/-- **What an update makes of stagnation**, if evaporation leaves of the top what the trail lays.
The edges of the trail are renewed, and everything else stays as it is. -/
theorem exists_update_of_stagnant (hvariant : s.variant = .maxMin) (hrho : 0 ≤ s.rho)
    (hlength : 2 ≤ best.path.length) (hnodup : best.edges.Nodup) (hlow : 0 ≤ b.low)
    (hband : b.low ≤ b.high) (hnonneg : 0 ≤ s.q / best.cost)
    (hleft : b.high * (1 - s.rho) = s.q / best.cost) (h : Stagnant best b ph)
    (trails : List (Trail S K)) :
    ∃ laid, update s ph trails best (some b) = .ok laid ∧
      (laid.background = ph.background ∧ laid.initial = ph.initial) ∧
      (∀ e : Edge S, (e.source, e.target) ∉ best.edges → laid.stored? e = ph.stored? e) ∧
      ∀ e : Edge S, (e.source, e.target) ∈ best.edges →
        laid.stored? e = some (renewed b (s.q / best.cost)) := by
  have hupdate := update_maxMin hvariant hlength hband ph trails
  have hkept : clamp b.low b.high b.low = b.low := by simp [Exact.clamp_eq, hband]
  have hraised : clamp b.low b.high (b.low * (1 - s.rho)) = b.low := by
    have hless : b.low * (1 - s.rho) ≤ b.low := mul_le_of_le_one_right hlow (by linarith)
    simp [Exact.clamp_eq, hless, hband]
  refine ⟨_, hupdate, ⟨?_, initial_update hupdate⟩, ?_, ?_⟩
  · have hbackground : (layEdges ((ph.evaporate s.rho).confined b) best.edges
        (ofNat 1 * amount s.q best.cost)).background = clamp b.low b.high ph.background :=
      background_layEdges _ _ _
    change clamp b.low b.high (layEdges _ _ _).background = ph.background
    rw [hbackground, h.background, hkept, hkept]
  · intro e he
    rw [Pheromone.stored?_confined, stored?_layEdges, List.count_eq_zero_of_not_mem he]
    cases hstored : ph.stored? e with
    | none => simp [hstored]
    | some level =>
      obtain rfl := h.elsewhere he hstored
      simp [hstored, hraised, hkept]
  · intro e he
    have hle : s.q / best.cost ≤ b.high :=
      hleft ▸ mul_le_of_le_one_right (hlow.trans hband) (by linarith)
    rw [Pheromone.stored?_confined, stored?_layEdges, List.count_eq_one_of_mem hnodup he]
    simp [h.onTrail he, raise, hleft, amount, clamp_add_eq_renewed hband hnonneg hle]

/-- **Stagnation lasts if not more than half of the pheromone evaporates**, or if the bottom of the
band is not below what evaporates of its top, and not otherwise. The settings are valid, the trail
has at least three states and no edge twice, and the band is its own. Then an update leaves
everything but the edges of the trail as it is, and these are renewed. -/
theorem stagnation_lasts_iff (hvalid : s.Valid) (hvariant : s.variant = .maxMin)
    (hcost : 0 < best.cost) (hlength : 3 ≤ best.path.length) (hnodup : best.edges.Nodup)
    (hroot : 0 < Band.decision best.path.length s.pBest)
    (hpower : Band.decision best.path.length s.pBest ^ best.path.length = s.pBest) :
    let b := Band.ofTrail best s.rho s.q s.pBest
    ∀ ph : Pheromone S K, Stagnant best b ph → ∀ trails : List (Trail S K),
      ∃ laid, update s ph trails best (some b) = .ok laid ∧
        (laid.background = ph.background ∧ laid.initial = ph.initial) ∧
        (∀ e : Edge S, (e.source, e.target) ∉ best.edges → laid.stored? e = ph.stored? e) ∧
        (∀ e : Edge S, (e.source, e.target) ∈ best.edges →
          laid.stored? e = some (renewed b (b.high * (1 - s.rho)))) ∧
        (laid = ph ↔ s.rho ≤ 1 / 2 ∨ s.rho * b.high ≤ b.low) := by
  intro b ph hph trails
  have hrho : 0 ≤ s.rho := by simpa using hvalid.common.rho_pos.le
  have hlt : s.rho < 1 := by simpa using hvalid.bounded hvariant |>.rho_lt
  have hq : 0 < s.q := by simpa using hvalid.common.q.1
  have hpBest : s.pBest < 1 := by simpa using hvalid.bounded hvariant |>.pBest_lt
  have hhigh : 0 < b.high := Band.top_pos hcost hlt hq
  obtain ⟨hlow, hband⟩ : 0 < b.low ∧ b.low ≤ b.high :=
    Band.low_derive hlength hroot hcost hlt hq hpBest hpower
  have hleft : b.high * (1 - s.rho) = s.q / best.cost := Band.top_mul_remaining hlt
  obtain ⟨laid, hupdate, hkept, hothers, hrenewed⟩ :=
    exists_update_of_stagnant hvariant hrho (by omega) hnodup hlow.le hband (div_pos hq hcost).le
      hleft hph trails
  rw [← hleft] at hrenewed
  refine ⟨laid, hupdate, hkept, hothers, hrenewed, ?_⟩
  rw [← renewed_eq_high_iff hhigh]
  constructor
  · intro hsame
    have hsome : 0 < best.edges.length := by
      rw [Trail.length_edges, Trail.transitions]
      omega
    obtain ⟨⟨source, target⟩, hedge⟩ := List.exists_mem_of_length_pos hsome
    have hstored := hrenewed ⟨source, target⟩ hedge
    rw [hsame, hph.onTrail hedge] at hstored
    exact (Option.some.inj hstored).symm
  · intro htop
    apply Pheromone.ext_stored? _ hkept.1 hkept.2
    intro e
    by_cases hedge : (e.source, e.target) ∈ best.edges
    · rw [hrenewed e hedge, hph.onTrail hedge, htop]
    · exact hothers e hedge

/-- Half of the pheromone evaporates, and is laid again. -/
theorem stagnation_lasts_at_one_half :
    let s : Settings ℝ := { Settings.preset .maxMin with rho := 1 / 2, pBest := (3 / 4) ^ 4 }
    let best : Trail Nat ℝ := ⟨[0, 1, 2, 3], 1⟩
    let b := Band.ofTrail best s.rho s.q s.pBest
    let ph : Pheromone Nat ℝ := layEdges (Pheromone.uniform b.low) best.edges (b.high - b.low)
    s.Valid ∧ best.edges.Nodup ∧ Stagnant best b ph ∧ update s ph [] best (some b) = .ok ph := by
  intro s best b ph
  have hvalid : s.Valid := by
    simp [Settings.Valid, Settings.breach?, Settings.commonBreach?, Settings.variantBreach?, s,
      Settings.preset, Settings.standard]
    norm_num
  have hnodup : best.edges.Nodup := by decide
  have hdecision : Band.decision 4 ((3 / 4) ^ 4) = (3 / 4 : ℝ) :=
    Band.decision_real (by norm_num) (by decide)
  have hroot : 0 < Band.decision best.path.length s.pBest := by
    change (0 : ℝ) < Band.decision 4 ((3 / 4) ^ 4)
    rw [hdecision]
    norm_num
  have hpower : Band.decision best.path.length s.pBest ^ best.path.length = s.pBest := by
    change Band.decision 4 ((3 / 4 : ℝ) ^ 4) ^ 4 = (3 / 4) ^ 4
    rw [hdecision]
  have hph : Stagnant best b ph := stagnant_layEdges hnodup b
  obtain ⟨laid, hupdate, -, -, -, hlasts⟩ :=
    stagnation_lasts_iff hvalid rfl one_pos (by decide) hnodup hroot hpower ph hph []
  obtain rfl := hlasts.mpr (.inl le_rfl)
  exact ⟨hvalid, hnodup, hph, hupdate⟩

/-- Three quarters evaporate: of twelve at the top three are left, which are raised to the bottom at
four, and three are laid. -/
theorem stagnation_ends_at_three_quarters :
    let s : Settings ℝ :=
      { Settings.preset .maxMin with rho := 3 / 4, q := 3, pBest := (3 / 4) ^ 4 }
    let best : Trail Nat ℝ := ⟨[0, 1, 2, 3], 1⟩
    let b := Band.ofTrail best s.rho s.q s.pBest
    let ph : Pheromone Nat ℝ := layEdges (Pheromone.uniform b.low) best.edges (b.high - b.low)
    s.Valid ∧ best.edges.Nodup ∧ Band.decision best.path.length s.pBest ^ 4 = s.pBest ∧
      Stagnant best b ph ∧ ph.stored? ⟨0, 1⟩ = some 12 ∧
      ∃ laid, update s ph [best] best (some b) = .ok laid ∧ laid.stored? ⟨0, 1⟩ = some 7 ∧
        laid ≠ ph := by
  intro s best b ph
  have hvalid : s.Valid := by
    simp [Settings.Valid, Settings.breach?, Settings.commonBreach?, Settings.variantBreach?, s,
      Settings.preset, Settings.standard]
    norm_num
  have hnodup : best.edges.Nodup := by decide
  have hdecision : Band.decision best.path.length s.pBest = 3 / 4 :=
    Band.decision_real (by norm_num) (by decide)
  have hhigh : b.high = 12 := by
    change Band.top 1 (3 / 4) 3 = (12 : ℝ)
    rw [Band.top_eq]
    norm_num
  have hlow : b.low = 4 := by
    have hbottom : Band.bottom b.high best.path.length s.pBest = 4 := by
      simp only [Band.bottom, hdecision, hhigh]
      norm_num [best]
    have hleast : b.low = min (Band.bottom b.high best.path.length s.pBest) b.high :=
      Exact.least_eq _ _
    rw [hleast, hbottom, hhigh]
    norm_num
  have hph : Stagnant best b ph := stagnant_layEdges hnodup b
  have hstored : ph.stored? ⟨0, 1⟩ = some 12 := hhigh ▸ hph.onTrail (by decide)
  have hvariant : s.variant = .maxMin := rfl
  have hrho : 0 ≤ s.rho := by norm_num [s]
  have hband : 0 ≤ b.low ∧ b.low ≤ b.high := by norm_num [hlow, hhigh]
  have hnonneg : 0 ≤ s.q / best.cost := by norm_num [s, best]
  have hleft : b.high * (1 - s.rho) = s.q / best.cost := by norm_num [hhigh, s, best]
  obtain ⟨laid, hupdate, -, -, hrenewed⟩ :=
    exists_update_of_stagnant hvariant hrho (by decide) hnodup hband.1 hband.2 hnonneg hleft hph
      [best]
  have hlaid : laid.stored? ⟨0, 1⟩ = some 7 := by
    rw [hrenewed ⟨0, 1⟩ (by decide), renewed, hlow, hhigh]
    norm_num [s, best]
  refine ⟨hvalid, hnodup, ?_, hph, hstored, laid, hupdate, hlaid, ?_⟩
  · rw [hdecision]
  · rintro rfl
    rw [hstored] at hlaid
    norm_num at hlaid

end Stigmergy.Deposit
