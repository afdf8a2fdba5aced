import Stigmergy.Pheromone.Basic
import Stigmergy.Proofs.Scalar.Ample

/-!
# Properties of all levels

* `Pheromone.confined`: all levels clamped into a band, as confining to a band in order does.
* `Pheromone.All`: a property of every stored level and of the background.
* `All.lay`, `All.evaporate`, `All.confine`: what each operation does to it.
* `Pheromone.Spoiled`: an edge's stored level is no number. No operation takes that back.
-/

namespace Stigmergy.Pheromone

open Std (TransOrd ExtTreeMap)
open Scalar

variable {S α : Type} [Ord S] [TransOrd S]

section Confined

variable [Scalar α] {ph next : Pheromone S α} {b : Band α}

def confined (b : Band α) (ph : Pheromone S α) : Pheromone S α :=
  { ph with
    stored := ph.stored.map fun _ level => clamp b.low b.high level
    background := clamp b.low b.high ph.background }

omit [TransOrd S] in
theorem confine_ok_iff : ph.confine b = .ok next ↔ b.low ≤ b.high ∧ ph.confined b = next := by
  unfold confine
  by_cases hband : b.low ≤ b.high
  · simp [hband, confined]
  · simp [hband]

omit [TransOrd S] in
theorem confine_eq (h : b.low ≤ b.high) (ph : Pheromone S α) : ph.confine b = .ok (ph.confined b) :=
  confine_ok_iff.mpr ⟨h, rfl⟩

omit [TransOrd S] in
theorem background_confine (h : ph.confine b = .ok next) :
    b.low ≤ b.high ∧ next.background = clamp b.low b.high ph.background := by
  obtain ⟨hband, rfl⟩ := confine_ok_iff.mp h
  exact ⟨hband, rfl⟩

omit [TransOrd S] in
theorem initial_confine (h : ph.confine b = .ok next) : next.initial = ph.initial := by
  obtain ⟨-, rfl⟩ := confine_ok_iff.mp h
  rfl

end Confined

structure All (P : α → Prop) (ph : Pheromone S α) : Prop where
  stored : ∀ {e level}, ph.stored? e = some level → P level
  background : P ph.background

variable {P Q : α → Prop} {ph : Pheromone S α}

theorem All.uniform {initial : α} (h : P initial) :
    (Pheromone.uniform initial : Pheromone S α).All P :=
  ⟨fun hstored => by simp [stored?, Pheromone.uniform] at hstored, h⟩

theorem All.imp (h : ph.All P) (himp : ∀ level, P level → Q level) : ph.All Q :=
  ⟨fun hstored => himp _ (h.stored hstored), himp _ h.background⟩

theorem All.level (h : ph.All P) (source target : S) : P (ph.level source target) := by
  unfold Pheromone.level
  cases hstored : ph.stored? ⟨source, target⟩ with
  | none => exact h.background
  | some level => exact h.stored hstored

theorem getElem?_stored_map (ph : Pheromone S α) (f : α → α) (e : Edge S) :
    (ph.stored.map fun _ level => f level)[e]? = (ph.stored? e).map f := by
  rw [ExtTreeMap.getElem?_map', Option.pmap_eq_map]
  rfl

theorem stored?_map {f : α → α} {e : Edge S} {level : α}
    (h : (ph.stored.map fun _ level => f level)[e]? = some level) :
    ∃ old, ph.stored? e = some old ∧ level = f old := by
  rw [getElem?_stored_map] at h
  obtain ⟨old, hold, rfl⟩ := Option.map_eq_some_iff.mp h
  exact ⟨old, hold, rfl⟩

variable [Scalar α]

/-- What an edge stores after a laying, whether or not the order tells all states apart. -/
theorem stored?_lay_of_compare (ph : Pheromone S α) (source target : S) (amount : α) (e : Edge S) :
    (ph.lay source target amount).stored? e =
      if compare ⟨source, target⟩ e = .eq then some (ph.level source target + amount)
      else ph.stored? e :=
  ExtTreeMap.getElem?_insert

theorem All.lay (h : ph.All P) {source target : S} {amount : α}
    (hlay : ∀ level, P level → P (level + amount)) : (ph.lay source target amount).All P := by
  refine ⟨?_, h.background⟩
  intro e level hstored
  rw [stored?_lay_of_compare] at hstored
  split at hstored
  · cases hstored
    exact hlay _ (h.level source target)
  · exact h.stored hstored

/-- Evaporation scales what is stored, and nothing else. -/
theorem all_evaporate {rho : α}
    (hscale : ∀ {e level}, ph.stored? e = some level → P (level * (ofNat 1 - rho)))
    (hbackground : P ph.background) : (ph.evaporate rho).All P := by
  refine ⟨?_, hbackground⟩
  intro e level hstored
  obtain ⟨old, hold, rfl⟩ := stored?_map hstored
  exact hscale hold

theorem All.evaporate (h : ph.All P) {rho : α}
    (hscale : ∀ level, P level → P (level * (ofNat 1 - rho))) : (ph.evaporate rho).All P :=
  all_evaporate (fun hstored => hscale _ (h.stored hstored)) h.background

/-- Levels are confined to a band in order. -/
theorem All.confine (h : ph.All P) {b : Band α} (hband : b.low ≤ b.high)
    (hclamp : ∀ level, P level → Q (clamp b.low b.high level)) :
    ∃ next, ph.confine b = .ok next ∧ next.All Q := by
  refine ⟨_, confine_eq hband ph, ?_, hclamp _ h.background⟩
  intro e level hstored
  obtain ⟨old, hold, rfl⟩ := stored?_map hstored
  exact hclamp old (h.stored hold)

@[simp]
theorem stored?_confined (ph : Pheromone S α) (b : Band α) (e : Edge S) :
    (ph.confined b).stored? e = (ph.stored? e).map (clamp b.low b.high) :=
  getElem?_stored_map ph _ e

@[simp]
theorem level_confined (ph : Pheromone S α) (b : Band α) (source target : S) :
    (ph.confined b).level source target = clamp b.low b.high (ph.level source target) := by
  unfold Pheromone.level
  rw [stored?_confined]
  cases ph.stored? ⟨source, target⟩ <;> rfl

/-! ## Levels that are no number -/

/-- The stored level of an edge is no number. -/
def Spoiled (ph : Pheromone S α) (e : Edge S) : Prop :=
  ∃ level, ph.stored? e = some level ∧ isNaN level = true

variable {e : Edge S}

theorem Spoiled.map {f : α → α} (hf : ∀ {level}, isNaN level = true → isNaN (f level) = true)
    (h : ph.Spoiled e) :
    ∃ level, (ph.stored.map fun _ level => f level)[e]? = some level ∧ isNaN level = true := by
  obtain ⟨level, hstored, hnan⟩ := h
  exact ⟨f level, by simp [getElem?_stored_map, hstored], hf hnan⟩

theorem Spoiled.evaporate [Absorbing α] (h : ph.Spoiled e) (rho : α) :
    (ph.evaporate rho).Spoiled e :=
  h.map Absorbing.isNaN_mul

/-- Where nothing is left after evaporation, nothing is left of an infinity. -/
theorem spoiled_evaporate [Absorbing α] {rho level : α} (hrho : IsZero (ofNat 1 - rho))
    (hstored : ph.stored? e = some level) (hinfinite : isFinite level = false) :
    (ph.evaporate rho).Spoiled e := by
  refine ⟨level * (ofNat 1 - rho), ?_, Absorbing.isNaN_mul_zero hinfinite hrho⟩
  have hscaled := getElem?_stored_map ph (· * (ofNat 1 - rho)) e
  rw [hstored] at hscaled
  exact hscaled

theorem Spoiled.lay [Absorbing α] (h : ph.Spoiled e) (source target : S) (amount : α) :
    (ph.lay source target amount).Spoiled e := by
  obtain ⟨level, hstored, hnan⟩ := h
  unfold Spoiled
  rw [stored?_lay_of_compare]
  split
  · next heq =>
    have hsame : ph.stored? ⟨source, target⟩ = ph.stored? e := ExtTreeMap.getElem?_congr heq
    refine ⟨level + amount, ?_, Absorbing.isNaN_add hnan⟩
    simp [Pheromone.level, hsame, hstored]
  · exact ⟨level, hstored, hnan⟩

theorem Spoiled.confine [Rounded α] (h : ph.Spoiled e) {b : Band α} {next : Pheromone S α}
    (hnext : ph.confine b = .ok next) : next.Spoiled e := by
  obtain ⟨-, rfl⟩ := confine_ok_iff.mp hnext
  exact h.map isNaN_clamp

end Stigmergy.Pheromone
