import Stigmergy.Proofs.Deposit.Update
import Stigmergy.Proofs.Pheromone.Stored

/-!
# Which edges an update stores

* `Deposit.stores_update`: after an update these are the edges of the trails that have laid
  pheromone, and those that were stored before.
* `Deposit.size_le_size_update`: their number never goes down.
* `Deposit.background_update`: without a band, all other edges keep their level.
-/

namespace Stigmergy

open Std (TransOrd ExtTreeMap)
open Pheromone (Band Edge)

variable {S α : Type} [Ord S] [TransOrd S] {ph : Pheromone S α} {e : Edge S}

namespace Deposit

variable [Scalar α] {band : Option (Band α)} {laid : Pheromone S α} {s : Settings α}
  {trails : List (Trail S α)} {best : Trail S α}

theorem size_confineTo (h : confineTo band ph = .ok laid) : laid.size = ph.size := by
  unfold confineTo at h
  split at h
  · cases h
    rfl
  · exact Pheromone.size_confine h

/-- No edge that is stored is ever forgotten. -/
theorem size_le_size_update (h : update s ph trails best band = .ok laid) :
    ph.size ≤ laid.size := by
  apply update_induction (R := fun laid => ph.size ≤ laid.size) _ _ _ (Nat.le_refl _) h
  · intro kept hkept
    rw [Pheromone.size_evaporate]
    exact hkept
  · intro kept source target amount hkept
    exact Nat.le_trans hkept (Pheromone.size_le_size_lay kept source target amount)
  · intro _ _ hkept hconfined
    rw [size_confineTo hconfined]
    exact hkept

/-- Without a band, an update leaves the background alone. -/
theorem background_update (h : update s ph trails best none = .ok laid) :
    laid.background = ph.background := by
  apply update_induction (R := fun laid => laid.background = ph.background) _ _ _ rfl h
  · intro _ hkept
    exact hkept
  · intro _ _ _ _ hkept
    exact hkept
  · intro _ _ hkept hconfined
    cases hconfined
    exact hkept

theorem stores_confineTo (h : confineTo band ph = .ok laid) : laid.Stores e ↔ ph.Stores e := by
  unfold confineTo at h
  split at h
  · cases h
    rfl
  · exact Pheromone.stores_confine h

omit [Ord S] [TransOrd S] [Scalar α] in
theorem edges_of_short {trail : Trail S α} (h : trail.path.length < 2) : trail.edges = [] := by
  rw [← List.length_eq_zero_iff, Trail.length_edges, Trail.transitions]
  omega

variable [Std.LawfulEqOrd S]

theorem stores_layEdges {edges : List (S × S)} {amount : α} :
    (layEdges ph edges amount).Stores e ↔ (e.source, e.target) ∈ edges ∨ ph.Stores e := by
  unfold layEdges
  induction edges generalizing ph with
  | nil => simp
  | cons edge edges ih =>
    obtain ⟨source, target⟩ := edge
    obtain ⟨s, t⟩ := e
    rw [List.foldl_cons, ih, Pheromone.stores_lay, List.mem_cons]
    simp only [Edge.mk.injEq, Prod.mk.injEq, or_assoc, or_left_comm]

theorem stores_layTrail {q : α} {share : Trail S α × α}
    (h : layTrail q band ph share = .ok laid) :
    laid.Stores e ↔ (e.source, e.target) ∈ share.1.edges ∨ ph.Stores e := by
  unfold layTrail at h
  dsimp only at h
  split at h
  · next hshort =>
    cases h
    rw [edges_of_short hshort]
    simp
  · rw [stores_confineTo h, stores_layEdges]

theorem stores_foldlM_layTrail {q : α} {shares : List (Trail S α × α)}
    (h : shares.foldlM (layTrail q band) ph = .ok laid) :
    laid.Stores e ↔ (∃ share ∈ shares, (e.source, e.target) ∈ share.1.edges) ∨ ph.Stores e := by
  induction shares generalizing ph with
  | nil =>
    cases h
    simp
  | cons share shares ih =>
    rw [List.foldlM_cons] at h
    cases hnext : layTrail q band ph share with
    | error f =>
      rw [hnext] at h
      cases h
    | ok next =>
      rw [hnext] at h
      rw [ih h, stores_layTrail hnext]
      simp only [List.mem_cons, or_and_right, exists_or, exists_eq_left, or_assoc, or_left_comm]

/-- **An update stores the edges of the trails that have laid pheromone**, and keeps those that were
stored. -/
theorem stores_update (h : update s ph trails best band = .ok laid) :
    laid.Stores e ↔
      (∃ share ∈ shares s trails best, (e.source, e.target) ∈ share.1.edges) ∨ ph.Stores e := by
  unfold update at h
  cases hevaporated : evaporate s ph band with
  | error f =>
    rw [hevaporated] at h
    cases h
  | ok evaporated =>
    rw [hevaporated] at h
    rw [stores_foldlM_layTrail h, stores_confineTo hevaporated, Pheromone.stores_evaporate]

end Deposit

end Stigmergy
