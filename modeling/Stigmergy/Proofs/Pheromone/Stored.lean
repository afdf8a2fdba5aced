import Stigmergy.Proofs.Pheromone.Levels

/-!
# Which edges are stored

* `Pheromone.Stores`: an edge has a level of its own.
* `stores_lay`, `stores_evaporate`, `stores_confine`: laying alone stores an edge, and nothing but a
  reset forgets one.
* `size_lay`, `size_evaporate`, `size_confine`: the same for the number of edges.
-/

namespace Stigmergy.Pheromone

open Std (TransOrd ExtTreeMap)
open Scalar

variable {S α : Type} [Ord S] [TransOrd S] {ph next : Pheromone S α} {e : Edge S}

def Stores (ph : Pheromone S α) (e : Edge S) : Prop := (ph.stored? e).isSome = true

instance (ph : Pheromone S α) (e : Edge S) : Decidable (ph.Stores e) :=
  inferInstanceAs (Decidable (_ = true))

theorem stores_iff_mem : ph.Stores e ↔ e ∈ ph.stored := ExtTreeMap.isSome_getElem?_iff_mem

theorem level_of_not_stores {source target : S} (h : ¬ph.Stores ⟨source, target⟩) :
    ph.level source target = ph.background := by
  unfold level
  rw [Option.not_isSome_iff_eq_none.mp h, Option.getD_none]

theorem stores_map {f : α → α} (h : next.stored = ph.stored.map fun _ level => f level) :
    next.Stores e ↔ ph.Stores e := by
  have hstored : next.stored? e = (ph.stored? e).map f := by
    rw [← getElem?_stored_map, ← h]
    rfl
  unfold Stores
  rw [hstored, Option.isSome_map]

variable [Scalar α] {b : Band α}

theorem stores_evaporate {rho : α} : (ph.evaporate rho).Stores e ↔ ph.Stores e := stores_map rfl

theorem stores_confine (h : ph.confine b = .ok next) : next.Stores e ↔ ph.Stores e := by
  obtain ⟨-, rfl⟩ := confine_ok_iff.mp h
  exact stores_map rfl

theorem stores_lay [Std.LawfulEqOrd S] {source target : S} {amount : α} :
    (ph.lay source target amount).Stores e ↔ e = ⟨source, target⟩ ∨ ph.Stores e := by
  unfold Stores
  rw [stored?_lay_of_compare]
  split
  · next heq => simp [Std.LawfulEqCmp.eq_of_compare heq]
  · next hne =>
    rw [Std.LawfulEqCmp.compare_eq_iff_eq, eq_comm] at hne
    simp [hne]

theorem size_evaporate (ph : Pheromone S α) (rho : α) : (ph.evaporate rho).size = ph.size :=
  ExtTreeMap.size_map

theorem size_confine (h : ph.confine b = .ok next) : next.size = ph.size := by
  obtain ⟨-, rfl⟩ := confine_ok_iff.mp h
  exact ExtTreeMap.size_map

/-- An edge is counted when it is stored for the first time. -/
theorem size_lay (ph : Pheromone S α) (source target : S) (amount : α) :
    (ph.lay source target amount).size =
      if ph.Stores ⟨source, target⟩ then ph.size else ph.size + 1 := by
  simp only [stores_iff_mem]
  exact ExtTreeMap.size_insert

theorem size_le_size_lay (ph : Pheromone S α) (source target : S) (amount : α) :
    ph.size ≤ (ph.lay source target amount).size :=
  ExtTreeMap.size_le_size_insert

end Stigmergy.Pheromone
