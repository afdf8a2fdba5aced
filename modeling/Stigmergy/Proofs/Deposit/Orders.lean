import Stigmergy.Proofs.Pheromone.Stagnation
import Stigmergy.Proofs.Deposit.Amounts

/-!
# The order of the ants

Without rounding, amounts add up to the same in any order. So it does not matter which of the ants
of an iteration is the first.

* `cheapestFirst_eq_of_perm`: where all costs differ, ranking undoes any permutation.
* `perm_shares`: the shares of permuted trails are permuted shares.
* `stored?_layEach_eq_of_perm`: permuted shares lay the same pheromone.
* `update_ignores_order`: so an update does not depend on the order of the trails, and where the
  best trail alone lays pheromone it does not depend on the trails at all.
-/

namespace Stigmergy.Deposit

open Scalar
open Pheromone (Band Edge)

/-! ## Ranking -/

section Ranking

variable {S α : Type} [Scalar α]

/-- The trails in the order of their costs, without their indices. -/
def cheapestFirst (trails : List (Trail S α)) : List (Trail S α) := (ranked trails).map Prod.fst

theorem perm_cheapestFirst (trails : List (Trail S α)) : (cheapestFirst trails).Perm trails := by
  simpa [cheapestFirst] using (perm_ranked trails).map Prod.fst

/-- Shares by rank do not ask for the indices. -/
theorem map_rankShares (elitist : Nat) (trails : List (Trail S α)) :
    (rankShares elitist trails).map (fun ((trail, _), weight) => (trail, (ofNat weight : α))) =
      ((cheapestFirst trails).take (min elitist trails.length)).zipIdx.map
        fun (trail, rank) => (trail, ofNat (elitist - rank)) := by
  unfold rankShares cheapestFirst
  rw [← List.map_take, List.zipIdx_map, List.map_map, List.map_map]
  rfl

end Ranking

variable {S K : Type} [Exact K] {s : Settings K} {trails trails' : List (Trail S K)}

theorem pairwise_cheapestFirst (trails : List (Trail S K)) :
    (cheapestFirst trails).Pairwise fun t u => t.cost ≤ u.cost := by
  have hsorted : (ranked trails).Pairwise fun a b => (decide ¬b.1.cost < a.1.cost) = true := by
    apply List.pairwise_mergeSort
    · intro a b c hab hbc
      simp only [not_lt, decide_eq_true_eq] at hab hbc ⊢
      exact hab.trans hbc
    · intro a b
      simpa using le_total a.1.cost b.1.cost
  apply List.pairwise_map.mpr
  simpa using hsorted

/-- **Ranking undoes any permutation**, where all costs differ. -/
theorem cheapestFirst_eq_of_perm (hperm : trails.Perm trails')
    (hcosts : (trails.map Trail.cost).Nodup) : cheapestFirst trails = cheapestFirst trails' := by
  have hsame : (cheapestFirst trails).Perm (cheapestFirst trails') :=
    (perm_cheapestFirst trails).trans (hperm.trans (perm_cheapestFirst trails').symm)
  apply hsame.eq_of_pairwise _ (pairwise_cheapestFirst trails) (pairwise_cheapestFirst trails')
  intro t u ht hu htu hut
  apply List.inj_on_of_nodup_map hcosts
  · exact (perm_cheapestFirst trails).subset ht
  · exact hperm.symm.subset ((perm_cheapestFirst trails').subset hu)
  · exact le_antisymm htu hut

/-! ## Shares -/

/-- The shares of permuted trails are permuted shares. -/
theorem perm_shares (hperm : trails.Perm trails')
    (hcosts : s.variant = .rankBased → (trails.map Trail.cost).Nodup) (best : Trail S K) :
    (shares s trails best).Perm (shares s trails' best) := by
  have hall : (trails.map (·, (ofNat 1 : K))).Perm (trails'.map (·, ofNat 1)) := hperm.map _
  unfold shares
  cases hvariant : s.variant with
  | antSystem => exact hall
  | elitist => exact hall.cons _
  | maxMin => exact .refl _
  | rankBased =>
    dsimp only
    rw [map_rankShares, map_rankShares, cheapestFirst_eq_of_perm hperm (hcosts hvariant),
      hperm.length_eq]

omit [Exact K] in
theorem depositors_eq_of_perm (hperm : trails.Perm trails') :
    depositors s trails = depositors s trails' := by
  simp [depositors, hperm.length_eq]

/-! ## Laying -/

/-- Two amounts raise a level to the same, whichever is the first. -/
theorem raise_comm (background : K) (stored : Option K) (a b : K) :
    raise background (raise background stored a) b =
      raise background (raise background stored b) a := by
  simp [raise, add_right_comm]

variable [Ord S] [Std.TransOrd S] [Std.LawfulEqOrd S]

/-- **Permuted shares lay the same on every edge.** -/
theorem stored?_layEach_eq_of_perm [DecidableEq S] {shares shares' : List (Trail S K × K)}
    (hperm : shares.Perm shares') (q : K) (ph : Pheromone S K) (e : Edge S) :
    (layEach q ph shares).stored? e = (layEach q ph shares').stored? e := by
  rw [stored?_layEach, stored?_layEach]
  apply (hperm.flatMap_right _).foldl_eq'
  intro a _ b _ stored
  exact raise_comm ph.background stored a b

/-- Without a band, permuted trails come to the same update. -/
theorem update_eq_of_perm (hperm : trails.Perm trails')
    (hcosts : s.variant = .rankBased → (trails.map Trail.cost).Nodup) (ph : Pheromone S K)
    (best : Trail S K) : update s ph trails best none = update s ph trails' best none := by
  classical
  have hupdate := update_none s ph trails best
  have hupdate' := update_none s ph trails' best
  rw [hupdate, hupdate', Except.ok.injEq]
  apply Pheromone.ext_stored?
  · exact stored?_layEach_eq_of_perm (perm_shares hperm hcosts best) s.q (ph.evaporate s.rho)
  · exact (background_update hupdate).trans (background_update hupdate').symm
  · exact (initial_update hupdate).trans (initial_update hupdate').symm

/-! ## The best trail alone -/

section Best

variable {α : Type} [Scalar α] {s : Settings α}

omit [Std.LawfulEqOrd S] in
/-- Where the best trail alone lays pheromone, the trails of the iteration do not count. -/
theorem update_ignores_trails (hvariant : s.variant = .maxMin) (ph : Pheromone S α)
    (trails others : List (Trail S α)) (best : Trail S α) (band : Option (Band α)) :
    update s ph trails best band = update s ph others best band := by
  simp [update, layAll, shares, hvariant]

omit [Std.LawfulEqOrd S] in
/-- An update fails at nothing but a band that is not in order. -/
theorem exists_update {band : Option (Band α)} (hband : ∀ b ∈ band, b.low ≤ b.high)
    (ph : Pheromone S α) (trails : List (Trail S α)) (best : Trail S α) :
    ∃ laid, update s ph trails best band = .ok laid := by
  have hconfine : Confines band S (fun _ : α => True) fun _ => True := by
    intro ph hph
    cases band with
    | none => exact ⟨ph, rfl, hph⟩
    | some b => exact hph.confine (hband b rfl) fun _ _ => trivial
  have hall : ph.All fun _ => True := ⟨fun _ => trivial, trivial⟩
  obtain ⟨laid, hupdate, -⟩ : ∃ laid, update s ph trails best band = .ok laid ∧ _ :=
    update_all (fun _ _ => trivial) (fun _ _ => trivial) (fun _ _ _ _ _ => trivial) hconfine hall
  exact ⟨laid, hupdate⟩

end Best

/-- **The order of the ants does not matter.** Without a band, an update comes to the same pheromone
and the same number of depositors for some trails and any permutation of them; where it ranks the
trails, their costs have to differ. Where the best trail alone lays pheromone, it comes to the same
for any other trails, with a band or without one, and fails only if the band is not in order. -/
theorem update_ignores_order (s : Settings K) (ph : Pheromone S K) (best : Trail S K) :
    (∀ trails trails' : List (Trail S K), trails.Perm trails' →
      (s.variant = .rankBased → (trails.map Trail.cost).Nodup) →
        depositors s trails = depositors s trails' ∧
        ∃ laid, update s ph trails best none = .ok laid ∧
          update s ph trails' best none = .ok laid) ∧
    (s.variant = .maxMin → ∀ (band : Option (Band K)) (trails others : List (Trail S K)),
      depositors s trails = depositors s others ∧
        update s ph trails best band = update s ph others best band ∧
        ((∀ b ∈ band, b.low ≤ b.high) → ∃ laid, update s ph trails best band = .ok laid)) := by
  constructor
  · intro trails trails' hperm hcosts
    have hupdate := update_none s ph trails best
    have hsame := update_eq_of_perm hperm hcosts ph best
    exact ⟨depositors_eq_of_perm hperm, _, hupdate, hsame ▸ hupdate⟩
  · intro hvariant band trails others
    have hcount : depositors s trails = depositors s others := by simp [depositors, hvariant]
    exact ⟨hcount, update_ignores_trails hvariant ph trails others best band,
      fun hband => exists_update hband ph trails best⟩

/-- Two ants share an edge that nothing was laid on before, and the dearer one came first. -/
theorem update_ignores_order_of_two :
    let s : Settings ℝ := Settings.preset .rankBased
    let ph : Pheromone Nat ℝ := Pheromone.uniform 1
    let dear : Trail Nat ℝ := ⟨[0, 1, 2], 2⟩
    let cheap : Trail Nat ℝ := ⟨[2, 0, 1], 1⟩
    [dear, cheap].Perm [cheap, dear] ∧ ([dear, cheap].map Trail.cost).Nodup ∧
      depositors s [dear, cheap] = depositors s [cheap, dear] ∧
      ∃ laid, update s ph [dear, cheap] cheap none = .ok laid ∧
        update s ph [cheap, dear] cheap none = .ok laid := by
  intro s ph dear cheap
  have hperm : [dear, cheap].Perm [cheap, dear] := .swap cheap dear []
  have hcosts : ([dear, cheap].map Trail.cost).Nodup := by norm_num [dear, cheap]
  obtain ⟨horder, -⟩ := update_ignores_order s ph cheap
  exact ⟨hperm, hcosts, horder _ _ hperm fun _ => hcosts⟩

end Stigmergy.Deposit
