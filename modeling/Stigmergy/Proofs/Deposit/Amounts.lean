import Stigmergy.Binary64.Arithmetic
import Stigmergy.Proofs.Deposit.Edges

/-!
# What an update lays on an edge

Without a band, an edge's level after an update can be told from its level before it and from the
trails alone.

* `amountsOf`, `amounts`: what a trail lays on an edge, time by time, and what all of them do in
  their order.
* `stored?_layEdges`, `stored?_layEach`: laying adds these to the edge one after the other.
* `levels_add_up`: so an update evaporates the stored level and adds all amounts to it.
-/

namespace Stigmergy.Deposit

open Scalar
open Pheromone (Edge)

variable {S α : Type} [DecidableEq S] [Scalar α]

/-! ## Amounts -/

/-- What a trail of the given weight lays on an edge, once for each time it takes the edge. -/
def amountsOf (q : α) (e : Edge S) (trail : Trail S α) (weight : α) : List α :=
  List.replicate (trail.edges.count (e.source, e.target)) (weight * (q / trail.cost))

/-- All amounts that an update lays on an edge, in order: those of all trails, those of the best
trail with its bonus and then of all trails, those of the best trail alone, or those of the first
ranked trails with weights that go down by one. -/
def amounts (s : Settings α) (trails : List (Trail S α)) (best : Trail S α) (e : Edge S) :
    List α :=
  match s.variant with
  | .antSystem => trails.flatMap fun trail => amountsOf s.q e trail (ofNat 1)
  | .elitist =>
    amountsOf s.q e best (ofNat 1 + ofNat s.elitist) ++
      trails.flatMap fun trail => amountsOf s.q e trail (ofNat 1)
  | .maxMin => amountsOf s.q e best (ofNat 1)
  | .rankBased =>
    ((ranked trails).take (min s.elitist trails.length)).zipIdx.flatMap fun ((trail, _), rank) =>
      amountsOf s.q e trail (ofNat (s.elitist - rank))

variable {s : Settings α} {trails : List (Trail S α)} {best : Trail S α} {e : Edge S}

theorem amountsOf_of_short {q weight : α} {trail : Trail S α} (h : trail.path.length < 2) :
    amountsOf q e trail weight = [] := by
  unfold amountsOf
  rw [edges_of_short h]
  rfl

/-- The amounts are those of the shares in their order. -/
theorem amounts_eq :
    amounts s trails best e =
      (shares s trails best).flatMap fun share => amountsOf s.q e share.1 share.2 := by
  unfold amounts shares rankShares
  cases s.variant with
  | antSystem => simp only [List.flatMap_map]
  | elitist => simp only [List.flatMap_cons, List.flatMap_map]
  | maxMin => simp only [List.flatMap_cons, List.flatMap_nil, List.append_nil]
  | rankBased => simp only [List.map_map, List.flatMap_map, Function.comp_apply]

/-! ## Laying -/

/-- An amount added to what an edge stores, and to the background if it stores nothing. -/
def raise (background : α) (stored : Option α) (amount : α) : Option α :=
  some (stored.getD background + amount)

omit [DecidableEq S] in
theorem foldl_raise (background : α) (stored : Option α) (amounts : List α) :
    amounts.foldl (raise background) stored =
      if amounts = [] then stored else some (amounts.foldl (· + ·) (stored.getD background)) := by
  induction amounts generalizing stored with
  | nil => rfl
  | cons amount amounts ih =>
    rw [List.foldl_cons, ih, if_neg (List.cons_ne_nil _ _), List.foldl_cons]
    by_cases hlast : amounts = []
    · rw [if_pos hlast, hlast]
      rfl
    · rw [if_neg hlast]
      rfl

variable [Ord S] [Std.TransOrd S] {ph : Pheromone S α}

/-- The level that amounts are added to: the stored one without what has evaporated, or else the
background. -/
def base (s : Settings α) (ph : Pheromone S α) (e : Edge S) : α :=
  match ph.stored? e with
  | some level => level * (ofNat 1 - s.rho)
  | none => ph.background

/-- The pheromone after every share has been laid, without a band. -/
def layEach (q : α) (ph : Pheromone S α) (shares : List (Trail S α × α)) : Pheromone S α :=
  shares.foldl (fun ph share => layEdges ph share.1.edges (share.2 * amount q share.1.cost)) ph

omit [DecidableEq S] in
/-- A trail without edges needs no care where there is no band. -/
theorem layTrail_none (q : α) (ph : Pheromone S α) (share : Trail S α × α) :
    layTrail q none ph share =
      .ok (layEdges ph share.1.edges (share.2 * amount q share.1.cost)) := by
  unfold layTrail
  dsimp only
  by_cases hshort : share.1.path.length < 2
  · rw [if_pos hshort, edges_of_short hshort]
    rfl
  · rw [if_neg hshort]
    rfl

omit [DecidableEq S] in
/-- **Without a band no update fails.** -/
theorem update_none (s : Settings α) (ph : Pheromone S α) (trails : List (Trail S α))
    (best : Trail S α) :
    update s ph trails best none =
      .ok (layEach s.q (ph.evaporate s.rho) (shares s trails best)) := by
  have hstep : layTrail s.q none = fun (ph : Pheromone S α) share =>
      .ok (layEdges ph share.1.edges (share.2 * amount s.q share.1.cost)) := by
    funext ph share
    exact layTrail_none s.q ph share
  unfold update layAll
  rw [hstep]
  exact List.foldlM_pure

omit [DecidableEq S] in
theorem background_layEdges (ph : Pheromone S α) (edges : List (S × S)) (amount : α) :
    (layEdges ph edges amount).background = ph.background :=
  layEdges_induction (R := fun laid => laid.background = ph.background)
    (fun _ _ _ _ hkept => hkept) rfl edges amount

variable [Std.LawfulEqOrd S]

theorem stored?_layEdges {edges : List (S × S)} {amount : α} :
    (layEdges ph edges amount).stored? e =
      (List.replicate (edges.count (e.source, e.target)) amount).foldl (raise ph.background)
        (ph.stored? e) := by
  unfold layEdges
  induction edges generalizing ph with
  | nil => rfl
  | cons edge edges ih =>
    rw [List.foldl_cons, ih]
    by_cases hedge : edge = (e.source, e.target)
    · subst hedge
      rw [List.count_cons_self, List.replicate_succ, List.foldl_cons, Pheromone.stored?_lay,
        if_pos rfl]
      rfl
    · have hother : (⟨edge.1, edge.2⟩ : Edge S) ≠ e := by
        rintro rfl
        exact hedge rfl
      rw [List.count_cons_of_ne hedge, Pheromone.stored?_lay, if_neg hother]
      rfl

/-- Laying adds to an edge, one after the other, all amounts of all shares. -/
theorem stored?_layEach {q : α} {shares : List (Trail S α × α)} :
    (layEach q ph shares).stored? e =
      (shares.flatMap fun share => amountsOf q e share.1 share.2).foldl (raise ph.background)
        (ph.stored? e) := by
  unfold layEach
  induction shares generalizing ph with
  | nil => rfl
  | cons share shares ih =>
    rw [List.foldl_cons, ih, background_layEdges, List.flatMap_cons, List.foldl_append,
      stored?_layEdges]
    rfl

/-- What evaporation and laying leave of the level of an edge. -/
theorem stored?_layEach_evaporate (s : Settings α) (ph : Pheromone S α)
    (shares : List (Trail S α × α)) (e : Edge S) :
    (layEach s.q (ph.evaporate s.rho) shares).stored? e =
      if (shares.flatMap fun share => amountsOf s.q e share.1 share.2) = [] then
        (ph.stored? e).map (· * (ofNat 1 - s.rho))
      else
        some ((shares.flatMap fun share => amountsOf s.q e share.1 share.2).foldl (· + ·)
          (base s ph e)) := by
  have hbase : ((ph.stored? e).map (· * (ofNat 1 - s.rho))).getD ph.background = base s ph e := by
    unfold base
    cases ph.stored? e with
    | none => rfl
    | some level => rfl
  rw [stored?_layEach, foldl_raise, Pheromone.stored?_evaporate, ← hbase]
  rfl

/-- **Levels add up.** Without a band an update succeeds and leaves the backgrounds alone. An edge
is stored then if it was before or something is laid on it, and its level is the stored one without
what has evaporated, or else the background, with all amounts added in order. Trails of fewer than
two states lay nothing. -/
theorem levels_add_up (s : Settings α) (ph : Pheromone S α) (trails : List (Trail S α))
    (best : Trail S α) :
    (∃ laid, update s ph trails best none = .ok laid ∧
      laid.background = ph.background ∧ laid.initial = ph.initial ∧
      ∀ e, (laid.Stores e ↔ ph.Stores e ∨ amounts s trails best e ≠ []) ∧
        ∀ level, laid.stored? e = some level →
          level = (amounts s trails best e).foldl (· + ·) (base s ph e)) ∧
    ∀ (trail : Trail S α) (weight : α) (e : Edge S), trail.path.length < 2 →
      amountsOf s.q e trail weight = [] := by
  have hupdate := update_none s ph trails best
  refine ⟨⟨_, hupdate, background_update hupdate, initial_update hupdate, ?_⟩,
    fun _ _ _ => amountsOf_of_short⟩
  intro e
  have hlaid := stored?_layEach_evaporate s ph (shares s trails best) e
  rw [← amounts_eq] at hlaid
  by_cases hnone : amounts s trails best e = []
  · rw [if_pos hnone] at hlaid
    unfold Pheromone.Stores
    rw [hlaid, hnone]
    refine ⟨by simp, ?_⟩
    intro level hlevel
    obtain ⟨stored, hstored, rfl⟩ := Option.map_eq_some_iff.mp hlevel
    simp [base, hstored]
  · rw [if_neg hnone] at hlaid
    unfold Pheromone.Stores
    rw [hlaid]
    exact ⟨by simp [hnone], fun level hlevel => (Option.some.inj hlevel).symm⟩

/-- Two trails share an edge, and one of them takes another edge twice. -/
theorem levels_add_up_on_shared_edges :
    let s : Settings Float := { Settings.preset .elitist with rho := 0.5, q := 1, elitist := 2 }
    let ph : Pheromone Nat Float := (Pheromone.uniform 0.5).lay 0 1 0.5
    let best : Trail Nat Float := ⟨[1, 0], 1⟩
    let trails : List (Trail Nat Float) := [⟨[0, 1, 0, 1], 2⟩, best, ⟨[2], 1⟩]
    amounts s trails best ⟨0, 1⟩ = [0.5, 0.5] ∧ amounts s trails best ⟨1, 0⟩ = [3, 0.5, 1] ∧
      ∃ laid, update s ph trails best none = .ok laid ∧ laid.background = 0.5 ∧
        laid.stored? ⟨0, 1⟩ = some 1.5 ∧ laid.stored? ⟨1, 0⟩ = some 5 ∧
        laid.stored? ⟨2, 0⟩ = none := by
  intro s ph best trails
  obtain ⟨⟨laid, hupdate, hbackground, -, hlevels⟩, -⟩ := levels_add_up s ph trails best
  have hstored (e : Edge Nat) (sum : Float) (hsome : amounts s trails best e ≠ [])
      (hsum : (amounts s trails best e).foldl (· + ·) (base s ph e) = sum) :
      laid.stored? e = some sum := by
    obtain ⟨hstores, hvalue⟩ := hlevels e
    obtain ⟨level, hlevel⟩ := Option.isSome_iff_exists.mp (hstores.mpr (.inr hsome))
    rw [hlevel, hvalue level hlevel, hsum]
  refine ⟨by decide +kernel, by decide +kernel, laid, hupdate, hbackground, ?_, ?_, ?_⟩
  · exact hstored ⟨0, 1⟩ _ (by decide +kernel) (by decide +kernel)
  · exact hstored ⟨1, 0⟩ _ (by decide +kernel) (by decide +kernel)
  · have hnone : ¬laid.Stores ⟨2, 0⟩ := by
      rw [(hlevels ⟨2, 0⟩).1]
      unfold Pheromone.Stores
      decide +kernel
    exact Option.not_isSome_iff_eq_none.mp hnone

end Stigmergy.Deposit
