import Stigmergy.Proofs.Deposit.Edges

/-!
# Who lays pheromone

* `Ahead`, `rank`: the order of an iteration's trails by cost and then by ant, and how many come
  before one of them.
* `pairwise_ranked`, `mem_take_ranked_iff`: ranked trails stand in that order, so the first of them
  are those of the lowest ranks.
* `Lays`: the trails that a variant lets lay pheromone.
* `exists_share_iff`, `stores_update_iff`: an update stores the edges of these, as long as the best
  trail's bonus falls on edges that are stored anyway.
-/

namespace Stigmergy.Deposit

open Scalar
open Pheromone (Band Edge)

variable {S α : Type} [Scalar α] {trails : List (Trail S α)}

/-! ## Ranks -/

/-- The first of two trails with their indices comes before the second one: it is cheaper, or not
dearer and of a lower index. -/
def Ahead (a b : Trail S α × Nat) : Prop :=
  a.1.cost < b.1.cost ∨ ¬b.1.cost < a.1.cost ∧ a.2 < b.2

instance : DecidableRel (Ahead : Trail S α × Nat → Trail S α × Nat → Prop) := fun a b =>
  inferInstanceAs (Decidable (a.1.cost < b.1.cost ∨ ¬b.1.cost < a.1.cost ∧ a.2 < b.2))

/-- The number of trails that come before the one with the given index. -/
def rank (trails : List (Trail S α)) (entry : Trail S α × Nat) : Nat :=
  trails.zipIdx.countP (Ahead · entry)

theorem Ahead.asymm [Rounded α] {a b : Trail S α × Nat} (h : Ahead a b) : ¬Ahead b a := by
  intro hback
  cases h with
  | inl hlt =>
    cases hback with
    | inl hlt' => exact Rounded.not_ge_of_lt hlt (Rounded.le_of_lt hlt')
    | inr hnot => exact hnot.1 hlt
  | inr hnot =>
    cases hback with
    | inl hlt => exact hnot.1 hlt
    | inr hnot' => exact Nat.lt_asymm hnot.2 hnot'.2

/-- Not above in cost; a cost that is no number is above all others. -/
def atMost (t u : Trail S α) : Bool := isNaN u.cost || t.cost ≤ u.cost

theorem atMost_trans [Rounded α] (t u v : Trail S α) (htu : atMost t u) (huv : atMost u v) :
    atMost t v := by
  simp only [atMost, Bool.or_eq_true, decide_eq_true_eq] at *
  cases huv with
  | inl hnan => exact .inl hnan
  | inr hle =>
    have hnumber := (Rounded.number_of_le hle).1
    rw [hnumber] at htu
    exact .inr (Rounded.le_trans (htu.resolve_left Bool.false_ne_true) hle)

theorem atMost_total [Rounded α] (t u : Trail S α) : atMost t u || atMost u t := by
  simp only [atMost, Bool.or_eq_true, decide_eq_true_eq]
  cases ht : isNaN t.cost with
  | true => exact .inr (.inl rfl)
  | false =>
    cases hu : isNaN u.cost with
    | true => exact .inl (.inl rfl)
    | false => exact (Rounded.le_total ht hu).imp .inr .inr

theorem atMost_of_number [Rounded α] {t u : Trail S α} (ht : isNaN t.cost = false)
    (hu : isNaN u.cost = false) : atMost t u = decide ¬u.cost < t.cost := by
  unfold atMost
  rw [hu, Bool.false_or, decide_eq_decide]
  exact ⟨Rounded.not_lt_of_ge, Rounded.le_of_not_gt ht hu⟩

/-- Sorting keeps the order of trails of equal cost, so it sorts by index as well. -/
theorem ranked_eq [Rounded α] (hnumber : ∀ t ∈ trails, isNaN t.cost = false) :
    ranked trails = trails.zipIdx.mergeSort (List.zipIdxLE atMost) := by
  let le (a b : Trail S α × Nat) : Bool := ¬b.1.cost < a.1.cost
  have hmem : ∀ a ∈ trails.zipIdx.zipIdx, isNaN a.1.1.cost = false ∧ a.1.2 = a.2 := by
    intro a ha
    have hindexed := List.mem_zipIdx_iff_getElem?.mp ha
    rw [List.getElem?_zipIdx, Option.map_eq_some_iff] at hindexed
    obtain ⟨t, ht, heq⟩ := hindexed
    rw [← heq]
    exact ⟨hnumber t (List.mem_of_getElem? ht), Nat.zero_add _⟩
  have hsame : ∀ a ∈ trails.zipIdx.zipIdx, ∀ b ∈ trails.zipIdx.zipIdx,
      List.zipIdxLE le a b = List.zipIdxLE atMost a.1 b.1 := by
    intro a ha b hb
    obtain ⟨hacost, haindex⟩ := hmem a ha
    obtain ⟨hbcost, hbindex⟩ := hmem b hb
    unfold List.zipIdxLE
    rw [atMost_of_number hacost hbcost, atMost_of_number hbcost hacost, haindex, hbindex]
  calc ranked trails
      = (trails.zipIdx.zipIdx.mergeSort (List.zipIdxLE le)).map Prod.fst :=
        List.mergeSort_zipIdx.symm
    _ = (trails.zipIdx.zipIdx.map Prod.fst).mergeSort (List.zipIdxLE atMost) :=
        List.map_mergeSort hsame
    _ = trails.zipIdx.mergeSort (List.zipIdxLE atMost) := by rw [List.zipIdx_map_fst]

/-- Ranking loses no trail and repeats none. -/
theorem perm_indices_ranked (trails : List (Trail S α)) :
    ((ranked trails).map Prod.snd).Perm (List.range trails.length) := by
  have hperm := (perm_ranked trails).map Prod.snd
  rwa [List.zipIdx_map_snd, ← List.range_eq_range'] at hperm

/-- **Ranked trails stand in the order of their costs**, and of their indices where costs are
equal. -/
theorem pairwise_ranked [Rounded α] (hnumber : ∀ t ∈ trails, isNaN t.cost = false) :
    (ranked trails).Pairwise Ahead := by
  have hsorted : (ranked trails).Pairwise fun a b => List.zipIdxLE atMost a b := by
    rw [ranked_eq hnumber]
    exact List.pairwise_mergeSort (List.zipIdxLE_trans atMost_trans)
      (List.zipIdxLE_total atMost_total) _
  have hindices : (ranked trails).Pairwise fun a b => a.2 ≠ b.2 := by
    have hnodup : ((ranked trails).map Prod.snd).Nodup :=
      (perm_indices_ranked trails).nodup_iff.mpr List.nodup_range
    exact List.pairwise_map.mp hnodup
  have hcost : ∀ a ∈ ranked trails, isNaN a.1.cost = false := by
    intro a ha
    exact hnumber _ (List.mem_of_getElem? (mem_ranked_iff.mp ha))
  refine (hsorted.and hindices).imp_of_mem ?_
  intro a b ha hb hab
  obtain ⟨hle, hne⟩ := hab
  simp only [List.zipIdxLE, atMost_of_number (hcost a ha) (hcost b hb),
    atMost_of_number (hcost b hb) (hcost a ha)] at hle
  by_cases hlt : a.1.cost < b.1.cost
  · exact .inl hlt
  · simp only [hlt, not_false_eq_true, decide_true, if_true, decide_eq_true_eq,
      Bool.if_false_right, Bool.and_eq_true] at hle
    exact .inr ⟨hle.1, Nat.lt_of_le_of_ne hle.2 hne⟩

/-- In a list in order, as many entries come before one as stand before it. -/
theorem countP_of_pairwise {A : Type} {R : A → A → Prop} [DecidableRel R]
    (hasymm : ∀ a b, R a b → ¬R b a) {xs : List A} (h : xs.Pairwise R) {r : Nat} {x : A}
    (hr : xs[r]? = some x) : xs.countP (R · x) = r := by
  induction xs generalizing r with
  | nil => simp at hr
  | cons first xs ih =>
    obtain ⟨hfirst, hrest⟩ := List.pairwise_cons.mp h
    cases r with
    | zero =>
      obtain rfl : first = x := by simpa using hr
      rw [List.countP_eq_zero]
      intro y hy
      rw [decide_eq_true_eq]
      cases List.mem_cons.mp hy with
      | inl heq =>
        subst heq
        exact fun hself => hasymm _ _ hself hself
      | inr hmem => exact hasymm _ _ (hfirst y hmem)
    | succ r =>
      have hx : xs[r]? = some x := by simpa using hr
      rw [List.countP_cons_of_pos (by simpa using hfirst x (List.mem_of_getElem? hx)), ih hrest hx]

theorem mem_take_iff_countP_lt {A : Type} {R : A → A → Prop} [DecidableRel R]
    (hasymm : ∀ a b, R a b → ¬R b a) {xs : List A} (h : xs.Pairwise R) {m : Nat} {x : A} :
    x ∈ xs.take m ↔ x ∈ xs ∧ xs.countP (R · x) < m := by
  rw [List.mem_take_iff_getElem]
  constructor
  · intro ⟨r, hr, hx⟩
    have hget : xs[r]? = some x := List.getElem?_eq_some_iff.mpr ⟨by omega, hx⟩
    refine ⟨List.mem_of_getElem? hget, ?_⟩
    rw [countP_of_pairwise hasymm h hget]
    omega
  · intro ⟨hmem, hlt⟩
    obtain ⟨r, hr, hx⟩ := List.mem_iff_getElem.mp hmem
    have hget : xs[r]? = some x := List.getElem?_eq_some_iff.mpr ⟨hr, hx⟩
    rw [countP_of_pairwise hasymm h hget] at hlt
    exact ⟨r, by omega, hx⟩

/-- The first ranked trails are those of the lowest ranks. -/
theorem mem_take_ranked_iff [Rounded α] (hnumber : ∀ t ∈ trails, isNaN t.cost = false) {m : Nat}
    {entry : Trail S α × Nat} :
    entry ∈ (ranked trails).take m ↔
      trails[entry.2]? = some entry.1 ∧ rank trails entry < m := by
  rw [mem_take_iff_countP_lt (fun _ _ => Ahead.asymm) (pairwise_ranked hnumber), mem_ranked_iff,
    (perm_ranked trails).countP_eq]
  rfl

/-! ## Depositors -/

/-- The trails of an iteration that lay pheromone, where `best` is the best trail of the run by
then. The best trail's bonus is not counted. -/
def Lays (s : Settings α) (trails : List (Trail S α)) (best trail : Trail S α) : Prop :=
  match s.variant with
  | .antSystem | .elitist => trail ∈ trails
  | .maxMin => trail = best
  | .rankBased =>
    ∃ i, trails[i]? = some trail ∧ rank trails (trail, i) < min s.elitist trails.length

variable {s : Settings α} {best : Trail S α}

theorem map_fst_rankShares (elitist : Nat) (trails : List (Trail S α)) :
    (rankShares elitist trails).map Prod.fst =
      (ranked trails).take (min elitist trails.length) := by
  unfold rankShares
  rw [List.map_map]
  exact List.zipIdx_map_fst 0 _

/-- Shares go to the trails that lay pheromone, and as a bonus to the best one. -/
theorem mem_shares_iff [Rounded α] (hnumber : ∀ t ∈ trails, isNaN t.cost = false)
    {trail : Trail S α} :
    trail ∈ (shares s trails best).map Prod.fst ↔
      Lays s trails best trail ∨ s.variant = .elitist ∧ trail = best := by
  unfold shares Lays
  cases hvariant : s.variant with
  | antSystem => simp
  | elitist => simp [or_comm]
  | maxMin => simp
  | rankBased =>
    have hranked : (∃ entry ∈ (ranked trails).take (min s.elitist trails.length), entry.1 = trail) ↔
        ∃ i, trails[i]? = some trail ∧ rank trails (trail, i) < min s.elitist trails.length := by
      constructor
      · intro ⟨entry, hentry, htrail⟩
        subst htrail
        exact ⟨entry.2, (mem_take_ranked_iff hnumber).mp hentry⟩
      · intro ⟨i, hi⟩
        exact ⟨(trail, i), (mem_take_ranked_iff hnumber).mpr hi, rfl⟩
    simp only [List.map_map, reduceCtorEq, false_and, or_false]
    rw [← hranked, ← List.mem_map, ← map_fst_rankShares, List.map_map]
    rfl

variable [Ord S] [Std.TransOrd S] [Std.LawfulEqOrd S] {ph laid : Pheromone S α}
  {band : Option (Band α)} {e : Edge S}

/-- **An update stores the edges of the trails that lay pheromone.** The best trail's bonus stores
its edges too. -/
theorem stores_update_iff [Rounded α] (hnumber : ∀ t ∈ trails, isNaN t.cost = false)
    (h : update s ph trails best band = .ok laid) :
    laid.Stores e ↔
      (∃ trail, Lays s trails best trail ∧ (e.source, e.target) ∈ trail.edges) ∨
        s.variant = .elitist ∧ (e.source, e.target) ∈ best.edges ∨ ph.Stores e := by
  have hshares : (∃ share ∈ shares s trails best, (e.source, e.target) ∈ share.1.edges) ↔
      ∃ trail ∈ (shares s trails best).map Prod.fst, (e.source, e.target) ∈ trail.edges := by
    simp
  have hbonus : (∃ trail, (s.variant = .elitist ∧ trail = best) ∧
      (e.source, e.target) ∈ trail.edges) ↔
        s.variant = .elitist ∧ (e.source, e.target) ∈ best.edges := by
    constructor
    · rintro ⟨trail, ⟨helitist, rfl⟩, hedge⟩
      exact ⟨helitist, hedge⟩
    · intro ⟨helitist, hedge⟩
      exact ⟨best, ⟨helitist, rfl⟩, hedge⟩
  rw [stores_update h, hshares]
  simp only [mem_shares_iff hnumber, or_and_right, exists_or, hbonus, or_assoc]

end Stigmergy.Deposit
