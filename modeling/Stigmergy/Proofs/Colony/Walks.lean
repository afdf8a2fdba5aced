import Mathlib.Data.List.Forall2
import Stigmergy.Colony.Plan
import Stigmergy.Proofs.Walk.Steps

/-!
# The walks of an iteration

* `Problem.walkAll_ok_iff`: the trails of an iteration are those of its plans, one by one.
* `Problem.walkScheduled_ok`: walks finished in any order give the trails of walks one after the
  other.
* `Problem.walkAll_error`, `Problem.walkScheduled_error`: an iteration without trails has a plan
  without one.
-/

namespace Stigmergy

section Except

variable {ε A B : Type} {f : A → Except ε B}

/-- A result that passes a test is there. -/
theorem exists_ok_of_any {result : Except ε A} {test : A → Bool}
    (h : result.toOption.any test = true) : ∃ x, result = .ok x ∧ test x = true := by
  cases result with
  | error e => cases h
  | ok x => exact ⟨x, rfl, h⟩

theorem mapM_cons_ok_iff {x : A} {xs : List A} {ys : List B} :
    (x :: xs).mapM f = .ok ys ↔ ∃ y rest, f x = .ok y ∧ xs.mapM f = .ok rest ∧ ys = y :: rest := by
  rw [List.mapM_cons]
  cases f x with
  | error e =>
    constructor
    · intro h
      cases h
    · rintro ⟨_, _, h, -⟩
      cases h
  | ok y =>
    cases xs.mapM f with
    | error e =>
      constructor
      · intro h
        cases h
      · rintro ⟨_, _, -, h, -⟩
        cases h
    | ok rest =>
      constructor
      · intro h
        cases h
        exact ⟨y, rest, rfl, rfl, rfl⟩
      · rintro ⟨_, _, h, h', rfl⟩
        cases h
        cases h'
        rfl

theorem mapM_ok_iff {xs : List A} {ys : List B} :
    xs.mapM f = .ok ys ↔ List.Forall₂ (fun x y => f x = .ok y) xs ys := by
  induction xs generalizing ys with
  | nil =>
    rw [List.forall₂_nil_left_iff]
    constructor
    · intro h
      cases h
      rfl
    · rintro rfl
      rfl
  | cons x xs ih =>
    rw [mapM_cons_ok_iff, List.forall₂_cons_left_iff]
    simp only [ih]

theorem mem_of_mapM_ok {xs : List A} {ys : List B} (h : xs.mapM f = .ok ys) {y : B} (hy : y ∈ ys) :
    ∃ x ∈ xs, f x = .ok y := by
  rw [mapM_ok_iff] at h
  induction h with
  | nil => cases hy
  | cons hx _ ih =>
    rcases List.mem_cons.mp hy with rfl | hrest
    · exact ⟨_, List.mem_cons_self, hx⟩
    · obtain ⟨x, hmem, hx⟩ := ih hrest
      exact ⟨x, List.mem_cons_of_mem _ hmem, hx⟩

theorem of_mem_of_mapM_ok {xs : List A} {ys : List B} (h : xs.mapM f = .ok ys) {x : A}
    (hx : x ∈ xs) : ∃ y ∈ ys, f x = .ok y := by
  rw [mapM_ok_iff] at h
  induction h with
  | nil => cases hx
  | cons hy _ ih =>
    cases List.mem_cons.mp hx with
    | inl heq =>
      subst heq
      exact ⟨_, List.mem_cons_self, hy⟩
    | inr hrest =>
      obtain ⟨y, hmem, hy⟩ := ih hrest
      exact ⟨y, List.mem_cons_of_mem _ hmem, hy⟩

theorem mapM_error {xs : List A} {e : ε} (h : xs.mapM f = .error e) : ∃ x ∈ xs, f x = .error e := by
  induction xs with
  | nil => cases h
  | cons x xs ih =>
    rw [List.mapM_cons] at h
    cases hx : f x with
    | error e' =>
      rw [hx] at h
      cases h
      exact ⟨x, List.mem_cons_self, hx⟩
    | ok y =>
      rw [hx] at h
      cases hxs : xs.mapM f with
      | error e' =>
        rw [hxs] at h
        cases h
        obtain ⟨x', hmem, hx'⟩ := ih hxs
        exact ⟨x', List.mem_cons_of_mem _ hmem, hx'⟩
      | ok ys =>
        rw [hxs] at h
        cases h

end Except

namespace Problem

variable {S α : Type} [Ord S] [Std.TransOrd S] [Scalar α] {p : Problem S α} {guide : Guide S α}
  {plans : List Plan} {trails : List (Trail S α)} {halt : Halt (Violation S α)}

theorem walkAll_ok_iff :
    p.walkAll guide plans = .ok trails ↔
      List.Forall₂ (fun plan trail => p.walkPlan guide plan = .ok trail) plans trails :=
  mapM_ok_iff

theorem walkAll_error (h : p.walkAll guide plans = .error halt) :
    ∃ plan ∈ plans, p.walkPlan guide plan = .error halt := mapM_error h

def walkEntry (p : Problem S α) (guide : Guide S α) (table : Array Plan) (i : Nat) :
    Except (Halt (Violation S α)) (Nat × Trail S α) :=
  match table[i]? with
  | some plan => (p.walkPlan guide plan).map fun trail => (i, trail)
  | none => .error (.fault .unknownState)

theorem walkScheduled_eq (order : List Nat) :
    p.walkScheduled guide plans order = (order.mapM (p.walkEntry guide plans.toArray)).map
      fun finished => (finished.mergeSort fun a b => a.1 ≤ b.1).map Prod.snd := by
  unfold walkScheduled
  change (order.mapM (p.walkEntry guide plans.toArray) >>= _) = _
  cases order.mapM (p.walkEntry guide plans.toArray) <;> rfl

theorem walkEntry_ok {i : Nat} {entry : Nat × Trail S α}
    (h : p.walkEntry guide plans.toArray i = .ok entry) :
    entry.1 = i ∧ ∃ plan, plans[i]? = some plan ∧ p.walkPlan guide plan = .ok entry.2 := by
  unfold walkEntry at h
  rw [List.getElem?_toArray] at h
  split at h
  · next plan hplan =>
    cases hwalk : p.walkPlan guide plan with
    | error e =>
      rw [hwalk] at h
      cases h
    | ok trail =>
      rw [hwalk] at h
      cases h
      exact ⟨rfl, plan, hplan, hwalk⟩
  · cases h

theorem indices_of_mapM {order : List Nat} {finished : List (Nat × Trail S α)}
    (h : order.mapM (p.walkEntry guide plans.toArray) = .ok finished) :
    finished.map Prod.fst = order := by
  rw [mapM_ok_iff] at h
  induction h with
  | nil => rfl
  | cons hentry _ ih => rw [List.map_cons, ih, (walkEntry_ok hentry).1]

omit [Ord S] [Std.TransOrd S] [Scalar α] in
/-- Sorted by their indices, entries stand in the order of all indices. -/
theorem indices_of_sorted {n : Nat} {finished : List (Nat × Trail S α)}
    (h : (finished.map Prod.fst).Perm (List.range n)) :
    (finished.mergeSort fun a b => a.1 ≤ b.1).map Prod.fst = List.range n := by
  have hperm := (List.mergeSort_perm finished fun a b => decide (a.1 ≤ b.1)).map Prod.fst
  refine List.Perm.eq_of_pairwise (fun (a b : Nat) _ _ => @Nat.le_antisymm a b) ?_
    List.pairwise_le_range (hperm.trans h)
  rw [List.pairwise_map]
  refine (List.pairwise_mergeSort (fun a b c hab hbc => ?_) (fun a b => ?_) finished).imp ?_
  · simp only [decide_eq_true_eq] at hab hbc ⊢
    omega
  · simp only [Bool.or_eq_true, decide_eq_true_eq]
    omega
  · simp

/-- **Schedules do not matter.** Walks finished in any order give the trails in the order of their
plans. -/
theorem walkScheduled_ok {order : List Nat} (horder : order.Perm (List.range plans.length))
    (h : p.walkScheduled guide plans order = .ok trails) : p.walkAll guide plans = .ok trails := by
  rw [walkScheduled_eq] at h
  cases hfinished : order.mapM (p.walkEntry guide plans.toArray) with
  | error e =>
    rw [hfinished] at h
    cases h
  | ok finished =>
    rw [hfinished] at h
    cases h
    have hindices := indices_of_sorted (by rw [indices_of_mapM hfinished]; exact horder)
    set sorted := finished.mergeSort fun a b => a.1 ≤ b.1
    have hwalks : ∀ entry ∈ sorted, ∃ plan, plans[entry.1]? = some plan ∧
        p.walkPlan guide plan = .ok entry.2 := by
      intro entry hentry
      obtain ⟨i, -, hi⟩ := mem_of_mapM_ok hfinished (List.mem_mergeSort.mp hentry)
      obtain ⟨rfl, hplan⟩ := walkEntry_ok hi
      exact hplan
    have hlength : sorted.length = plans.length := by
      rw [← List.length_map Prod.fst, hindices, List.length_range]
    rw [walkAll_ok_iff, List.forall₂_iff_get]
    refine ⟨by rw [List.length_map, hlength], ?_⟩
    intro k hk hk'
    have hk'' : k < sorted.length := by omega
    obtain ⟨plan, hplan, hwalk⟩ := hwalks sorted[k] (List.getElem_mem hk'')
    have hindex : sorted[k].1 = k := by
      have := congrArg (fun l => l[k]?) hindices
      simpa [hk'', hk] using this
    rw [hindex, List.getElem?_eq_getElem hk] at hplan
    cases hplan
    simpa using hwalk

theorem walkScheduled_error {order : List Nat} (horder : order.Perm (List.range plans.length))
    (h : p.walkScheduled guide plans order = .error halt) :
    ∃ plan ∈ plans, p.walkPlan guide plan = .error halt := by
  rw [walkScheduled_eq] at h
  cases hfinished : order.mapM (p.walkEntry guide plans.toArray) with
  | ok finished =>
    rw [hfinished] at h
    cases h
  | error e =>
    rw [hfinished] at h
    cases h
    obtain ⟨i, hi, hentry⟩ := mapM_error hfinished
    have hlt : i < plans.length := List.mem_range.mp (horder.subset hi)
    unfold walkEntry at hentry
    rw [List.getElem?_toArray, List.getElem?_eq_getElem hlt] at hentry
    refine ⟨plans[i], List.getElem_mem hlt, ?_⟩
    dsimp only at hentry
    cases hwalk : p.walkPlan guide plans[i] with
    | error e =>
      rw [hwalk] at hentry
      cases hentry
      rfl
    | ok trail =>
      rw [hwalk] at hentry
      cases hentry

end Problem

end Stigmergy
