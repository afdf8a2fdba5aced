import Stigmergy.Deposit.Ranking
import Stigmergy.Proofs.Scalar.Rounded

/-!
# The leader of an iteration

* `leader?_mem`: the leader is one of the trails, at its index.
* `leader?_least`: it is dearer than none, and cheaper than all before it.
-/

namespace Stigmergy.Deposit

open Scalar

variable {S α : Type} [Scalar α]

theorem foldl_cheaper_mem (first : Trail S α × Nat) (others : List (Trail S α × Nat)) :
    others.foldl cheaper first ∈ first :: others := by
  induction others generalizing first with
  | nil => exact List.mem_cons_self
  | cons next others ih =>
    rw [List.foldl_cons]
    have hmem := ih (cheaper first next)
    rcases List.mem_cons.mp hmem with heq | hothers
    · rw [heq]
      unfold cheaper
      split
      · exact List.mem_cons_of_mem _ List.mem_cons_self
      · exact List.mem_cons_self
    · exact List.mem_cons_of_mem _ (List.mem_cons_of_mem _ hothers)

theorem leader?_mem {trails : List (Trail S α)} {leader : Trail S α × Nat}
    (h : leader? trails = some leader) : trails[leader.2]? = some leader.1 := by
  unfold leader? at h
  split at h
  · cases h
  · next first others htrails =>
    cases h
    have hmem := foldl_cheaper_mem first others
    rw [← htrails] at hmem
    exact List.mk_mem_zipIdx_iff_getElem?.mp hmem

theorem leader?_eq_none {trails : List (Trail S α)} (h : leader? trails = none) : trails = [] := by
  unfold leader? at h
  split at h
  · next htrails => simpa using htrails
  · cases h

variable [Rounded α]

/-- Where the first trail is beaten, it stands before the result of the scan from the next one. -/
theorem split_of_beaten {first next found : Trail S α × Nat}
    {others before after : List (Trail S α × Nat)} (hlt : next.1.cost < first.1.cost)
    (hsplit : next :: others = before ++ found :: after)
    (hbefore : ∀ x ∈ before, found.1.cost < x.1.cost) : found.1.cost < first.1.cost := by
  rcases before with _ | ⟨b, before⟩
  · obtain ⟨hnext, -⟩ := List.cons.inj hsplit
    rw [← hnext]
    exact hlt
  · obtain ⟨rfl, -⟩ := List.cons.inj hsplit
    exact Rounded.lt_of_lt_of_le (hbefore _ List.mem_cons_self) (Rounded.le_of_lt hlt)

/-- The result of the scan, where the list falls apart at it. -/
theorem foldl_cheaper_split {first : Trail S α × Nat} {others : List (Trail S α × Nat)}
    (hnumber : ∀ x ∈ first :: others, isNaN x.1.cost = false) :
    ∃ before after, first :: others = before ++ others.foldl cheaper first :: after ∧
      (∀ x ∈ before, (others.foldl cheaper first).1.cost < x.1.cost) ∧
      ∀ x ∈ after, (others.foldl cheaper first).1.cost ≤ x.1.cost := by
  induction others generalizing first with
  | nil => exact ⟨[], [], rfl, by simp, by simp⟩
  | cons next others ih =>
    rw [List.foldl_cons]
    have hfirst := hnumber first List.mem_cons_self
    have hnext := hnumber next (List.mem_cons_of_mem _ List.mem_cons_self)
    have hothers : ∀ x ∈ others, isNaN x.1.cost = false := fun x hx =>
      hnumber x (List.mem_cons_of_mem _ (List.mem_cons_of_mem _ hx))
    by_cases hlt : next.1.cost < first.1.cost
    · -- The first trail is beaten, and the scan goes on from the next one.
      have hcheaper : cheaper first next = next := if_pos hlt
      rw [hcheaper]
      have hrest : ∀ x ∈ next :: others, isNaN x.1.cost = false :=
        List.forall_mem_cons.mpr ⟨hnext, hothers⟩
      obtain ⟨before, after, hsplit, hbefore, hafter⟩ := ih hrest
      refine ⟨first :: before, after, by rw [hsplit]; rfl, ?_, hafter⟩
      exact List.forall_mem_cons.mpr ⟨split_of_beaten hlt hsplit hbefore, hbefore⟩
    · have hcheaper : cheaper first next = first := if_neg hlt
      have hle := Rounded.le_of_not_gt hfirst hnext hlt
      rw [hcheaper]
      have hrest : ∀ x ∈ first :: others, isNaN x.1.cost = false :=
        List.forall_mem_cons.mpr ⟨hfirst, hothers⟩
      obtain ⟨before, after, hsplit, hbefore, hafter⟩ := ih hrest
      rcases before with _ | ⟨b, before⟩
      · obtain ⟨hfirst, hothers⟩ := List.cons.inj hsplit
        refine ⟨[], next :: after, by rw [← hothers, ← hfirst]; rfl, by simp, ?_⟩
        refine List.forall_mem_cons.mpr ⟨?_, hafter⟩
        rw [← hfirst]
        exact hle
      · obtain ⟨rfl, hothers⟩ := List.cons.inj hsplit
        have hsplit : first :: next :: others =
            (first :: next :: before) ++ others.foldl cheaper first :: after :=
          congrArg (fun rest => first :: next :: rest) hothers
        refine ⟨first :: next :: before, after, hsplit, ?_, hafter⟩
        have hfirst := hbefore first List.mem_cons_self
        refine List.forall_mem_cons.mpr ⟨hfirst, List.forall_mem_cons.mpr ⟨?_, ?_⟩⟩
        · exact Rounded.lt_of_lt_of_le hfirst hle
        · exact fun x hx => hbefore x (List.mem_cons_of_mem _ hx)

omit [Scalar α] [Rounded α] in
/-- An index in a list of trails is the place it stands at. -/
theorem index_of_split {trails : List (Trail S α)} {before after : List (Trail S α × Nat)}
    {found : Trail S α × Nat} (hsplit : trails.zipIdx = before ++ found :: after) :
    found.2 = before.length := by
  have hget : trails.zipIdx[before.length]? = some found := by
    rw [hsplit]
    simp
  rw [List.getElem?_zipIdx] at hget
  obtain ⟨_, -, heq⟩ := Option.map_eq_some_iff.mp hget
  rw [← heq]
  simp

/-- **The leader is the first of the cheapest trails.** -/
theorem leader?_least {trails : List (Trail S α)} {leader : Trail S α × Nat}
    (hnumber : ∀ t ∈ trails, isNaN t.cost = false) (h : leader? trails = some leader) :
    (∀ t ∈ trails, leader.1.cost ≤ t.cost) ∧
      ∀ i t, i < leader.2 → trails[i]? = some t → leader.1.cost < t.cost := by
  unfold leader? at h
  split at h
  · cases h
  · next first others htrails =>
    cases h
    have hnumbers : ∀ x ∈ first :: others, isNaN x.1.cost = false := by
      rw [← htrails]
      rintro ⟨t, i⟩ hx
      exact hnumber t (List.mem_of_getElem? (List.mk_mem_zipIdx_iff_getElem?.mp hx))
    obtain ⟨before, after, hsplit, hbefore, hafter⟩ := foldl_cheaper_split hnumbers
    generalize others.foldl cheaper first = found at hsplit hbefore hafter ⊢
    rw [← htrails] at hsplit
    constructor
    · intro t ht
      obtain ⟨i, hi⟩ := List.mem_iff_getElem?.mp ht
      have hmem : (t, i) ∈ trails.zipIdx := List.mk_mem_zipIdx_iff_getElem?.mpr hi
      rw [hsplit] at hmem
      rcases List.mem_append.mp hmem with hx | hx
      · exact Rounded.le_of_lt (hbefore _ hx)
      · rcases List.mem_cons.mp hx with heq | hx
        · rw [← heq]
          exact Rounded.le_refl (hnumber t ht)
        · exact hafter _ hx
    · intro i t hi ht
      have hindex := index_of_split hsplit
      have hget : trails.zipIdx[i]? = some (t, i) := by
        rw [List.getElem?_zipIdx, ht]
        simp
      rw [hsplit, List.getElem?_append_left (by omega)] at hget
      exact hbefore _ (List.mem_of_getElem? hget)

end Stigmergy.Deposit
