import Stigmergy.Binary64.Arithmetic
import Stigmergy.Proofs.Binary64.Laws
import Stigmergy.Proofs.Deposit.Depositors
import Stigmergy.Proofs.Deposit.Leader

/-!
# What ranks decide

* `head?_ranked`: the leader ranks first.
* `rank_of_getElem?_ranked`: the rank of a trail is its place among the ranked ones.
* `mem_rankShares_iff`: a trail has a share if fewer trails than the elitist count come before it,
  and its weight is what they leave of that count.
-/

namespace Stigmergy.Deposit

open Scalar
open Pheromone (Band)

variable {S α : Type} [Scalar α] {trails : List (Trail S α)}

/-- Deposits by rank are those of the shares by rank. -/
theorem layAll_rankBased [Ord S] [Std.TransOrd S] {s : Settings α}
    (hvariant : s.variant = .rankBased) (ph : Pheromone S α) (best : Trail S α)
    (band : Option (Band α)) :
    layAll s ph trails best band =
      (rankShares s.elitist trails).foldlM
        (fun ph share => layTrail s.q band ph (share.1.1, ofNat share.2)) ph := by
  unfold layAll shares
  rw [hvariant]
  exact List.foldlM_map

variable [Rounded α]

/-- **The leader ranks first.** -/
theorem head?_ranked (hnumber : ∀ t ∈ trails, isNaN t.cost = false) :
    (ranked trails).head? = leader? trails := by
  cases hleader : leader? trails with
  | none =>
    obtain rfl := leader?_eq_none hleader
    simp [ranked]
  | some leader =>
    obtain ⟨hleast, hfirst⟩ := leader?_least hnumber hleader
    have hmem : leader ∈ ranked trails := mem_ranked_iff.mpr (leader?_mem hleader)
    have hsorted := pairwise_ranked hnumber
    cases hranked : ranked trails with
    | nil =>
      rw [hranked] at hmem
      cases hmem
    | cons first rest =>
      have htrail : trails[first.2]? = some first.1 :=
        mem_ranked_iff.mp (hranked ▸ List.mem_cons_self)
      rw [hranked] at hmem hsorted
      cases List.mem_cons.mp hmem with
      | inl heq => rw [heq, List.head?_cons]
      | inr hrest =>
        -- Nothing comes before the leader, in cost or in index.
        cases (List.pairwise_cons.mp hsorted).1 leader hrest with
        | inl hlt =>
          have hle := hleast first.1 (List.mem_of_getElem? htrail)
          exact absurd hle (Rounded.not_ge_of_lt hlt)
        | inr hahead =>
          have hlt := hfirst first.2 first.1 hahead.2 htrail
          exact absurd hlt hahead.1

/-- As many trails come before one as stand before it in the ranking. -/
theorem rank_of_getElem?_ranked (hnumber : ∀ t ∈ trails, isNaN t.cost = false) {r : Nat}
    {entry : Trail S α × Nat} (h : (ranked trails)[r]? = some entry) : rank trails entry = r := by
  unfold rank
  rw [← (perm_ranked trails).countP_eq]
  exact countP_of_pairwise (fun _ _ => Ahead.asymm) (pairwise_ranked hnumber) h

/-- **Who shares by rank, and how much.** -/
theorem mem_rankShares_iff (hnumber : ∀ t ∈ trails, isNaN t.cost = false) {elitist weight : Nat}
    {entry : Trail S α × Nat} :
    (entry, weight) ∈ rankShares elitist trails ↔
      trails[entry.2]? = some entry.1 ∧ rank trails entry < elitist ∧
        0 < weight ∧ weight + rank trails entry = elitist := by
  rw [mem_rankShares]
  constructor
  · intro ⟨r, hr, hlt, hweight⟩
    rw [rank_of_getElem?_ranked hnumber hr]
    exact ⟨mem_ranked_iff.mp (List.mem_of_getElem? hr), hlt, by omega, by omega⟩
  · intro ⟨htrail, hlt, _, hweight⟩
    obtain ⟨r, hr⟩ := List.mem_iff_getElem?.mp (mem_ranked_iff.mpr htrail)
    rw [rank_of_getElem?_ranked hnumber hr] at hlt hweight
    exact ⟨r, hr, hlt, by omega⟩

/-- **Ranks decide who lays pheromone.** Ranking puts an iteration's trails, all of them and none
twice, in the order of their costs and of their indices where costs are equal, so that its first
one is the leader. Where pheromone is laid by rank, the trails that do so are the first ranked ones
up to the elitist count; these are the trails with fewer others before them than that, and each
one's weight is what the others leave of the count, at least one. -/
theorem ranks_decide_who_lays [Ord S] [Std.TransOrd S] {s : Settings α}
    (hvariant : s.variant = .rankBased) (hnumber : ∀ t ∈ trails, isNaN t.cost = false) :
    ((ranked trails).map Prod.snd).Perm (List.range trails.length) ∧
      (∀ entry ∈ ranked trails, trails[entry.2]? = some entry.1) ∧
      (ranked trails).Pairwise Ahead ∧
      (ranked trails).head? = leader? trails ∧
      (∀ (ph : Pheromone S α) (best : Trail S α) (band : Option (Band α)),
        layAll s ph trails best band =
          (rankShares s.elitist trails).foldlM
            (fun ph share => layTrail s.q band ph (share.1.1, ofNat share.2)) ph) ∧
      (rankShares s.elitist trails).map Prod.fst =
        (ranked trails).take (min s.elitist trails.length) ∧
      (∀ entry weight, (entry, weight) ∈ rankShares s.elitist trails ↔
        trails[entry.2]? = some entry.1 ∧ rank trails entry < s.elitist ∧
          0 < weight ∧ weight + rank trails entry = s.elitist) ∧
      depositors s trails = (rankShares s.elitist trails).length ∧
      depositors s trails = min s.elitist trails.length := by
  have hcount : depositors s trails = min s.elitist trails.length := by
    unfold depositors
    rw [hvariant]
  have hlength : (rankShares s.elitist trails).length = min s.elitist trails.length := by
    rw [← List.length_map Prod.fst, map_fst_rankShares, List.length_take, length_ranked]
    omega
  exact ⟨perm_indices_ranked trails, fun _ => mem_ranked_iff.mp, pairwise_ranked hnumber,
    head?_ranked hnumber, layAll_rankBased hvariant, map_fst_rankShares _ _,
    fun _ _ => mem_rankShares_iff hnumber, by rw [hcount, hlength], hcount⟩

/-- Of four trails, three share by rank; the second of two that cost the same is the second one. -/
theorem ranks_decide_on_equal_costs :
    let s : Settings Float := { Settings.preset .rankBased with elitist := 3 }
    let trails : List (Trail Nat Float) := [⟨[0, 1], 3⟩, ⟨[0, 2], 1⟩, ⟨[1, 2], 2⟩, ⟨[2, 1], 1⟩]
    s.variant = .rankBased ∧ (∀ t ∈ trails, isNaN t.cost = false) ∧
      (ranked trails).head? = some (⟨[0, 2], 1⟩, 1) ∧
      ((⟨[0, 2], 1⟩, 1), 3) ∈ rankShares s.elitist trails ∧
      ((⟨[2, 1], 1⟩, 3), 2) ∈ rankShares s.elitist trails ∧
      (∀ weight, ((⟨[0, 1], 3⟩, 0), weight) ∉ rankShares s.elitist trails) ∧
      depositors s trails = 3 := by
  intro s trails
  have hnumber : ∀ t ∈ trails, isNaN t.cost = false := by decide +kernel
  have hvariant : s.variant = .rankBased := rfl
  obtain ⟨-, -, -, hhead, -, -, hshares, -, hcount⟩ := ranks_decide_who_lays hvariant hnumber
  have hlast : rank trails (⟨[0, 1], 3⟩, 0) = 3 := by decide +kernel
  refine ⟨hvariant, hnumber, ?_, ?_, ?_, ?_, hcount⟩
  · rw [hhead]
    decide +kernel
  · exact (hshares _ _).mpr (by decide +kernel)
  · exact (hshares _ _).mpr (by decide +kernel)
  · intro weight hmem
    obtain ⟨-, hlt, -⟩ := (hshares _ _).mp hmem
    rw [hlast] at hlt
    exact Nat.lt_irrefl 3 hlt

end Stigmergy.Deposit
