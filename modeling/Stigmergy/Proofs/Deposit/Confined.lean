import Stigmergy.Proofs.Binary64.Sums
import Stigmergy.Proofs.Deposit.Edges

/-!
# Confining once for every trail

An update confines all levels to the band once for every trail that lays pheromone. It could as well
do so after every single edge that pheromone is laid on.

* `confined_lay_confined`: laying on confined pheromone, and confining again, is laying and
  confining.
* `updateStepwise`: the update that confines after every edge.
* `confining_once_is_enough`: both give the same pheromone.
-/

namespace Stigmergy

open Std (TransOrd ExtTreeMap)
open Pheromone (Band Edge)
open Scalar

variable {S α : Type} [Ord S] [TransOrd S] [Scalar α]

namespace Pheromone

variable {ph : Pheromone S α} {b : Band α} [Rounded α] [Std.LawfulEqOrd S]

/-- Levels in the band stay where they are. -/
theorem confined_of_mem (h : ph.All fun level => b.low ≤ level ∧ level ≤ b.high) :
    ph.confined b = ph := by
  apply ext_stored?
  · intro e
    rw [stored?_confined]
    cases hstored : ph.stored? e with
    | none => rfl
    | some level =>
      obtain ⟨hlow, hhigh⟩ := h.stored hstored
      exact congrArg some (clamp_of_mem hlow hhigh)
  · exact clamp_of_mem h.background.1 h.background.2
  · rfl

/-- **Laying on confined pheromone** and confining again is laying and confining. -/
theorem confined_lay_confined [DecidableEq S] [Isotone α] (hb : b.InOrder) {amount : α}
    (ha : ofNat 0 ≤ amount) (h : ph.All (Rising b.low b.high amount)) (source target : S) :
    ((ph.confined b).lay source target amount).confined b =
      (ph.lay source target amount).confined b := by
  have hagain {level : α} (hlevel : Rising b.low b.high amount level) :
      clamp b.low b.high (clamp b.low b.high level) = clamp b.low b.high level :=
    clamp_clamp hb.low_le_high (Rounded.number_of_le hlevel.low_le).2
  apply ext_stored?
  · intro e
    simp only [stored?_confined, stored?_lay, level_confined]
    split
    · have hsum := clamp_clamp_add hb.nonneg hb.low_le_high ha (h.level source target)
      exact congrArg some hsum
    · cases hstored : ph.stored? e with
      | none => rfl
      | some level => exact congrArg some (hagain (h.stored hstored))
  · exact hagain h.background
  · rfl

end Pheromone

namespace Deposit

/-- The pheromone after one trail has laid its own, confined after every edge. -/
def layTrailStepwise (q : α) (b : Band α) (ph : Pheromone S α) (share : Trail S α × α) :
    Except Fault (Pheromone S α) :=
  share.1.edges.foldlM (fun ph edge =>
    (ph.lay edge.1 edge.2 (share.2 * amount q share.1.cost)).confine b) ph

/-- An update that confines after evaporation and after every edge that pheromone is laid on. -/
def updateStepwise (s : Settings α) (ph : Pheromone S α) (trails : List (Trail S α))
    (best : Trail S α) (b : Band α) : Except Fault (Pheromone S α) := do
  (shares s trails best).foldlM (layTrailStepwise s.q b) (← (ph.evaporate s.rho).confine b)

variable [Rounded α] [Isotone α] [DecidableEq S] [Std.LawfulEqOrd S] {ph : Pheromone S α}
  {b : Band α} {s : Settings α} {trails : List (Trail S α)} {best : Trail S α}

/-- Confining after every edge is confining after the last one. -/
theorem foldlM_lay_confine (hb : b.InOrder) {amount : α} (ha : ofNat 0 ≤ amount)
    (h : ph.All (Rising b.low b.high amount)) (edges : List (S × S)) :
    edges.foldlM (fun ph edge => (ph.lay edge.1 edge.2 amount).confine b) (ph.confined b) =
      .ok ((layEdges ph edges amount).confined b) := by
  induction edges generalizing ph with
  | nil => rfl
  | cons edge edges ih =>
    have hnext : (ph.lay edge.1 edge.2 amount).All (Rising b.low b.high amount) :=
      h.lay fun _ hlevel => hlevel.add hb.nonneg hb.low_le_high ha
    rw [List.foldlM_cons, Pheromone.confine_eq hb.low_le_high,
      Pheromone.confined_lay_confined hb ha h]
    exact ih hnext

/-- From levels in the band, a trail lays the same pheromone either way. -/
theorem layTrailStepwise_eq (hb : b.InOrder) {q : α} {share : Trail S α × α}
    (ha : ofNat 0 ≤ share.2 * amount q share.1.cost)
    (h : ph.All fun level => b.low ≤ level ∧ level ≤ b.high) :
    layTrailStepwise q b ph share = layTrail q (some b) ph share := by
  have hrising : ph.All (Rising b.low b.high (share.2 * amount q share.1.cost)) :=
    h.imp fun level hlevel => .of_mem hlevel.1 hlevel.2
  have hsteps := foldlM_lay_confine hb ha hrising share.1.edges
  rw [Pheromone.confined_of_mem h] at hsteps
  unfold layTrail
  dsimp only
  by_cases hshort : share.1.path.length < 2
  · rw [if_pos hshort]
    unfold layTrailStepwise
    rw [edges_of_short hshort]
    rfl
  · rw [if_neg hshort]
    exact hsteps.trans (Pheromone.confine_eq hb.low_le_high _).symm

theorem foldlM_layTrailStepwise_eq (hb : b.InOrder) {q : α} {shares : List (Trail S α × α)}
    (ha : ∀ share ∈ shares, ofNat 0 ≤ share.2 * amount q share.1.cost)
    (h : ph.All fun level => b.low ≤ level ∧ level ≤ b.high) :
    ∃ laid, shares.foldlM (layTrailStepwise q b) ph = .ok laid ∧
      shares.foldlM (layTrail q (some b)) ph = .ok laid ∧
      laid.All fun level => b.low ≤ level ∧ level ≤ b.high := by
  induction shares generalizing ph with
  | nil => exact ⟨ph, rfl, rfl, h⟩
  | cons share shares ih =>
    obtain ⟨hshare, hshares⟩ := List.forall_mem_cons.mp ha
    have hwide (level : α) (hlevel : b.low ≤ level ∧ level ≤ b.high) : ofNat 0 ≤ level :=
      Rounded.le_trans hb.nonneg hlevel.1
    have hlay (level : α) (hlevel : ofNat 0 ≤ level) :
        ofNat 0 ≤ level + share.2 * amount q share.1.cost := Rounded.add_nonneg hlevel hshare
    obtain ⟨next, hnext, hall⟩ := layTrail_all hwide (fun _ => hlay) (confines_of_inOrder hb) h
    rw [List.foldlM_cons, List.foldlM_cons, layTrailStepwise_eq hb hshare h, hnext]
    exact ih hshares hall

/-- **Confining once for every trail is enough.** From levels that are numbers and not negative, an
update gives the same pheromone, stored levels and background alike, as the one that confines after
evaporation and after every edge that a trail lays pheromone on. -/
theorem confining_once_is_enough [Ample α] (hb : b.InOrder) (hrho : ofNat 0 < s.rho)
    (hlt : s.rho < ofNat 1) (hq : ofNat 0 < s.q ∧ isFinite s.q = true)
    (hcount : s.elitist < 1 <<< 64) (htrails : ∀ t ∈ trails, ofNat 0 < t.cost)
    (hbest : ofNat 0 < best.cost) (hph : ph.All fun level => ofNat 0 ≤ level) :
    ∃ laid, update s ph trails best (some b) = .ok laid ∧
      updateStepwise s ph trails best b = .ok laid ∧
      laid.All fun level => b.low ≤ level ∧ level ≤ b.high := by
  obtain ⟨hpos, -, hfinite⟩ := Band.remaining_pos hrho (Rounded.not_ge_of_lt hlt)
  obtain ⟨evaporated, hevaporated, hlevels⟩ := confines_of_inOrder hb _
    (hph.evaporate fun level hlevel => Rounded.mul_nonneg hlevel hpos hfinite)
  have hlaid : ∀ share ∈ shares s trails best,
      ofNat 0 ≤ share.2 * amount s.q share.1.cost := by
    intro share hshare
    apply laid_nonneg hcount hq hshare
    obtain hshare | hshare := (of_mem_shares hshare).1
    · rw [hshare]
      exact hbest
    · exact htrails _ hshare
  obtain ⟨laid, hstepwise, honce, hall⟩ := foldlM_layTrailStepwise_eq hb hlaid hlevels
  refine ⟨laid, ?_, ?_, hall⟩
  · unfold update
    rw [show evaporate s ph (some b) = .ok evaporated from hevaporated]
    exact honce
  · unfold updateStepwise
    rw [show (ph.evaporate s.rho).confine b = .ok evaporated from hevaporated]
    exact hstepwise

/-- The best trail takes an edge above the band at once, and another one takes the way back above it
at its second time. -/
theorem confining_once_is_enough_above_band :
    let s : Settings Float := { Settings.preset .elitist with rho := 0.5, q := 1, elitist := 1 }
    let b : Band Float := ⟨0.5, 2⟩
    let ph : Pheromone Nat Float := (Pheromone.uniform 0.25).lay 0 1 0.75
    let best : Trail Nat Float := ⟨[1, 0], 1⟩
    let trails : List (Trail Nat Float) := [⟨[0, 1, 0, 1], 1⟩, best, ⟨[2, 1], 4⟩, ⟨[2], 1⟩]
    b.InOrder ∧ (ofNat 0 < s.rho ∧ s.rho < ofNat 1) ∧ (ofNat 0 < s.q ∧ isFinite s.q = true) ∧
      s.elitist < 1 <<< 64 ∧ (∀ t ∈ trails, ofNat 0 < t.cost) ∧ ofNat 0 < best.cost ∧
      (ph.All fun level => ofNat 0 ≤ level) ∧
      ∃ laid, update s ph trails best (some b) = .ok laid ∧
        updateStepwise s ph trails best b = .ok laid ∧ laid.background = 0.5 ∧
        laid.stored? ⟨0, 1⟩ = some 2 ∧ laid.stored? ⟨1, 0⟩ = some 2 ∧
        laid.stored? ⟨2, 1⟩ = some 0.75 ∧ laid.stored? ⟨1, 2⟩ = none := by
  intro s b ph best trails
  have hb : b.InOrder := ⟨by decide +kernel, by decide +kernel⟩
  have hrho : ofNat 0 < s.rho := by decide +kernel
  have hlt : s.rho < ofNat 1 := by decide +kernel
  have hq : ofNat 0 < s.q ∧ isFinite s.q = true := by decide +kernel
  have htrails : ∀ t ∈ trails, ofNat 0 < t.cost := by decide +kernel
  have hbest : ofNat 0 < best.cost := by decide +kernel
  have hlaid : ofNat 0 ≤ (0.75 : Float) := by decide +kernel
  have hph : ph.All fun level => ofNat 0 ≤ level :=
    (Pheromone.All.uniform (by decide +kernel)).lay fun _ hlevel => Rounded.add_nonneg hlevel hlaid
  obtain ⟨laid, honce, hstepwise, -⟩ :=
    confining_once_is_enough hb hrho hlt hq (by decide) htrails hbest hph
  have hvalues : (match update s ph trails best (some b) with
      | .ok laid => decide (laid.background = 0.5 ∧ laid.stored? ⟨0, 1⟩ = some 2 ∧
        laid.stored? ⟨1, 0⟩ = some 2 ∧ laid.stored? ⟨2, 1⟩ = some 0.75 ∧
        laid.stored? ⟨1, 2⟩ = none)
      | .error _ => false) = true := by decide +kernel
  rw [honce] at hvalues
  exact ⟨hb, ⟨hrho, hlt⟩, hq, by decide, htrails, hbest, hph, laid, honce, hstepwise,
    of_decide_eq_true hvalues⟩

end Deposit

end Stigmergy
