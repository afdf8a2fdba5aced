import Stigmergy.Graph
import Stigmergy.Proofs.Binary64.Power
import Stigmergy.Proofs.Colony.Kept
import Stigmergy.Proofs.Deposit.Update
import Stigmergy.Random.Script

/-!
# The band of a bounded colony

* `Colony.Banded`: the invariant of bounded colonies, kept by every iteration.
* `Colony.levels_stay_in_band`: the band is in order and is that of the best trail, and all levels
  lie in it.
-/

namespace Stigmergy

open Scalar Stigmergy.Random
open Pheromone (Band ShrinkingPower)

variable {S α : Type} [Ord S] [Scalar α]

namespace Colony

def bandOfBest (c : Colony S α) : Band α :=
  if c.best.isEmpty then Band.initial c.settings.infinity
  else Band.ofTrail c.best c.settings.rho c.settings.q c.settings.pBest

theorem bandOfBest_of_found {c : Colony S α} (hfound : c.best.path ≠ []) :
    c.bandOfBest = Band.ofTrail c.best c.settings.rho c.settings.q c.settings.pBest := by
  unfold bandOfBest
  exact if_neg (by simpa [Trail.isEmpty] using hfound)

/-- The band is that of the best trail, and all levels lie in it. -/
structure Banded [Std.TransOrd S] (s : Settings α) (c : Colony S α) : Prop where
  settings : c.settings = s
  best : c.BestIsReal
  initial : c.pheromone.initial = s.infinity
  band : c.band = some c.bandOfBest
  levels : c.pheromone.All fun level => c.bandOfBest.low ≤ level ∧ level ≤ c.bandOfBest.high

variable [Rounded α] {s : Settings α} {c : Colony S α}

theorem band_adopt (hvariant : c.settings.variant = .maxMin) (hband : c.band = some c.bandOfBest)
    {trails : List (Trail S α)} (htrails : ∀ t ∈ trails, t.IsReal) :
    (c.adopt (Run.leader trails)).band = some (c.adopt (Run.leader trails)).bandOfBest := by
  unfold Colony.adopt
  split
  · next hlt =>
    obtain ⟨⟨hpath, -⟩, -⟩ := isReal_of_adopted htrails hlt
    rw [bandOfBest_of_found hpath]
    exact if_pos (Settings.isBounded_iff.mpr hvariant)
  · exact hband

/-- The band of a real trail is in order. -/
theorem BestIsReal.inOrder (hpow : ShrinkingPower α) (hs : s.Common) (hb : s.Bounded)
    (hsettings : c.settings = s) (h : c.BestIsReal) : c.bandOfBest.InOrder := by
  rcases h with hnone | ⟨⟨hpath, hpos⟩, hlt⟩
  · have hempty : c.best.isEmpty = true := by
      rw [hnone]
      rfl
    rw [bandOfBest, hsettings, if_pos hempty]
    exact Band.inOrder_initial hb.infinity.1
  · rw [bandOfBest_of_found hpath, hsettings]
    have hfinite := Rounded.isFinite_of_lt (Rounded.le_of_lt hpos) hlt
    have htop := Band.top_nonneg hs.rho_pos hb.rho_lt hs.q.1 hs.q.2 hpos hfinite
    exact Band.inOrder_derive hpow htop (List.length_pos_iff.mpr hpath) hb.pBest_pos hb.pBest_lt

variable [Std.TransOrd S]

/-- A new best trail's update confines all levels to its band. -/
theorem Banded.update (hpow : ShrinkingPower α) (hs : s.Common) (hb : s.Bounded)
    (hvariant : s.variant = .maxMin) (hsettings : c.settings = s) (hbest : c.BestIsReal)
    (hinitial : c.pheromone.initial = s.infinity) (hband : c.band = some c.bandOfBest)
    (hlevels : c.pheromone.All fun level => ofNat 0 ≤ level) (trails : List (Trail S α)) :
    ∃ pheromone, Deposit.update c.settings c.pheromone trails c.best c.band = .ok pheromone ∧
      Banded s { c with pheromone } := by
  have horder := hbest.inOrder hpow hs hb hsettings
  have hconfines : Deposit.Confines c.band S (fun level => ofNat 0 ≤ level)
      fun level => c.bandOfBest.low ≤ level ∧ level ≤ c.bandOfBest.high := by
    rw [hband]
    exact Deposit.confines_of_inOrder horder
  obtain ⟨hpos, -, hfinite⟩ := Band.remaining_pos hs.rho_pos hb.rho_lt
  have hscale (level : α) (h : ofNat 0 ≤ level) : ofNat 0 ≤ level * (ofNat 1 - c.settings.rho) := by
    rw [hsettings]
    exact Rounded.mul_nonneg h hpos hfinite
  have hlay (share : Trail S α × α) (hshare : share ∈ Deposit.shares c.settings trails c.best)
      (_ : 2 ≤ share.1.path.length) (level : α) (h : ofNat 0 ≤ level) :
      ofNat 0 ≤ level + share.2 * Deposit.amount c.settings.q share.1.cost := by
    -- Only the best trail lays pheromone, with weight one.
    have hsingle : share = (c.best, ofNat 1) := by
      simpa [Deposit.shares, hsettings, hvariant] using hshare
    rw [hsingle, hsettings]
    have hamount : ofNat 0 ≤ s.q / c.best.cost :=
      Rounded.div_nonneg (Rounded.le_of_lt hs.q.1) hbest.cost_pos (.inl hs.q.2)
    exact Rounded.add_nonneg h
      (Rounded.mul_nonneg_left Rounded.zero_lt_one Rounded.isFinite_one hamount)
  obtain ⟨pheromone, hupdate, hall⟩ := Deposit.update_all
    (fun level h => Rounded.le_trans horder.nonneg h.1) hscale hlay hconfines hlevels
  exact ⟨pheromone, hupdate,
    { settings := hsettings
      best := hbest
      initial := (Deposit.initial_update hupdate).trans hinitial
      band := hband
      levels := hall }⟩

theorem Banded.fresh (hb : s.Bounded) (hvariant : s.variant = .maxMin) :
    Banded s (Colony.fresh s : Colony S α) := by
  have hbounded := Settings.isBounded_iff.mpr hvariant
  have hinitial : s.initialPheromone = s.infinity := if_pos hbounded
  refine ⟨rfl, .inl rfl, hinitial, if_pos hbounded, ?_⟩
  refine Pheromone.All.uniform ?_
  rw [hinitial]
  exact ⟨Rounded.le_of_lt hb.infinity.1,
    Rounded.le_refl (Rounded.number_of_lt hb.infinity.1).2⟩

theorem Banded.restart (hb : s.Bounded) (hvariant : s.variant = .maxMin) (h : Banded s c) :
    Banded s c.restart := by
  have hfresh : c.restart = Colony.fresh s := by
    have hinitial : s.initialPheromone = s.infinity :=
      if_pos (Settings.isBounded_iff.mpr hvariant)
    unfold Colony.restart Colony.fresh Pheromone.reset
    rw [h.settings, h.initial, hinitial]
  rw [hfresh]
  exact Banded.fresh hb hvariant

/-- **Bounded colonies stay banded**, whatever they run on. -/
theorem Banded.kept (hpow : ShrinkingPower α) (hs : s.Common) (hb : s.Bounded)
    (hvariant : s.variant = .maxMin) : Kept (Banded s : Colony S α → Prop) := by
  refine ⟨fun h => h.restart hb hvariant, fun {c trails} h htrails => ?_⟩
  have hsettings : (c.adopt (Run.leader trails)).settings = s := by
    rw [Colony.settings_adopt]
    exact h.settings
  have hnonneg : (c.adopt (Run.leader trails)).pheromone.All fun level => ofNat 0 ≤ level := by
    rw [Colony.pheromone_adopt]
    have horder := h.best.inOrder hpow hs hb h.settings
    exact h.levels.imp fun level hlevel => Rounded.le_trans horder.nonneg hlevel.1
  refine Banded.update hpow hs hb hvariant hsettings (h.best.adopt htrails) ?_
    (band_adopt (by rw [h.settings]; exact hvariant) h.band htrails) hnonneg trails
  rw [Colony.pheromone_adopt]
  exact h.initial

/-- **All levels of a bounded colony stay in its band**, which is in order and is that of the best
trail. So no run of it ever ends at a band in disorder. -/
theorem levels_stay_in_band (hpow : ShrinkingPower α) (hvariant : s.variant = .maxMin)
    (hc : Reachable s c) :
    ∃ b, c.band = some b ∧
      (isNaN b.low = false ∧ isNaN b.high = false ∧ ofNat 0 ≤ b.low ∧ b.low ≤ b.high) ∧
      (c.best = Trail.unbounded ∧ b = Band.initial s.infinity ∨
        c.best.path ≠ [] ∧ b = Band.derive c.best.cost c.best.path.length s.rho s.q s.pBest) ∧
      (∀ e level, c.pheromone.stored? e = some level → b.low ≤ level ∧ level ≤ b.high) ∧
      (b.low ≤ c.pheromone.background ∧ c.pheromone.background ≤ b.high) ∧
      ∀ {G : Type} [WordSource G] (schedule : Schedule) (p : Problem S α) (source : G),
        (c.solveOn schedule p source).result ≠ .error (.fault .invertedBand) := by
  have hs := hc.valid.common
  have hb := hc.valid.bounded hvariant
  have hkept := Banded.kept (S := S) hpow hs hb hvariant
  have hbanded := hkept.reachable (Banded.fresh hb hvariant) hc
  have horder := hbanded.best.inOrder hpow hs hb hbanded.settings
  obtain ⟨hlow, hhigh⟩ := Rounded.number_of_le horder.low_le_high
  refine ⟨c.bandOfBest, hbanded.band, ⟨hlow, hhigh, horder.nonneg, horder.low_le_high⟩, ?_,
    fun _ _ hstored => hbanded.levels.stored hstored, hbanded.levels.background,
    fun schedule p source => (hkept.solveOn hbanded source).2⟩
  unfold bandOfBest
  rw [hbanded.settings]
  rcases hbanded.best with hnone | ⟨⟨hpath, -⟩, -⟩
  · refine .inl ⟨hnone, if_pos ?_⟩
    rw [hnone]
    rfl
  · refine .inr ⟨hpath, if_neg ?_⟩
    simpa [Trail.isEmpty] using hpath

/-- The colony of a graph with one way of four states, after a run of two iterations. -/
theorem levels_stay_in_band_on_line :
    let _ : Scalar Float := Binary64.withPower Binary64.sketchedPower
    let s : Settings Float :=
      { Settings.preset .maxMin with pBest := ratio 1 16, beta := ofNat 1, iterations := 2 }
    let line : Graph Float :=
      ⟨2, #[0, 0], [(0, [(1, 3)]), (1, [(2, 1)]), (2, [(3, 2)])], [3]⟩
    let c : Colony Int Float :=
      ((Colony.fresh s).solve line.problem (Script.mk #[1, 2] 0)).run.colony
    s.Valid ∧ ∃ b, c.band = some b ∧ b.low ≤ b.high ∧
      b.low ≤ c.pheromone.background ∧ c.pheromone.background ≤ b.high := by
  intro _ s line c
  have hvalid : s.Valid := by decide +kernel
  let _ := Binary64.rounded_withPower Binary64.sketchedPower
  have hreachable : Reachable s c :=
    .run .inOrder line.problem _ (.new (Colony.ofSettings?_eq hvalid))
  obtain ⟨b, hband, ⟨-, -, -, horder⟩, -, -, hbackground, -⟩ :=
    levels_stay_in_band Binary64.shrinkingPower_sketched rfl hreachable
  exact ⟨hvalid, b, hband, horder, hbackground⟩

end Colony

end Stigmergy
