import Stigmergy.Proofs.Colony.Kept
import Stigmergy.Proofs.Deposit.Update
import Stigmergy.Proofs.Pheromone.Band

/-!
# Colonies that can go on

Pheromone may sink to zero, rise to infinity and then become no number, but it never gets below
zero. That is all that the next iteration asks of it.

* `Colony.Sound`: the invariant, of every variant.
* `Sound.kept`: restarts and iterations keep it, so no update fails.
* `Reachable.sound`: so all colonies that runs can leave are sound.
-/

namespace Stigmergy.Colony

open Std (TransOrd)
open Scalar
open Pheromone (Band)

variable {S α : Type} [Ord S] [TransOrd S] [Scalar α]

/-- No level is below zero, and the band is in order. -/
structure Sound (s : Settings α) (c : Colony S α) : Prop where
  settings : c.settings = s
  best : c.BestIsReal
  initial : NotNegative c.pheromone.initial
  band : ∀ b, c.band = some b → b.low ≤ b.high ∧ ofNat 0 ≤ b.high
  levels : c.pheromone.All NotNegative

variable [Rounded α] {s : Settings α} {c : Colony S α}

theorem firstBand_inOrder (hs : s.Valid) {b : Band α} (h : firstBand s = some b) :
    b.low ≤ b.high ∧ ofNat 0 ≤ b.high := by
  unfold firstBand at h
  split at h
  · next hbounded =>
    cases h
    have hinfinity := (hs.bounded (Settings.isBounded_iff.mp hbounded)).infinity.1
    have horder := Band.inOrder_initial hinfinity
    exact ⟨horder.low_le_high, Rounded.le_of_lt hinfinity⟩
  · cases h

omit [TransOrd S] in
/-- The band of a real trail is in order, whatever becomes of the decision's probability. -/
theorem bandFor_inOrder (hs : s.Valid) (hsettings : c.settings = s) {trail : Trail S α}
    (hpos : ofNat 0 < trail.cost) (hlt : trail.cost < infinity) {b : Band α}
    (h : c.bandFor trail = some b) : b.low ≤ b.high ∧ ofNat 0 ≤ b.high := by
  unfold bandFor at h
  rw [hsettings] at h
  split at h
  · next hbounded =>
    cases h
    have hq := hs.common.q
    have hfinite := Rounded.isFinite_of_lt (Rounded.le_of_lt hpos) hlt
    have hrho := (hs.bounded (Settings.isBounded_iff.mp hbounded)).rho_lt
    have htop := Band.top_nonneg hs.common.rho_pos hrho hq.1 hq.2 hpos hfinite
    exact ⟨Rounded.least_le (Rounded.number_of_le htop).2, htop⟩
  · cases h

/-- The first level is a number and not negative, of every variant. -/
theorem initialPheromone_nonneg (hs : s.Valid) : ofNat 0 ≤ s.initialPheromone := by
  unfold Settings.initialPheromone
  split
  · next hbounded =>
    have hinfinity := (hs.bounded (Settings.isBounded_iff.mp hbounded)).infinity.1
    exact Rounded.le_of_lt hinfinity
  · exact Rounded.div_nonneg (Rounded.le_of_lt Rounded.zero_lt_one)
      (Rounded.ofNat_pos (by decide)) (.inl Rounded.isFinite_one)

/-- Evaporation leaves a share that is not negative, of no more than all. -/
theorem remaining_nonneg (hs : s.Valid) :
    ofNat 0 ≤ ofNat 1 - s.rho ∧ isFinite (ofNat 1 - s.rho) = true := by
  have hpos := Rounded.le_of_lt hs.common.rho_pos
  have hrho : isFinite s.rho = true :=
    Rounded.isFinite_of_le hpos hs.common.rho_le Rounded.isFinite_one
  have hnonneg := Rounded.sub_nonneg hrho hs.common.rho_le
  have hle := Rounded.sub_le_self Rounded.isFinite_one hpos hrho
  exact ⟨hnonneg, Rounded.isFinite_of_le hnonneg hle Rounded.isFinite_one⟩

namespace Sound

theorem fresh (hs : s.Valid) : Sound s (Colony.fresh s : Colony S α) :=
  have hinitial := Rounded.notNegative_of_nonneg (initialPheromone_nonneg hs)
  { settings := rfl
    best := .inl rfl
    initial := hinitial
    band := fun _ h => firstBand_inOrder hs h
    levels := .uniform hinitial }

theorem restart (hs : s.Valid) (h : Sound s c) : Sound s c.restart :=
  { settings := h.settings
    best := .inl rfl
    initial := h.initial
    band := fun b hb => by
      change firstBand c.settings = some b at hb
      rw [h.settings] at hb
      exact firstBand_inOrder hs hb
    levels := .uniform h.initial }

theorem adopt (hs : s.Valid) (h : Sound s c) {trails : List (Trail S α)}
    (htrails : ∀ t ∈ trails, t.IsReal) : Sound s (c.adopt (Run.leader trails)) := by
  have hbest := h.best.adopt htrails
  unfold Colony.adopt at hbest ⊢
  split
  · next hlt =>
    obtain ⟨⟨-, hpos⟩, hfinite⟩ := isReal_of_adopted htrails hlt
    rw [if_pos hlt] at hbest
    exact ⟨h.settings, hbest, h.initial,
      fun b hb => bandFor_inOrder hs h.settings hpos hfinite hb, h.levels⟩
  · exact h

omit [Rounded α] in
/-- The colony's band confines to what its clamps keep. -/
theorem confines {P : α → Prop} (h : Sound s c)
    (hclamp : ∀ {lo hi level}, lo ≤ hi → ofNat 0 ≤ hi → P level → P (clamp lo hi level)) :
    Deposit.Confines c.band S P P := by
  intro ph hph
  cases hband : c.band with
  | none => exact ⟨ph, rfl, hph⟩
  | some b =>
    obtain ⟨horder, hhigh⟩ := h.band b hband
    exact hph.confine horder fun level => hclamp horder hhigh

/-- The trails that lay pheromone have costs above zero. -/
theorem cost_pos (h : Sound s c) {trails : List (Trail S α)} (htrails : ∀ t ∈ trails, t.IsReal)
    {share : Trail S α × α} (hshare : share ∈ Deposit.shares c.settings trails c.best) :
    ofNat 0 < share.1.cost := by
  cases (Deposit.of_mem_shares hshare).1 with
  | inl hbest =>
    rw [hbest]
    exact h.best.cost_pos
  | inr hmem => exact (htrails _ hmem).2

/-- **An update of a sound colony succeeds**, and leaves a sound one. -/
theorem update (hs : s.Valid) (h : Sound s c) {trails : List (Trail S α)}
    (htrails : ∀ t ∈ trails, t.IsReal) :
    ∃ pheromone, Deposit.update c.settings c.pheromone trails c.best c.band = .ok pheromone ∧
      Sound s { c with pheromone } := by
  have hscale (level : α) (hlevel : NotNegative level) :
      NotNegative (level * (ofNat 1 - c.settings.rho)) := by
    rw [h.settings]
    exact Rounded.notNegative_mul hlevel (Rounded.notNegative_of_nonneg (remaining_nonneg hs).1)
  have hlay (share : Trail S α × α) (hshare : share ∈ Deposit.shares c.settings trails c.best)
      (_ : 2 ≤ share.1.path.length) (level : α) (hlevel : NotNegative level) :
      NotNegative (level + share.2 * Deposit.amount c.settings.q share.1.cost) := by
    have hweight := (Deposit.of_mem_shares hshare).2
    have hcost := h.cost_pos htrails hshare
    have hq : NotNegative c.settings.q := by
      rw [h.settings]
      exact Rounded.notNegative_of_pos hs.common.q.1
    exact Rounded.notNegative_add hlevel
      (Rounded.notNegative_mul hweight (Rounded.notNegative_div hq hcost))
  have hconfine : Deposit.Confines c.band S NotNegative NotNegative := h.confines
    fun _ hhigh => Rounded.notNegative_clamp (Rounded.notNegative_of_nonneg hhigh)
  obtain ⟨pheromone, hupdate, hall⟩ :=
    Deposit.update_all (fun _ => id) hscale hlay hconfine h.levels
  have hinitial : NotNegative pheromone.initial := by
    rw [Deposit.initial_update hupdate]
    exact h.initial
  exact ⟨pheromone, hupdate, h.settings, h.best, hinitial, h.band, hall⟩

/-- **Sound colonies stay sound**, whatever they run on. -/
theorem kept (hs : s.Valid) : Kept (Sound s : Colony S α → Prop) :=
  ⟨fun h => h.restart hs, fun h htrails => (h.adopt hs htrails).update hs htrails⟩

end Sound

theorem Reachable.sound (hc : Reachable s c) : Sound s c :=
  (Sound.kept hc.valid).reachable (Sound.fresh hc.valid) hc

end Stigmergy.Colony
