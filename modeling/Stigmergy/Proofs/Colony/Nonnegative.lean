import Stigmergy.Graph
import Stigmergy.Proofs.Binary64.Laws
import Stigmergy.Proofs.Colony.Prefix
import Stigmergy.Proofs.Colony.Sound

/-!
# Levels that are numbers

A deposit may be infinite, and so may a level. Evaporation leaves it infinite, unless it leaves
nothing of any level: then an infinity times zero is no number, and stays none.

* `Colony.Grounded`: what every state of a colony keeps of its levels.
* `Run.iterate_nonneg_iff`: when an iteration leaves levels that are numbers and not negative.
* `Run.FiniteBefore`: no level was infinite before an iteration.
* `Colony.levels_stay_nonnegative`: levels are numbers and not negative, unless evaporation leaves
  nothing and one has been infinite.
-/

namespace Stigmergy

open Scalar Stigmergy.Random

variable {S α G : Type} [Ord S] [Std.TransOrd S] [Scalar α]

def Pheromone.StoresFinite (ph : Pheromone S α) : Prop :=
  ∀ {e level}, ph.stored? e = some level → isFinite level = true

namespace Colony

variable {s : Settings α} {c : Colony S α}

/-- The backgrounds are not negative, now and at first, and no level is negative or no number while
evaporation leaves something of it. -/
structure Grounded (s : Settings α) (c : Colony S α) : Prop where
  sound : Sound s c
  initial : ofNat 0 ≤ c.pheromone.initial
  background : ofNat 0 ≤ c.pheromone.background
  levels : s.rho < ofNat 1 → c.pheromone.All (ofNat 0 ≤ ·)

variable [Rounded α]

/-- Evaporation leaves a number if it leaves something, or if there was no infinity. -/
theorem evaporated_nonneg [Ample α] (hs : s.Valid) {ph : Pheromone S α}
    (hlevels : ph.All (ofNat 0 ≤ ·)) (hfinite : s.rho < ofNat 1 ∨ ph.StoresFinite) :
    (ph.evaporate s.rho).All (ofNat 0 ≤ ·) := by
  obtain ⟨hnonneg, hremaining⟩ := remaining_nonneg hs
  apply Pheromone.all_evaporate _ hlevels.background
  intro e level hstored
  have hlevel := hlevels.stored hstored
  cases hfinite with
  | inl hlt =>
    have hrho := Rounded.isFinite_of_lt (Rounded.le_of_lt hs.common.rho_pos) hlt
    exact Rounded.mul_nonneg hlevel (Rounded.sub_pos hrho hlt) hremaining
  | inr hstores =>
    have hnotNegative := Rounded.notNegative_mul (Rounded.notNegative_of_nonneg hlevel)
      (Rounded.notNegative_of_nonneg hnonneg)
    exact Rounded.nonneg_of_notNegative hnotNegative
      (Ample.number_mul (hstores hstored) hremaining)

/-! ## One update -/

theorem Sound.background_nonneg (h : Sound s c) {trails : List (Trail S α)} {best : Trail S α}
    {laid : Pheromone S α} (hbackground : ofNat 0 ≤ c.pheromone.background)
    (hupdate : Deposit.update c.settings c.pheromone trails best c.band = .ok laid) :
    ofNat 0 ≤ laid.background := by
  apply Deposit.update_induction (R := fun ph => ofNat 0 ≤ ph.background) _ _ _ hbackground hupdate
  · intro _ hkept
    exact hkept
  · intro _ _ _ _ hkept
    exact hkept
  · intro ph confined hkept hconfined
    cases hband : c.band with
    | none =>
      simp only [Deposit.confineTo, hband, Except.ok.injEq] at hconfined
      simpa [← hconfined] using hkept
    | some b =>
      simp only [Deposit.confineTo, hband] at hconfined
      obtain ⟨horder, hclamped⟩ := Pheromone.background_confine hconfined
      rw [hclamped]
      exact Rounded.clamp_nonneg horder (h.band b hband).2 hkept

theorem Grounded.fresh (hs : s.Valid) : Grounded s (Colony.fresh s : Colony S α) := by
  have hinitial := initialPheromone_nonneg hs
  exact ⟨.fresh hs, hinitial, hinitial, fun _ => .uniform hinitial⟩

theorem Grounded.restart (hs : s.Valid) (h : Grounded s c) : Grounded s c.restart :=
  ⟨h.sound.restart hs, h.initial, h.initial, fun _ => .uniform h.initial⟩

variable {trails : List (Trail S α)} {laid : Pheromone S α}

/-- A level that is no number stays none, and where evaporation leaves nothing, an infinite one
becomes none. -/
theorem spoiled_relaid [Absorbing α] (hs : s.Valid) (hsettings : c.settings = s)
    {e : Pheromone.Edge S} {level : α} (hstored : c.pheromone.stored? e = some level)
    (hbad : isNaN level = true ∨ ¬s.rho < ofNat 1 ∧ isFinite level = false)
    (hrelaid : c.relaid trails = .ok laid) : laid.Spoiled e := by
  apply Deposit.spoiled_update _ hrelaid
  rw [pheromone_adopt, settings_adopt, hsettings]
  cases hbad with
  | inl hnan => exact Pheromone.Spoiled.evaporate ⟨level, hstored, hnan⟩ s.rho
  | inr hall =>
    have hrho := (Rounded.number_of_le hs.common.rho_le).1
    have hone : ofNat 1 ≤ s.rho := Rounded.le_of_not_gt Rounded.number_one hrho hall.1
    have hzero : IsZero (ofNat 1 - s.rho) :=
      ⟨Rounded.sub_nonpos Rounded.isFinite_one hone, (remaining_nonneg hs).1⟩
    exact Pheromone.spoiled_evaporate hzero hstored hall.2

variable [Ample α]

/-- What is laid takes no level below zero, and makes none that is no number. -/
theorem Sound.update_nonneg (hs : s.Valid) (hcount : s.elitist < 1 <<< 64) (h : Sound s c)
    (hreal : ∀ t ∈ trails, t.IsReal) (hevaporated : (c.pheromone.evaporate s.rho).All (ofNat 0 ≤ ·))
    (hupdate : Deposit.update c.settings c.pheromone trails c.best c.band = .ok laid) :
    laid.All (ofNat 0 ≤ ·) := by
  have hlay (share : Trail S α × α) (hshare : share ∈ Deposit.shares c.settings trails c.best)
      (_ : 2 ≤ share.1.path.length) (level : α) (hlevel : ofNat 0 ≤ level) :
      ofNat 0 ≤ level + share.2 * Deposit.amount c.settings.q share.1.cost := by
    have hcost := h.cost_pos hreal hshare
    rw [h.settings] at hshare ⊢
    exact Rounded.add_nonneg hlevel (Deposit.laid_nonneg hcount hs.common.q hshare hcost)
  rw [← h.settings] at hevaporated
  obtain ⟨found, hfound, hall⟩ := Deposit.update_all_of_evaporated (fun _ => id) hlay
    (h.confines Rounded.clamp_nonneg) hevaporated
  rw [hfound] at hupdate
  cases hupdate
  exact hall

/-- An iteration leaves levels that are numbers and not negative, if it finds such ones and
evaporation keeps them so. -/
theorem Grounded.relaid_nonneg (hs : s.Valid) (hcount : s.elitist < 1 <<< 64) (h : Grounded s c)
    (hreal : ∀ t ∈ trails, t.IsReal) (hlevels : c.pheromone.All (ofNat 0 ≤ ·))
    (hfinite : s.rho < ofNat 1 ∨ c.pheromone.StoresFinite)
    (hrelaid : c.relaid trails = .ok laid) : laid.All (ofNat 0 ≤ ·) := by
  apply (h.sound.adopt hs hreal).update_nonneg hs hcount hreal _ hrelaid
  rw [pheromone_adopt]
  exact evaporated_nonneg hs hlevels hfinite

/-- **Grounded colonies stay grounded**, whatever they run on. -/
theorem Grounded.kept (hs : s.Valid) (hcount : s.elitist < 1 <<< 64) :
    Kept (Grounded s : Colony S α → Prop) := by
  refine ⟨fun h => h.restart hs, ?_⟩
  intro c trails h hreal
  obtain ⟨laid, hrelaid, hsound⟩ := (Sound.kept hs).relaid h.sound hreal
  refine ⟨laid, hrelaid, hsound, ?_, ?_, ?_⟩
  · have hinitial : laid.initial = c.pheromone.initial := by
      simpa using Deposit.initial_update hrelaid
    rw [hinitial]
    exact h.initial
  · apply (h.sound.adopt hs hreal).background_nonneg _ hrelaid
    rw [pheromone_adopt]
    exact h.background
  · intro hlt
    exact h.relaid_nonneg hs hcount hreal (h.levels hlt) (.inl hlt) hrelaid

end Colony

/-! ## Many iterations -/

namespace Run

variable [Rounded α] [Ample α] [Absorbing α] [WordSource G] {s : Settings α} {p : Problem S α}
  {schedule : Schedule} {run next : Run S α G} {iteration k : Nat}

/-- **One iteration** leaves levels that are numbers and not negative exactly if it finds such ones,
and evaporation leaves something of them or none is infinite. -/
theorem iterate_nonneg_iff (hs : s.Valid) (hcount : s.elitist < 1 <<< 64)
    (h : Colony.Grounded s run.colony) (hiterate : run.iterate p schedule iteration = .ok next) :
    next.colony.pheromone.All (ofNat 0 ≤ ·) ↔ run.colony.pheromone.All (ofNat 0 ≤ ·) ∧
      (s.rho < ofNat 1 ∨ run.colony.pheromone.StoresFinite) := by
  obtain ⟨trails, htrails, hlearn⟩ := iterate_ok hiterate
  obtain ⟨hfree, laid, hrelaid, rfl⟩ := learn_ok hlearn
  change laid.All _ ↔ _
  constructor
  · intro hlaid
    have hsound {e : Pheromone.Edge S} {level : α}
        (hstored : run.colony.pheromone.stored? e = some level)
        (hbad : isNaN level = true ∨ ¬s.rho < ofNat 1 ∧ isFinite level = false) : False := by
      obtain ⟨found, hfound, hnan⟩ :=
        Colony.spoiled_relaid hs h.sound.settings hstored hbad hrelaid
      simp [(Rounded.number_of_le (hlaid.stored hfound)).2] at hnan
    constructor
    · refine ⟨?_, h.background⟩
      intro e level hstored
      apply Rounded.nonneg_of_notNegative (h.sound.levels.stored hstored)
      apply Bool.eq_false_iff.mpr
      intro hnan
      exact hsound hstored (.inl hnan)
    · by_cases hlt : s.rho < ofNat 1
      · exact .inl hlt
      · apply Or.inr
        intro e level hstored
        apply eq_true_of_ne_false
        intro hinfinite
        exact hsound hstored (.inr ⟨hlt, hinfinite⟩)
  · intro ⟨hlevels, hfinite⟩
    exact h.relaid_nonneg hs hcount (isReal_of_trails htrails hfree) hlevels hfinite hrelaid

/-- No level is infinite, or no number, after any iteration before the one of a number. -/
def FiniteBefore (p : Problem S α) (schedule : Schedule) (run : Run S α G) (k : Nat) : Prop :=
  ∀ j < k, ∀ earlier, run.iterations p schedule j 1 = .ok earlier →
    earlier.colony.pheromone.StoresFinite

omit [Rounded α] [Ample α] [Absorbing α] in
theorem finiteBefore_succ_iff (hnext : run.iterations p schedule k 1 = .ok next) :
    run.FiniteBefore p schedule (k + 1) ↔
      run.FiniteBefore p schedule k ∧ next.colony.pheromone.StoresFinite := by
  constructor
  · intro h
    exact ⟨fun j hj => h j (by omega), h k (by omega) next hnext⟩
  · intro ⟨hbefore, hlast⟩ j hj earlier hearlier
    by_cases heq : j = k
    · subst heq
      rw [hnext] at hearlier
      cases hearlier
      exact hlast
    · exact hbefore j (by omega) earlier hearlier

omit [Rounded α] [Ample α] [Absorbing α] in
/-- The last of so many iterations comes after all others. -/
theorem iterations_succ_ok {last : Run S α G}
    (h : run.iterations p schedule (k + 1) 1 = .ok last) :
    ∃ next, run.iterations p schedule k 1 = .ok next ∧
      next.iterate p schedule (1 + k) = .ok last := by
  rw [iterations_add] at h
  split at h
  · cases h
  · next next hnext =>
    rw [iterations_succ_eq] at h
    split at h
    · cases h
    · next hlast =>
      cases h
      exact ⟨next, hnext, hlast⟩

/-- **A run's levels are numbers and not negative** exactly if evaporation leaves something of them,
or none has been infinite before. -/
theorem iterations_nonneg_iff (hs : s.Valid) (hcount : s.elitist < 1 <<< 64)
    (h : Colony.Grounded s run.colony) (hlevels : run.colony.pheromone.All (ofNat 0 ≤ ·))
    (hnext : run.iterations p schedule k 1 = .ok next) :
    next.colony.pheromone.All (ofNat 0 ≤ ·) ↔
      s.rho < ofNat 1 ∨ run.FiniteBefore p schedule k := by
  induction k generalizing next with
  | zero =>
    cases hnext
    exact iff_of_true hlevels (.inr fun j hj => by omega)
  | succ k ih =>
    obtain ⟨middle, hmiddle, hiterate⟩ := iterations_succ_ok hnext
    have hkept := Colony.Grounded.kept (S := S) hs hcount
    have hgrounded : Colony.Grounded s middle.colony :=
      iterations_ok (P := fun run => Colony.Grounded s run.colony) hkept.iterate_ok h hmiddle
    rw [iterate_nonneg_iff hs hcount hgrounded hiterate, ih hmiddle,
      finiteBefore_succ_iff hmiddle, or_and_left]

end Run

namespace Colony

variable [Rounded α] [Ample α] [Absorbing α] {s : Settings α} {c : Colony S α}

/-- **Levels are numbers and not negative**, after every iteration of every run, unless evaporation
leaves nothing of them and one has been infinite before; then one is no number. None is ever
negative, and the background is always a number. The elitist count is one that a word holds. -/
theorem levels_stay_nonnegative (hcount : s.elitist < 1 <<< 64) (hc : Reachable s c) :
    (c.pheromone.All NotNegative ∧ ofNat 0 ≤ c.pheromone.background ∧
      (s.rho < ofNat 1 → c.pheromone.All (ofNat 0 ≤ ·))) ∧
    ∀ {G : Type} [WordSource G] (schedule : Schedule) (p : Problem S α) (source : G) (k : Nat)
      (run : Run S α G), (Run.begun c p source).iterations p schedule k 1 = .ok run →
        run.colony.pheromone.All NotNegative ∧ ofNat 0 ≤ run.colony.pheromone.background ∧
        (run.colony.pheromone.All (ofNat 0 ≤ ·) ↔
          s.rho < ofNat 1 ∨ (Run.begun c p source).FiniteBefore p schedule k) ∧
        (s.rho < ofNat 1 ∨ (Run.begun c p source).FiniteBefore p schedule k →
          ∀ source target, ofNat 0 ≤ run.colony.guide.pheromone.level source target) := by
  have hkept := Grounded.kept (S := S) hc.valid hcount
  have hgrounded : Grounded s c := hkept.reachable (.fresh hc.valid) hc
  refine ⟨⟨hgrounded.sound.levels, hgrounded.background, hgrounded.levels⟩, ?_⟩
  intro G _ schedule p source k run hrun
  have hbegun : Grounded s (Run.begun c p source).colony := hgrounded.restart hc.valid
  have hlevels : (Run.begun c p source).colony.pheromone.All (ofNat 0 ≤ ·) :=
    .uniform hgrounded.initial
  have hnow : Grounded s run.colony :=
    Run.iterations_ok (P := fun run => Grounded s run.colony) hkept.iterate_ok hbegun hrun
  have hiff := Run.iterations_nonneg_iff hc.valid hcount hbegun hlevels hrun
  refine ⟨hnow.sound.levels, hnow.background, hiff, ?_⟩
  intro hfinite source target
  exact (hiff.mpr hfinite).level source target

/-- Where nothing is left of an infinite level, the next iteration stores no number. -/
theorem level_is_no_number_after_overflow :
    let s : Settings Float :=
      { Settings.standard with rho := 1, q := 1e308, ants := 1, iterations := 2 }
    let way : Graph Float := ⟨2, #[0, 0], [(0, [(1, 0.0625)])], [1]⟩
    let c : Colony Int Float := ((fresh s).solve way.problem (Script.mk #[0] 0)).run.colony
    s.Valid ∧ Reachable s c ∧ c.best.path = [0, 1] ∧
      ∃ level, c.pheromone.stored? ⟨0, 1⟩ = some level ∧ isNaN level = true ∧
        ¬ofNat 0 ≤ level := by
  intro s way c
  have hvalid : s.Valid := by decide +kernel
  have hreachable : Reachable s c := .run .inOrder way.problem _ (.new (ofSettings?_eq hvalid))
  have hnan : ((c.pheromone.stored? ⟨0, 1⟩).any fun level => isNaN level) = true := by
    decide +kernel
  cases hstored : c.pheromone.stored? ⟨0, 1⟩ with
  | none => simp [hstored] at hnan
  | some level =>
    have hnan : isNaN level = true := by simpa [hstored] using hnan
    refine ⟨hvalid, hreachable, by decide +kernel, level, rfl, hnan, ?_⟩
    intro hnonneg
    simp [(Rounded.number_of_le hnonneg).2] at hnan

/-- Levels that have risen to infinity stay there, where evaporation leaves something of them. -/
theorem levels_stay_nonnegative_after_overflow :
    let s : Settings Float :=
      { Settings.standard with rho := 0.5, q := 1e308, ants := 1, iterations := 2 }
    let way : Graph Float := ⟨2, #[0, 0], [(0, [(1, 0.0625)])], [1]⟩
    let c : Colony Int Float := ((fresh s).solve way.problem (Script.mk #[0] 0)).run.colony
    s.elitist < 1 <<< 64 ∧ Reachable s c ∧ isFinite (c.pheromone.level 0 1) = false ∧
      ofNat 0 ≤ c.pheromone.level 0 1 := by
  intro s way c
  have hvalid : s.Valid := by decide +kernel
  have hreachable : Reachable s c := .run .inOrder way.problem _ (.new (ofSettings?_eq hvalid))
  have hcount : s.elitist < 1 <<< 64 := by decide
  obtain ⟨⟨-, -, hlevels⟩, -⟩ := levels_stay_nonnegative hcount hreachable
  have hrho : s.rho < ofNat 1 := by decide +kernel
  exact ⟨hcount, hreachable, by decide +kernel, (hlevels hrho).level 0 1⟩

end Colony

end Stigmergy
