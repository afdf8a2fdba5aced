import Stigmergy.Proofs.Walk.Wheel
import Stigmergy.Walk.Ant

/-!
# What a walk keeps

* `Problem.Breaks`: how a state breaks the contract.
* `Ant.step_ok_iff`, `Ant.step_failure_iff`, `Ant.step_error`: everything that a move can do.
* `Ant.step_invalidCost_iff`: it fails at a cost only where one is negative or no number.
* `Ant.walk_ok`, `Ant.walk_error`: what every move keeps holds of the ant that stands in the goal,
  and of the one whose move fails.
* `Ant.step_total`, `Ant.step_of_single`, `Ant.walk_total`: an ant that always has a way on, and
  ever less of it, gets to a goal.
* `Problem.trail_nonempty`, `Problem.trail_cost_nonneg`: every trail has a state, and a cost that is
  a number and not negative.
-/

namespace Stigmergy

open Scalar Stigmergy.Random

variable {S α G : Type} [Ord S] [Std.TransOrd S] [Scalar α] [WordSource G]
  {p : Problem S α} {guide : Guide S α}

/-- How a state breaks the contract under an ant that has come there in so many steps: it offers no
candidate, or some whose costs are negative or no number, and then the first of them counts. -/
inductive Problem.Breaks (p : Problem S α) (s : S) (steps : Nat) : Violation S α → Prop where
  | deadEnd (hsuccessors : p.successors s = some []) : Breaks p s steps (.deadEnd s steps)
  | invalidCost {before after : List (S × α)} {target : S} {cost : α}
      (hsuccessors : p.successors s = some (before ++ (target, cost) :: after))
      (hbefore : ∀ c ∈ before, Ant.isInvalid c.2 = false) (hcost : Ant.isInvalid cost = true) :
      Breaks p s steps (.invalidCost s target cost)

namespace Ant

omit [Ord S] [Std.TransOrd S] in
/-- A cost that does not break the contract is a number and not negative. -/
theorem isInvalid_eq_false_iff [Rounded α] {cost : α} :
    isInvalid cost = false ↔ ofNat 0 ≤ cost := by
  simp only [isInvalid, Bool.or_eq_false_iff, decide_eq_false_iff_not]
  constructor
  · rintro ⟨hnumber, hnot⟩
    exact Rounded.nonneg_of_notNegative hnot hnumber
  · intro hcost
    exact ⟨(Rounded.number_of_le hcost).2, Rounded.not_lt_of_ge hcost⟩

/-- **A move goes where the wheel stops**, from a state in which no candidate's cost breaks the
contract. -/
theorem step_ok_iff {ant next : Ant S α} {g g' : G} :
    ant.step p guide g = (.ok next, g') ↔
      ∃ candidates i candidate, p.successors ant.here = some candidates ∧
        (∀ c ∈ candidates, isInvalid c.2 = false) ∧
        Walk.Roulette.spin (weigh guide ant.here candidates) g = (.ok i, g') ∧
        candidates[i]? = some candidate ∧ next = ant.goTo candidate := by
  constructor
  · intro h
    unfold step at h
    split at h
    · cases h
    · cases h
    · next candidates _ hsuccessors =>
      split at h
      · cases h
      · next hvalid =>
        split at h
        · cases h
        · next i g'' hspin =>
          split at h
          · next candidate hcandidate =>
            cases h
            refine ⟨candidates, i, candidate, hsuccessors, ?_, hspin, hcandidate, rfl⟩
            intro c hc
            simpa using List.find?_eq_none.mp hvalid c hc
          · cases h
  · rintro ⟨candidates, i, candidate, hsuccessors, hvalid, hspin, hcandidate, rfl⟩
    cases candidates with
    | nil => cases hcandidate
    | cons first others =>
      have hnone : (first :: others).find? (fun c => isInvalid c.2) = none :=
        List.find?_eq_none.mpr fun c hc => by simp [hvalid c hc]
      simp only [step, hsuccessors, hnone, hspin, hcandidate]

/-- A move goes to a candidate, and no candidate's cost breaks the contract. -/
theorem step_ok {ant next : Ant S α} {g g' : G} (h : ant.step p guide g = (.ok next, g')) :
    ∃ candidates candidate, p.successors ant.here = some candidates ∧ candidate ∈ candidates ∧
      (∀ c ∈ candidates, isInvalid c.2 = false) ∧ next = ant.goTo candidate := by
  obtain ⟨candidates, i, candidate, hsuccessors, hvalid, -, hcandidate, hnext⟩ := step_ok_iff.mp h
  exact ⟨candidates, candidate, hsuccessors, List.mem_of_getElem? hcandidate, hvalid, hnext⟩

/-- **A move fails where the contract is broken**, before a word is drawn. -/
theorem step_failure_iff {ant : Ant S α} {g g' : G} {v : Violation S α} :
    ant.step p guide g = (.error (.failure v), g') ↔
      p.Breaks ant.here ant.behind.length v ∧ g' = g := by
  constructor
  · intro h
    unfold step at h
    split at h
    · cases h
    · next hsuccessors =>
      cases h
      exact ⟨.deadEnd hsuccessors, rfl⟩
    · next candidates _ hsuccessors =>
      split at h
      · next target cost hfound =>
        cases h
        obtain ⟨hcost, before, after, rfl, hbefore⟩ := List.find?_eq_some_iff_append.mp hfound
        exact ⟨.invalidCost hsuccessors (fun c hc => by simpa using hbefore c hc) hcost, rfl⟩
      · split at h
        · cases h
        · split at h <;> cases h
  · rintro ⟨hbreaks, rfl⟩
    cases hbreaks with
    | deadEnd hsuccessors => simp [step, hsuccessors]
    | @invalidCost before after target cost hsuccessors hbefore hcost =>
      have hfound : (before ++ (target, cost) :: after).find? (fun c => isInvalid c.2) =
          some (target, cost) :=
        List.find?_eq_some_iff_append.mpr
          ⟨hcost, before, after, rfl, fun c hc => by simp [hbefore c hc]⟩
      cases before with
      | nil =>
        simp only [List.nil_append] at hsuccessors hfound
        simp only [step, hsuccessors, hfound]
      | cons first before =>
        simp only [List.cons_append] at hsuccessors hfound
        simp only [step, hsuccessors, hfound]

/-- A move fails by a breach of the contract, on the wheel, or at a state without a name. -/
theorem step_error {ant : Ant S α} {g g' : G} {halt : Halt (Violation S α)}
    (h : ant.step p guide g = (.error halt, g')) :
    (∃ v, halt = .failure v) ∨ halt = .fault .emptyRange ∨ halt = .fault .unknownState := by
  unfold step at h
  split at h
  · cases h
    exact .inr (.inr rfl)
  · cases h
    exact .inl ⟨_, rfl⟩
  · split at h
    · cases h
      exact .inl ⟨_, rfl⟩
    · split at h
      · next hspin =>
        cases h
        rw [Walk.Roulette.spin_error hspin]
        exact .inr (.inl rfl)
      · split at h
        · cases h
        · cases h
          exact .inr (.inr rfl)

/-- A move fails at a cost if and only if a candidate's cost is negative or no number. -/
theorem step_invalidCost_iff (guide : Guide S α) (ant : Ant S α) (g : G)
    {candidates : List (S × α)} (hsuccessors : p.successors ant.here = some candidates) :
    (∃ target cost, (ant.step p guide g).1 =
      .error (.failure (.invalidCost ant.here target cost))) ↔
      ∃ c ∈ candidates, isInvalid c.2 = true := by
  constructor
  · rintro ⟨target, cost, hstep⟩
    obtain ⟨hbreaks, -⟩ := step_failure_iff.mp (Prod.ext hstep rfl)
    cases hbreaks with
    | invalidCost hfirst _ hcost =>
      obtain rfl := Option.some.inj (hsuccessors.symm.trans hfirst)
      exact ⟨_, List.mem_append_right _ List.mem_cons_self, hcost⟩
  · rintro ⟨c, hc, hbad⟩
    cases hfound : candidates.find? fun c => isInvalid c.2 with
    | none => exact absurd hbad (List.find?_eq_none.mp hfound c hc)
    | some first =>
      obtain ⟨hcost, before, after, rfl, hbefore⟩ := List.find?_eq_some_iff_append.mp hfound
      have hbreaks : p.Breaks ant.here ant.behind.length (.invalidCost ant.here first.1 first.2) :=
        .invalidCost hsuccessors (fun c hc => by simpa using hbefore c hc) hcost
      exact ⟨first.1, first.2, congrArg Prod.fst (step_failure_iff.mpr ⟨hbreaks, rfl⟩)⟩

variable {P : Ant S α → Prop}

/-- What every move keeps, the ant in the goal has kept. -/
theorem walk_ok (hstep : ∀ {ant next : Ant S α} {g g' : G}, P ant → p.isGoal ant.here = false →
      ant.step p guide g = (.ok next, g') → P next)
    {moves : Nat} {ant : Ant S α} {g g' : G} {trail : Trail S α} (hant : P ant)
    (h : Ant.walk p guide moves ant g = (.ok trail, g')) :
    ∃ last, P last ∧ p.isGoal last.here = true ∧ trail = last.trail := by
  induction moves generalizing ant g with
  | zero =>
    unfold walk at h
    by_cases hgoal : p.isGoal ant.here = true
    · rw [if_pos hgoal] at h
      cases h
      exact ⟨ant, hant, hgoal, rfl⟩
    · rw [if_neg hgoal] at h
      cases h
  | succ moves ih =>
    unfold walk at h
    by_cases hgoal : p.isGoal ant.here = true
    · rw [if_pos hgoal] at h
      cases h
      exact ⟨ant, hant, hgoal, rfl⟩
    · rw [if_neg hgoal] at h
      split at h
      · cases h
      · next hmove => exact ih (hstep hant (by simpa using hgoal) hmove) h

/-- A walk without a trail fails in a move of an ant that has kept what moves keep, or goes on for
too long. -/
theorem walk_error (hstep : ∀ {ant next : Ant S α} {g g' : G}, P ant → p.isGoal ant.here = false →
      ant.step p guide g = (.ok next, g') → P next)
    {moves : Nat} {ant : Ant S α} {g g' : G} {halt : Halt (Violation S α)} (hant : P ant)
    (h : Ant.walk p guide moves ant g = (.error halt, g')) :
    (∃ last g, P last ∧ p.isGoal last.here = false ∧
      (last.step p guide g : _ × G) = (.error halt, g')) ∨ halt = .fault .endlessWalk := by
  induction moves generalizing ant g with
  | zero =>
    unfold walk at h
    by_cases hgoal : p.isGoal ant.here = true
    · rw [if_pos hgoal] at h
      cases h
    · rw [if_neg hgoal] at h
      cases h
      exact .inr rfl
  | succ moves ih =>
    unfold walk at h
    by_cases hgoal : p.isGoal ant.here = true
    · rw [if_pos hgoal] at h
      cases h
    · rw [if_neg hgoal] at h
      split at h
      · next hmove =>
        cases h
        exact .inl ⟨ant, g, hant, by simpa using hgoal, hmove⟩
      · next hmove => exact ih (hstep hant (by simpa using hgoal) hmove) h

/-- An ant moves on to a candidate, if there is one and no cost or level of pheromone is wrong. -/
theorem step_total [Rounded α] (hpow : Walk.PowerKeepsSign α)
    (hlevels : ∀ source target, NotNegative (guide.pheromone.level source target))
    (halpha : ofNat 0 ≤ guide.alpha) (hbeta : ofNat 0 ≤ guide.beta) {ant : Ant S α}
    {candidates : List (S × α)} (hsuccessors : p.successors ant.here = some candidates)
    (hne : candidates ≠ []) (hcosts : ∀ c ∈ candidates, ofNat 0 ≤ c.2) (g : G) :
    ∃ candidate ∈ candidates, ∃ g', ant.step p guide g = (.ok (ant.goTo candidate), g') := by
  have hvalid : ∀ c ∈ candidates, isInvalid c.2 = false := fun c hc =>
    isInvalid_eq_false_iff.mpr (hcosts c hc)
  have hweights : ∀ w ∈ weigh guide ant.here candidates, ofNat 0 ≤ w := by
    intro w hw
    obtain ⟨c, hc, rfl⟩ := List.mem_map.mp hw
    exact Walk.desirability_nonneg hpow (hlevels _ _) (hcosts c hc) halpha hbeta
  have hsome : weigh guide ant.here candidates ≠ [] := by
    intro hnil
    exact hne (List.map_eq_nil_iff.mp hnil)
  obtain ⟨i, g', hspin, hlt⟩ := Walk.Roulette.spin_ok hsome hweights g
  have hi : i < candidates.length := by simpa [weigh] using hlt
  refine ⟨candidates[i], List.getElem_mem hi, g', ?_⟩
  unfold step
  rw [hsuccessors]
  split
  · next hnone => cases hnone
  · next hnil => exact absurd (Option.some.inj hnil) hne
  · next others _ hothers =>
    obtain rfl := Option.some.inj hothers
    split
    · next hfound =>
      have hinvalid := List.find?_some hfound
      have hmem := List.mem_of_find?_eq_some hfound
      exact absurd (hvalid _ hmem) (by simpa using hinvalid)
    · rw [hspin]
      dsimp only
      rw [List.getElem?_eq_getElem hi]

/-- A single candidate is taken, whatever the pheromone, and no word is drawn. -/
theorem step_of_single {ant : Ant S α} {candidate : S × α}
    (hsuccessors : p.successors ant.here = some [candidate])
    (hvalid : isInvalid candidate.2 = false) (g : G) :
    ant.step p guide g = (.ok (ant.goTo candidate), g) := by
  have hspin : Walk.Roulette.spin (weigh guide ant.here [candidate]) g = (.ok 0, g) := if_pos rfl
  exact step_ok_iff.mpr ⟨_, 0, candidate, hsuccessors, by simpa using hvalid, hspin, rfl, rfl⟩

/-- An ant that always has a move which brings it closer arrives, if it may take as many moves as it
is away from the goal. -/
theorem walk_total {distance : S → Nat}
    (hstep : ∀ (ant : Ant S α) (g : G), P ant → p.isGoal ant.here = false →
      ∃ next g', ant.step p guide g = (.ok next, g') ∧ P next ∧
        distance next.here < distance ant.here)
    {moves : Nat} {ant : Ant S α} {g : G} (hmoves : distance ant.here ≤ moves) (hant : P ant) :
    ∃ last g', Ant.walk p guide moves ant g = (.ok last.trail, g') ∧ P last ∧
      p.isGoal last.here = true := by
  induction moves generalizing ant g with
  | zero =>
    unfold walk
    by_cases hgoal : p.isGoal ant.here = true
    · rw [if_pos hgoal]
      exact ⟨ant, g, rfl, hant, hgoal⟩
    · obtain ⟨next, -, -, -, hcloser⟩ := hstep ant g hant (by simpa using hgoal)
      omega
  | succ moves ih =>
    unfold walk
    by_cases hgoal : p.isGoal ant.here = true
    · rw [if_pos hgoal]
      exact ⟨ant, g, rfl, hant, hgoal⟩
    · rw [if_neg hgoal]
      obtain ⟨next, g', hmove, hnext, hcloser⟩ := hstep ant g hant (by simpa using hgoal)
      rw [hmove]
      exact ih (by omega) hnext

end Ant

namespace Problem

theorem trail_nonempty {start : S} {g g' : G} {trail : Trail S α}
    (h : p.walk guide start g = (.ok trail, g')) : trail.path ≠ [] := by
  obtain ⟨last, -, -, rfl⟩ := Ant.walk_ok (P := fun _ => True) (fun _ _ _ => trivial) trivial h
  simp [Ant.trail]

theorem trail_cost_nonneg [Rounded α] {start : S} {g g' : G} {trail : Trail S α}
    (h : p.walk guide start g = (.ok trail, g')) : ofNat 0 ≤ trail.cost := by
  have hstep {ant next : Ant S α} {g g' : G} (hant : ofNat 0 ≤ ant.cost)
      (_ : p.isGoal ant.here = false) (h : ant.step p guide g = (.ok next, g')) :
      ofNat 0 ≤ next.cost := by
    obtain ⟨candidates, candidate, -, hmem, hvalid, rfl⟩ := Ant.step_ok h
    exact Rounded.add_nonneg hant (Ant.isInvalid_eq_false_iff.mp (hvalid candidate hmem))
  obtain ⟨last, hlast, -, rfl⟩ := Ant.walk_ok (P := fun ant => ofNat 0 ≤ ant.cost) hstep
    (Rounded.le_refl Rounded.number_zero) h
  exact hlast

/-- A walk never ends at a band in disorder. -/
theorem walk_fault_ne {start : S} {g g' : G}
    (h : p.walk guide start g = (.error (.fault .invertedBand), g')) : False := by
  rcases Ant.walk_error (P := fun _ => True) (fun _ _ _ => trivial) trivial h with
    ⟨last, g, -, -, hmove⟩ | hendless
  · rcases Ant.step_error hmove with ⟨v, hv⟩ | hempty | hunknown
    · cases hv
    · cases hempty
    · cases hunknown
  · cases hendless

end Problem

end Stigmergy
