import Mathlib.Logic.Relation
import Stigmergy.Graph
import Stigmergy.Proofs.Binary64.Power
import Stigmergy.Proofs.Walk.Path
import Stigmergy.Random.Script

/-!
# What an ant chooses

* `Ant.Chooses`: the candidates that the wheel stops at, one after the other, in states that are no
  goals and offer no cost that breaks the contract.
* `Chooses.walk`: an ant makes these choices with as many of its moves, and has the others left.
* `walk_end`: it makes choices until it stands in a goal, has no move left, or its move fails.
* `walk_ok_iff`, `walk_failure_iff`: so a walk's trail and its failure are told by choices.
* `Problem.walk_returns_choices_or_breach`: a trail is a legal walk with the costs of the candidates
  chosen, a failure names a breach of the contract that a legal walk has come to, and where no state
  within reach breaks the contract there is none.
-/

namespace Stigmergy

open Scalar Stigmergy.Random

variable {S α G : Type} [Ord S] [Std.TransOrd S] [Scalar α] [WordSource G]

/-- Choices made one after the other from a state, by the words of a source, and the state and the
source they lead to. Each is the candidate that the wheel stops at, of a state that is no goal and
where no candidate's cost breaks the contract. -/
inductive Ant.Chooses (p : Problem S α) (guide : Guide S α) :
    S → G → List (S × α) → S → G → Prop where
  | none {s : S} {g : G} : Chooses p guide s g [] s g
  | next {s t : S} {g g₁ g' : G} {candidates choices : List (S × α)} {i : Nat} {choice : S × α}
      (hopen : p.isGoal s = false) (hsuccessors : p.successors s = some candidates)
      (hvalid : ∀ c ∈ candidates, Ant.isInvalid c.2 = false)
      (hspin : Walk.Roulette.spin (Ant.weigh guide s candidates) g = (.ok i, g₁))
      (hchoice : candidates[i]? = some choice) (hrest : Chooses p guide choice.1 g₁ choices t g') :
      Chooses p guide s g (choice :: choices) t g'

variable {p : Problem S α} {guide : Guide S α} {s t : S} {g g₁ g' : G} {choices : List (S × α)}
  {moves : Nat} {ant : Ant S α} {trail : Trail S α} {v : Violation S α}

namespace Ant

def follow (ant : Ant S α) (choices : List (S × α)) : Ant S α := choices.foldl goTo ant

omit [Ord S] [Std.TransOrd S] in
@[simp]
theorem follow_nil (ant : Ant S α) : ant.follow [] = ant := rfl

omit [Ord S] [Std.TransOrd S] in
@[simp]
theorem follow_cons (ant : Ant S α) (choice : S × α) (choices : List (S × α)) :
    ant.follow (choice :: choices) = (ant.goTo choice).follow choices := rfl

omit [Ord S] [Std.TransOrd S] in
/-- The states chosen come behind those before, and the costs chosen are added in order. -/
theorem trail_follow (ant : Ant S α) (choices : List (S × α)) :
    (ant.follow choices).trail =
      ⟨ant.trail.path ++ choices.map Prod.fst,
        (choices.map Prod.snd).foldl (· + ·) ant.cost⟩ := by
  induction choices generalizing ant with
  | nil => simp [trail]
  | cons choice choices ih =>
    rw [follow_cons, ih]
    simp [trail, goTo]

omit [Ord S] [Std.TransOrd S] in
theorem length_behind_follow (ant : Ant S α) (choices : List (S × α)) :
    (ant.follow choices).behind.length = ant.behind.length + choices.length := by
  induction choices generalizing ant with
  | nil => rfl
  | cons choice choices ih =>
    rw [follow_cons, ih]
    simp only [goTo, List.length_cons]
    omega

namespace Chooses

/-- **An ant makes its choices** with as many moves, and has the others left. -/
theorem walk (h : Chooses p guide s g choices t g') (hhere : ant.here = s) (moves : Nat) :
    (ant.follow choices).here = t ∧
      Ant.walk p guide (choices.length + moves) ant g =
        Ant.walk p guide moves (ant.follow choices) g' := by
  induction h generalizing ant with
  | none => exact ⟨hhere, by simp⟩
  | @next s t g g₁ g' candidates choices i choice hopen hsuccessors hvalid hspin hchoice _ ih =>
    subst hhere
    have hmove : ant.step p guide g = (.ok (ant.goTo choice), g₁) :=
      step_ok_iff.mpr ⟨candidates, i, choice, hsuccessors, hvalid, hspin, hchoice, rfl⟩
    obtain ⟨hlast, hwalk⟩ := ih (show (ant.goTo choice).here = choice.1 from rfl)
    refine ⟨hlast, ?_⟩
    rw [List.length_cons, Nat.add_right_comm, walk_of_open hopen hmove, hwalk, follow_cons]

/-- The states that are left behind are no goals, and no candidate's cost there breaks the
contract. -/
theorem left_behind (h : Chooses p guide s g choices t g') :
    ∀ u ∈ (s :: choices.map Prod.fst).dropLast, p.isGoal u = false ∧
      ∃ candidates, p.successors u = some candidates ∧ ∀ c ∈ candidates, isInvalid c.2 = false := by
  induction h with
  | none => simp
  | @next s t g g₁ g' candidates choices i choice hopen hsuccessors hvalid _ _ _ ih =>
    rw [List.map_cons, List.dropLast_cons_cons]
    exact List.forall_mem_cons.mpr ⟨⟨hopen, candidates, hsuccessors, hvalid⟩, ih⟩

/-- The choices lead on by moves. -/
theorem reaches (h : Chooses p guide s g choices t g') : Relation.ReflTransGen p.Moves s t := by
  induction h with
  | none => exact .refl
  | @next s t g g₁ g' candidates choices i choice hopen hsuccessors _ _ hchoice _ ih =>
    have hmove : p.Moves s choice.1 :=
      ⟨hopen, candidates, choice.2, hsuccessors, List.mem_of_getElem? hchoice⟩
    exact .head hmove ih

end Chooses

/-- **An ant makes choices** until it stands in a goal, has no move left, or its move fails. -/
theorem walk_end (p : Problem S α) (guide : Guide S α) (moves : Nat) (ant : Ant S α) (g : G) :
    ∃ choices g₁, Chooses p guide ant.here g choices (ant.follow choices).here g₁ ∧
      (p.isGoal (ant.follow choices).here = true ∧ choices.length ≤ moves ∧
          Ant.walk p guide moves ant g = (.ok (ant.follow choices).trail, g₁) ∨
        Ant.walk p guide moves ant g = (.error (.fault .endlessWalk), g₁) ∨
        p.isGoal (ant.follow choices).here = false ∧ choices.length < moves ∧ ∃ halt g₂,
          (ant.follow choices).step p guide g₁ = (.error halt, g₂) ∧
            Ant.walk p guide moves ant g = (.error halt, g₂)) := by
  induction moves generalizing ant g with
  | zero =>
    refine ⟨[], g, .none, ?_⟩
    cases hgoal : p.isGoal ant.here with
    | true => exact .inl ⟨hgoal, Nat.le_refl 0, walk_of_goal hgoal⟩
    | false => exact .inr (.inl (by simp [walk, hgoal]))
  | succ moves ih =>
    cases hgoal : p.isGoal ant.here with
    | true => exact ⟨[], g, .none, .inl ⟨hgoal, Nat.zero_le _, walk_of_goal hgoal⟩⟩
    | false =>
      cases hmove : ant.step p guide g with
      | mk result g₁ =>
        cases result with
        | error halt =>
          have hwalk : Ant.walk p guide (moves + 1) ant g = (.error halt, g₁) := by
            simp [walk, hgoal, hmove]
          exact ⟨[], g, .none, .inr (.inr ⟨hgoal, Nat.succ_pos _, halt, g₁, hmove, hwalk⟩)⟩
        | ok next =>
          rw [walk_of_open hgoal hmove]
          obtain ⟨candidates, i, choice, hsuccessors, hvalid, hspin, hchoice, rfl⟩ :=
            step_ok_iff.mp hmove
          obtain ⟨choices, g₂, hchooses, hend⟩ := ih (ant.goTo choice) g₁
          refine ⟨choice :: choices, g₂, .next hgoal hsuccessors hvalid hspin hchoice hchooses, ?_⟩
          simpa only [follow_cons, List.length_cons, Nat.add_le_add_iff_right,
            Nat.add_lt_add_iff_right] using hend

/-- A walk gives the trail of the choices that lead to a goal. -/
theorem walk_ok_iff :
    Ant.walk p guide moves ant g = (.ok trail, g') ↔
      ∃ choices last, Chooses p guide ant.here g choices last g' ∧ p.isGoal last = true ∧
        choices.length ≤ moves ∧ trail = (ant.follow choices).trail := by
  constructor
  · intro h
    obtain ⟨choices, g₁, hchooses, ⟨hgoal, hle, hend⟩ | hend | ⟨-, -, _, _, -, hend⟩⟩ :=
      walk_end p guide moves ant g
    · rw [hend] at h
      cases h
      exact ⟨choices, _, hchooses, hgoal, hle, rfl⟩
    · rw [hend] at h
      cases h
    · rw [hend] at h
      cases h
  · rintro ⟨choices, last, hchooses, hgoal, hle, rfl⟩
    obtain ⟨left, rfl⟩ := Nat.exists_eq_add_of_le hle
    obtain ⟨rfl, hwalk⟩ := hchooses.walk rfl left
    rw [hwalk, walk_of_goal hgoal]

/-- A walk fails where the choices lead to a state that breaks the contract. -/
theorem walk_failure_iff :
    Ant.walk p guide moves ant g = (.error (.failure v), g') ↔
      ∃ choices last, Chooses p guide ant.here g choices last g' ∧ p.isGoal last = false ∧
        choices.length < moves ∧ p.Breaks last (ant.behind.length + choices.length) v := by
  constructor
  · intro h
    obtain ⟨choices, g₁, hchooses, ⟨-, -, hend⟩ | hend | ⟨hopen, hlt, halt, g₂, hmove, hend⟩⟩ :=
      walk_end p guide moves ant g
    · rw [hend] at h
      cases h
    · rw [hend] at h
      cases h
    · rw [hend] at h
      cases h
      obtain ⟨hbreaks, rfl⟩ := step_failure_iff.mp hmove
      rw [length_behind_follow] at hbreaks
      exact ⟨choices, _, hchooses, hopen, hlt, hbreaks⟩
  · rintro ⟨choices, last, hchooses, hopen, hlt, hbreaks⟩
    obtain ⟨left, rfl⟩ := Nat.exists_eq_add_of_lt hlt
    obtain ⟨rfl, hwalk⟩ := hchooses.walk rfl (left + 1)
    rw [← length_behind_follow] at hbreaks
    have hmove : (ant.follow choices).step p guide g' = (.error (.failure v), g') :=
      step_failure_iff.mpr ⟨hbreaks, rfl⟩
    rw [Nat.add_assoc, hwalk]
    simp [walk, hopen, hmove]

end Ant

namespace Problem

/-- No state that can be reached breaks the contract: unless it is a goal, it offers candidates, at
costs that are numbers and not negative. -/
def KeepsContract (p : Problem S α) (start : S) : Prop :=
  ∀ s candidates, Relation.ReflTransGen p.Moves start s → p.isGoal s = false →
    p.successors s = some candidates → candidates ≠ [] ∧ ∀ c ∈ candidates, ofNat 0 ≤ c.2

omit [Ord S] [Std.TransOrd S] in
theorem KeepsContract.not_breaks [Rounded α] (h : p.KeepsContract s)
    (hreach : Relation.ReflTransGen p.Moves s t) (hopen : p.isGoal t = false) {steps : Nat} :
    ¬p.Breaks t steps v := by
  intro hbreaks
  cases hbreaks with
  | deadEnd hsuccessors => exact (h t [] hreach hopen hsuccessors).1 rfl
  | @invalidCost before after target cost hsuccessors _ hcost =>
    have hvalid := (h t _ hreach hopen hsuccessors).2 (target, cost) (by simp)
    rw [Ant.isInvalid_eq_false_iff.mpr hvalid] at hcost
    cases hcost

omit [Ord S] [Std.TransOrd S] in
/-- The text of a breach names the state without candidates and the number of steps to it, or the
first candidate whose cost is negative or no number. -/
theorem Breaks.text [Rounded α] {steps : Nat} (h : p.Breaks s steps v) :
    p.successors s = some [] ∧ (∀ state number, v.message state number =
        "problem contract violation: no successors from non-goal state " ++ state s ++ " after "
          ++ Nat.repr steps ++ " step(s)") ∨
      ∃ before target cost after, p.successors s = some (before ++ (target, cost) :: after) ∧
        (∀ c ∈ before, ofNat 0 ≤ c.2) ∧ ¬ofNat 0 ≤ cost ∧
        ∀ state number, v.message state number =
          "problem contract violation: edge " ++ state s ++ " -> " ++ state target
            ++ " has invalid cost " ++ number cost := by
  cases h with
  | deadEnd hsuccessors => exact .inl ⟨hsuccessors, fun _ _ => rfl⟩
  | @invalidCost before after target cost hsuccessors hbefore hcost =>
    refine .inr ⟨before, target, cost, after, hsuccessors, ?_, ?_, fun _ _ => rfl⟩
    · exact fun c hc => Ant.isInvalid_eq_false_iff.mp (hbefore c hc)
    · intro hvalid
      rw [Ant.isInvalid_eq_false_iff.mpr hvalid] at hcost
      cases hcost

/-- **A walk returns choices or a breach.** A trail is a legal walk: it begins at the start, ends in
a goal and leaves none behind, every state in it is a candidate of the one before, no candidate
offered on the way has a cost that is negative or no number, and its cost is the sum, in order and
from zero on, of the costs of the candidates that the wheel stopped at. A failure names a state that
such choices have led to, with their number, where there is no candidate, or the first candidate
there whose cost is negative or no number. Where no state within reach breaks the contract, there is
no failure. -/
theorem walk_returns_choices_or_breach [Rounded α] (p : Problem S α) (guide : Guide S α) (start : S)
    (g g' : G) :
    (∀ trail, p.walk guide start g = (.ok trail, g') ↔
      ∃ choices last, Ant.Chooses p guide start g choices last g' ∧ p.isGoal last = true ∧
        choices.length ≤ p.patience ∧ trail.path = start :: choices.map Prod.fst ∧
        trail.cost = (choices.map Prod.snd).foldl (· + ·) (ofNat 0)) ∧
    (∀ trail, p.walk guide start g = (.ok trail, g') →
      p.IsWalk start trail.path ∧ ofNat 0 ≤ trail.cost ∧
      ∀ s ∈ trail.path.dropLast, p.isGoal s = false ∧
        ∃ candidates, p.successors s = some candidates ∧ ∀ c ∈ candidates, ofNat 0 ≤ c.2) ∧
    (∀ v, p.walk guide start g = (.error (.failure v), g') ↔
      ∃ choices last, Ant.Chooses p guide start g choices last g' ∧ p.isGoal last = false ∧
        choices.length < p.patience ∧ p.Breaks last choices.length v) ∧
    (∀ last steps v, p.Breaks last steps v →
      p.successors last = some [] ∧ (∀ state number, v.message state number =
          "problem contract violation: no successors from non-goal state " ++ state last
            ++ " after " ++ Nat.repr steps ++ " step(s)") ∨
        ∃ before target cost after,
          p.successors last = some (before ++ (target, cost) :: after) ∧
          (∀ c ∈ before, ofNat 0 ≤ c.2) ∧ ¬ofNat 0 ≤ cost ∧
          ∀ state number, v.message state number =
            "problem contract violation: edge " ++ state last ++ " -> " ++ state target
              ++ " has invalid cost " ++ number cost) ∧
    (p.KeepsContract start → ∀ v, p.walk guide start g ≠ (.error (.failure v), g')) := by
  have htrail (trail : Trail S α) : p.walk guide start g = (.ok trail, g') ↔
      ∃ choices last, Ant.Chooses p guide start g choices last g' ∧ p.isGoal last = true ∧
        choices.length ≤ p.patience ∧ trail.path = start :: choices.map Prod.fst ∧
        trail.cost = (choices.map Prod.snd).foldl (· + ·) (ofNat 0) := by
    obtain ⟨path, cost⟩ := trail
    unfold Problem.walk
    rw [Ant.walk_ok_iff]
    simp only [Ant.trail_follow, Ant.setOut, Trail.mk.injEq]
    rfl
  have hfailure (v : Violation S α) : p.walk guide start g = (.error (.failure v), g') ↔
      ∃ choices last, Ant.Chooses p guide start g choices last g' ∧ p.isGoal last = false ∧
        choices.length < p.patience ∧ p.Breaks last choices.length v := by
    unfold Problem.walk
    rw [Ant.walk_failure_iff]
    simp only [Ant.setOut, List.length_nil, Nat.zero_add]
  refine ⟨htrail, ?_, hfailure, fun _ _ _ => Breaks.text, ?_⟩
  · intro trail hwalk
    obtain ⟨choices, last, hchooses, -, -, hpath, -⟩ := (htrail trail).mp hwalk
    refine ⟨p.isWalk_of_walk hwalk, trail_cost_nonneg hwalk, ?_⟩
    intro s hs
    rw [hpath] at hs
    obtain ⟨hopen, candidates, hsuccessors, hvalid⟩ := hchooses.left_behind s hs
    exact ⟨hopen, candidates, hsuccessors, fun c hc => Ant.isInvalid_eq_false_iff.mp (hvalid c hc)⟩
  · intro hkeeps v hwalk
    obtain ⟨choices, last, hchooses, hopen, -, hbreaks⟩ := (hfailure v).mp hwalk
    exact hkeeps.not_breaks hchooses.reaches hopen hbreaks

/-- Of two ways to the goal at different costs, the second one is taken at its own cost, and no walk
from there fails; from another start the last candidate is the first whose cost is negative. -/
theorem walk_returns_choices_on_two_ways :
    let _ : Scalar Float := Binary64.withPower Binary64.sketchedPower
    let ways : Graph Float := ⟨2, #[0, 1], [(0, [(2, 2), (2, 5)]), (1, [(0, 1), (3, -1)])], [2]⟩
    let guide : Guide Int Float := ⟨.uniform 0.5, 1, 1⟩
    let source := Script.mk #[0xFFFFFFFFFFFFFFFF] 0
    ways.problem.walk guide 0 source = (.ok ⟨[0, 2], 5⟩, ⟨source.words, 1⟩) ∧
      (ways.problem.IsWalk 0 [0, 2] ∧ ofNat 0 ≤ (5 : Float)) ∧
      (∃ choices last, Ant.Chooses ways.problem guide 0 source choices last ⟨source.words, 1⟩ ∧
        [0, 2] = 0 :: choices.map Prod.fst ∧
        5 = (choices.map Prod.snd).foldl (· + ·) (ofNat 0)) ∧
      ways.problem.walk guide 1 source = (.error (.failure (.invalidCost 1 3 (-1))), source) ∧
      (∃ choices last, Ant.Chooses ways.problem guide 1 source choices last source ∧
        ways.problem.Breaks last choices.length (.invalidCost 1 3 (-1))) ∧
      ways.problem.KeepsContract 0 ∧
      ∀ v, ways.problem.walk guide 0 source ≠ (.error (.failure v), ⟨source.words, 1⟩) := by
  intro _ ways guide source
  let _ := Binary64.rounded_withPower Binary64.sketchedPower
  have hwalk : ways.problem.walk guide 0 source = (.ok ⟨[0, 2], 5⟩, ⟨source.words, 1⟩) := by
    decide +kernel
  have hfails : ways.problem.walk guide 1 source =
      (.error (.failure (.invalidCost 1 3 (-1))), source) := by decide +kernel
  have hgoal : ways.problem.isGoal 2 = true := by decide +kernel
  have hways : ways.problem.successors 0 = some [(2, 2), (2, 5)] := by decide +kernel
  have hreached (s : Int) (h : Relation.ReflTransGen ways.problem.Moves 0 s) : s = 0 ∨ s = 2 := by
    induction h with
    | refl => exact .inl rfl
    | tail _ hmove ih =>
      obtain ⟨hopen, candidates, cost, hsuccessors, hmem⟩ := hmove
      rcases ih with rfl | rfl
      · cases hways.symm.trans hsuccessors
        rcases List.mem_pair.mp hmem with heq | heq
        · exact .inr (Prod.mk.inj heq).1
        · exact .inr (Prod.mk.inj heq).1
      · cases hgoal.symm.trans hopen
  have hkeeps : ways.problem.KeepsContract 0 := by
    intro s candidates hreach hopen hsuccessors
    rcases hreached s hreach with rfl | rfl
    · cases hways.symm.trans hsuccessors
      exact ⟨List.cons_ne_nil _ _, by decide +kernel⟩
    · cases hgoal.symm.trans hopen
  obtain ⟨htrail, hlegal, -, -, hnone⟩ :=
    walk_returns_choices_or_breach ways.problem guide 0 source ⟨source.words, 1⟩
  obtain ⟨-, -, hfailure, -, -⟩ :=
    walk_returns_choices_or_breach ways.problem guide 1 source source
  obtain ⟨choices, last, hchooses, -, -, hpath, hcost⟩ := (htrail _).mp hwalk
  obtain ⟨hisWalk, hnonneg, -⟩ := hlegal _ hwalk
  obtain ⟨failing, bad, hfailing, -, -, hbreaks⟩ := (hfailure _).mp hfails
  exact ⟨hwalk, ⟨hisWalk, hnonneg⟩, ⟨choices, last, hchooses, hpath, hcost⟩, hfails,
    ⟨failing, bad, hfailing, hbreaks⟩, hkeeps, hnone hkeeps⟩

end Problem

end Stigmergy
