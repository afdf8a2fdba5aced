import Mathlib.Data.List.Chain
import Stigmergy.Proofs.Walk.Steps

/-!
# The ways through a problem

* `consecutive_append_cons`: the steps of a way are those up to a state and those from it.
* `Problem.Moves`: the moves from a state that is no goal to its candidates.
* `Problem.IsPath`, `Problem.IsWalk`: ways by such moves, and those that have come to a goal.
* `Problem.isWalk_of_walk`: an ant's trail is a walk.
* `Ant.walk_iff_le`: an ant that arrives has made one move for every further state of its trail, and
  takes no notice of those that it had left.
-/

namespace Stigmergy

open Scalar Stigmergy.Random

section Consecutive

variable {S : Type} {path : List S} {s t : S}

@[simp]
theorem consecutive_singleton (s : S) : consecutive [s] = [] := rfl

@[simp]
theorem consecutive_cons_cons (s t : S) (path : List S) :
    consecutive (s :: t :: path) = (s, t) :: consecutive (t :: path) := rfl

/-- The steps of a way are those up to a place and those from it. -/
theorem consecutive_append_cons (before : List S) (s : S) (after : List S) :
    consecutive (before ++ s :: after) =
      consecutive (before ++ [s]) ++ consecutive (s :: after) := by
  induction before with
  | nil => simp
  | cons first rest ih =>
    cases rest with
    | nil => simp
    | cons second rest =>
      simp only [List.cons_append, consecutive_cons_cons] at ih ⊢
      rw [ih]

theorem mem_of_mem_consecutive (h : (s, t) ∈ consecutive path) : s ∈ path ∧ t ∈ path := by
  obtain ⟨hs, ht⟩ := List.of_mem_zip h
  exact ⟨hs, List.mem_of_mem_tail ht⟩

/-- Consecutive states of a chain are related. -/
theorem rel_of_mem_consecutive {R : S → S → Prop} (h : path.IsChain R)
    (hmem : (s, t) ∈ consecutive path) : R s t := by
  induction path with
  | nil => cases hmem
  | cons first rest ih =>
    cases rest with
    | nil => cases hmem
    | cons second rest =>
      rw [List.isChain_cons_cons] at h
      rw [consecutive_cons_cons] at hmem
      cases List.mem_cons.mp hmem with
      | inl heq =>
        cases heq
        exact h.1
      | inr hrest => exact ih h.2 hrest

end Consecutive

namespace Problem

variable {S α : Type} {p : Problem S α} {s t : S} {path : List S}

/-- There is a move from a state that is no goal to each of its candidates. -/
def Moves (p : Problem S α) (s t : S) : Prop :=
  p.isGoal s = false ∧
    ∃ candidates cost, p.successors s = some candidates ∧ (t, cost) ∈ candidates

/-- States from the given one on, with a move from each to the next one. -/
def IsPath (p : Problem S α) (s : S) (path : List S) : Prop :=
  path.head? = some s ∧ path.IsChain p.Moves

/-- A path to a goal. It has come through none before, as no move leads on from there. -/
def IsWalk (p : Problem S α) (s : S) (path : List S) : Prop :=
  p.IsPath s path ∧ ∃ last, path.getLast? = some last ∧ p.isGoal last = true

theorem isPath_cons_iff {rest : List S} :
    p.IsPath s (t :: rest) ↔ t = s ∧ (rest = [] ∨ ∃ next, p.Moves s next ∧ p.IsPath next rest) := by
  unfold IsPath
  cases rest with
  | nil => simp
  | cons next rest =>
    simp only [List.head?_cons, Option.some.injEq, List.isChain_cons_cons, reduceCtorEq, false_or]
    constructor
    · intro ⟨hts, hmove, hchain⟩
      subst hts
      exact ⟨rfl, next, hmove, rfl, hchain⟩
    · intro ⟨hts, found, hmove, hnext, hchain⟩
      subst hts hnext
      exact ⟨rfl, hmove, hchain⟩

theorem isWalk_singleton (h : p.isGoal s = true) : p.IsWalk s [s] :=
  ⟨⟨rfl, .singleton s⟩, s, rfl, h⟩

/-- A walk goes on from a state until it is a goal. -/
theorem isWalk_cons_iff {rest : List S} :
    p.IsWalk s (t :: rest) ↔ t = s ∧ (rest = [] ∧ p.isGoal s = true ∨
      ∃ next, p.Moves s next ∧ p.IsWalk next rest) := by
  unfold IsWalk
  rw [isPath_cons_iff]
  constructor
  · rintro ⟨⟨rfl, hrest⟩, last, hlast, hgoal⟩
    refine ⟨rfl, ?_⟩
    cases hrest with
    | inl hnil =>
      subst hnil
      cases hlast
      exact .inl ⟨rfl, hgoal⟩
    | inr hmove =>
      obtain ⟨next, hmove, hpath⟩ := hmove
      cases rest with
      | nil => cases hpath.1
      | cons => exact .inr ⟨next, hmove, hpath, last, hlast, hgoal⟩
  · rintro ⟨rfl, ⟨rfl, hgoal⟩ | ⟨next, hmove, hpath, last, hlast, hgoal⟩⟩
    · exact ⟨⟨rfl, .inl rfl⟩, t, rfl, hgoal⟩
    · refine ⟨⟨rfl, .inr ⟨next, hmove, hpath⟩⟩, last, ?_, hgoal⟩
      cases rest with
      | nil => cases hlast
      | cons => exact hlast

/-- A path from a goal goes nowhere. -/
theorem path_of_isGoal (h : p.isGoal s = true) (hpath : p.IsPath s path) : path = [s] := by
  cases path with
  | nil => cases hpath.1
  | cons first rest =>
    obtain ⟨rfl, rfl | ⟨next, hmove, -⟩⟩ := isPath_cons_iff.mp hpath
    · rfl
    · have hopen := hmove.1
      rw [h] at hopen
      cases hopen

end Problem

/-! ## Ants -/

variable {S α G : Type} [Ord S] [Std.TransOrd S] [Scalar α] [WordSource G]
  {p : Problem S α} {guide : Guide S α} {moves : Nat} {ant : Ant S α} {g g' : G}
  {trail : Trail S α}

/-- **An ant's trail is a walk** from where it set out. -/
theorem Problem.isWalk_of_walk {start : S} (h : p.walk guide start g = (.ok trail, g')) :
    p.IsWalk start trail.path := by
  let came (ant : Ant S α) : List S := ant.here :: ant.behind
  have hstep {ant next : Ant S α} {g g' : G}
      (hant : (came ant).getLast? = some start ∧ (came ant).IsChain fun t s => p.Moves s t)
      (hopen : p.isGoal ant.here = false) (hmove : ant.step p guide g = (.ok next, g')) :
      (came next).getLast? = some start ∧ (came next).IsChain fun t s => p.Moves s t := by
    obtain ⟨candidates, candidate, hsuccessors, hmem, -, rfl⟩ := Ant.step_ok hmove
    refine ⟨by simpa [came, Ant.goTo] using hant.1, ?_⟩
    exact .cons_cons ⟨hopen, candidates, candidate.2, hsuccessors, hmem⟩ hant.2
  obtain ⟨last, ⟨hstart, hchain⟩, hgoal, rfl⟩ :=
    Ant.walk_ok (P := fun ant => (came ant).getLast? = some start ∧
      (came ant).IsChain fun t s => p.Moves s t) hstep ⟨rfl, .singleton start⟩ h
  refine ⟨⟨?_, List.isChain_reverse.mpr hchain⟩, last.here, ?_, hgoal⟩
  · rw [Ant.trail, List.head?_reverse]
    exact hstart
  · rw [Ant.trail, List.getLast?_reverse]
    rfl

namespace Ant

theorem walk_of_goal (h : p.isGoal ant.here = true) :
    Ant.walk p guide moves ant g = (.ok ant.trail, g) := by
  unfold walk
  cases moves <;> simp [h]

theorem walk_of_open (h : p.isGoal ant.here = false) {next : Ant S α}
    (hmove : ant.step p guide g = (.ok next, g')) :
    Ant.walk p guide (moves + 1) ant g = Ant.walk p guide moves next g' := by
  simp [walk, h, hmove]

/-- An ant that arrives is in the goal, or has a move left for its next step. -/
theorem walk_cases (h : Ant.walk p guide moves ant g = (.ok trail, g')) :
    (p.isGoal ant.here = true ∧ trail = ant.trail ∧ g' = g) ∨
      p.isGoal ant.here = false ∧ ∃ fewer next g₁, moves = fewer + 1 ∧
        ant.step p guide g = (.ok next, g₁) ∧ Ant.walk p guide fewer next g₁ = (.ok trail, g') := by
  by_cases hgoal : p.isGoal ant.here = true
  · rw [walk_of_goal hgoal] at h
    cases h
    exact .inl ⟨hgoal, rfl, rfl⟩
  · refine .inr ⟨by simpa using hgoal, ?_⟩
    cases moves with
    | zero => simp [walk, hgoal] at h
    | succ fewer =>
      cases hmove : ant.step p guide g with
      | mk result g₁ =>
        cases result with
        | error halt => simp [walk, hgoal, hmove] at h
        | ok next => exact ⟨fewer, next, g₁, rfl, rfl, by simpa [walk, hgoal, hmove] using h⟩

/-- **An ant that arrives has made one move for every further state** of its trail. So many moves
are needed, and more of them change nothing. -/
theorem walk_iff_le (h : Ant.walk p guide moves ant g = (.ok trail, g')) :
    ∃ made, trail.path.length = ant.behind.length + 1 + made ∧
      ∀ moves, Ant.walk p guide moves ant g = (.ok trail, g') ↔ made ≤ moves := by
  induction moves generalizing ant g with
  | zero =>
    obtain ⟨hgoal, rfl, rfl⟩ | ⟨-, fewer, next, g₁, hzero, -⟩ := walk_cases h
    · exact ⟨0, by simp [Ant.trail], fun moves => by simp [walk_of_goal hgoal]⟩
    · omega
  | succ moves ih =>
    obtain ⟨hgoal, rfl, rfl⟩ | ⟨hopen, fewer, next, g₁, heq, hmove, hrest⟩ := walk_cases h
    · exact ⟨0, by simp [Ant.trail], fun moves => by simp [walk_of_goal hgoal]⟩
    · obtain rfl : fewer = moves := by omega
      obtain ⟨candidates, candidate, -, -, -, rfl⟩ := step_ok hmove
      obtain ⟨made, hlength, hmade⟩ := ih hrest
      refine ⟨made + 1, ?_, ?_⟩
      · simp only [goTo, List.length_cons] at hlength
        omega
      · intro moves
        cases moves with
        | zero => simp [walk, hopen]
        | succ moves => rw [walk_of_open hopen hmove, hmade, Nat.add_le_add_iff_right]

end Ant

end Stigmergy
