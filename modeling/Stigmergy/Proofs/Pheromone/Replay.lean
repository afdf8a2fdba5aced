import Mathlib.Data.Finset.Card
import Mathlib.Data.List.DropRight
import Stigmergy.Binary64.Arithmetic
import Stigmergy.Proofs.Pheromone.Stored

/-!
# Pheromone as a level on every edge

Edges that nothing was laid on are not stored. What has been done to pheromone can still be replayed
for one edge alone, as if it had its own level from the beginning.

* `Operation`: what can be done with pheromone; `run`: doing one thing after the other.
* `Entry`: the level of one edge, and whether anything was laid on it; `replay`: the same operations
  on one edge.
* `replay_filter`: an edge is concerned by what is laid on it and by evaporation, confining and
  resets, and by nothing else.
* `laid`, `bands`: the edges that were laid on since the last reset, and the bands that levels were
  confined to.
* `Replays`: pheromone says of every edge what its replay says, stores the edges that were laid on
  and has its background confined to the bands. `Replays.apply`, `exists_run` keep it.
* `every_edge_replays_its_level`: so do any operations in any order.
-/

namespace Stigmergy.Pheromone

open Std (TransOrd ExtTreeMap)
open Scalar

inductive Operation (S α : Type) where
  | lay (source target : S) (amount : α)
  | evaporate (rho : α)
  | confine (band : Band α)
  | reset
  | look (source target : S)
  deriving DecidableEq

/-- The level of one edge, and whether anything was laid on it. -/
structure Entry (α : Type) where
  level : α
  isLaid : Bool
  deriving DecidableEq

variable {S α : Type}

namespace Operation

def isReset : Operation S α → Bool
  | .reset => true
  | _ => false

def edge? : Operation S α → Option (Edge S)
  | .lay source target _ => some ⟨source, target⟩
  | _ => none

def band? : Operation S α → Option (Band α)
  | .confine b => some b
  | _ => none

def concerns [DecidableEq S] (e : Edge S) : Operation S α → Bool
  | .lay source target _ => decide (⟨source, target⟩ = e)
  | .look _ _ => false
  | _ => true

end Operation

section Runs

variable [Ord S] [TransOrd S] [Scalar α]

def Operation.apply (ph : Pheromone S α) : Operation S α → Except Fault (Pheromone S α)
  | .lay source target amount => .ok (ph.lay source target amount)
  | .evaporate rho => .ok (ph.evaporate rho)
  | .confine b => ph.confine b
  | .reset => .ok ph.reset
  | .look _ _ => .ok ph

def run (ph : Pheromone S α) (ops : List (Operation S α)) : Except Fault (Pheromone S α) :=
  ops.foldlM Operation.apply ph

def entry (ph : Pheromone S α) (e : Edge S) : Entry α :=
  ⟨(ph.stored? e).getD ph.background, (ph.stored? e).isSome⟩

theorem initial_apply {ph next : Pheromone S α} {op : Operation S α}
    (h : op.apply ph = .ok next) : next.initial = ph.initial := by
  cases op with
  | confine b => exact initial_confine h
  | lay | evaporate | reset | look =>
    cases h
    rfl

end Runs

/-! ## Since the last reset -/

def sinceReset (ops : List (Operation S α)) : List (Operation S α) :=
  ops.rtakeWhile fun op => !op.isReset

/-- The edges that were laid on since the last reset. -/
def laid (ops : List (Operation S α)) : List (Edge S) := (sinceReset ops).filterMap (·.edge?)

/-- The bands that levels were confined to since the last reset. -/
def bands (ops : List (Operation S α)) : List (Band α) := (sinceReset ops).filterMap (·.band?)

theorem sinceReset_append_singleton (ops : List (Operation S α)) (op : Operation S α) :
    sinceReset (ops ++ [op]) = if op.isReset then [] else sinceReset ops ++ [op] := by
  unfold sinceReset
  rw [List.rtakeWhile_concat]
  cases op.isReset <;> rfl

/-- An edge more, or none at all. -/
theorem laid_append_singleton (ops : List (Operation S α)) (op : Operation S α) :
    laid (ops ++ [op]) =
      match op with
      | .lay source target _ => laid ops ++ [⟨source, target⟩]
      | .reset => []
      | _ => laid ops := by
  unfold laid
  rw [sinceReset_append_singleton]
  cases op <;> simp [Operation.isReset, Operation.edge?]

variable [Scalar α]

/-- The background after some operations: the first one, clamped into the bands. -/
def backgroundAfter (initial : α) (ops : List (Operation S α)) : α :=
  (bands ops).foldl (fun level b => clamp b.low b.high level) initial

/-- Clamped once more, or the first one again. -/
theorem backgroundAfter_append_singleton (initial : α) (ops : List (Operation S α))
    (op : Operation S α) :
    backgroundAfter initial (ops ++ [op]) =
      match op with
      | .confine b => clamp b.low b.high (backgroundAfter initial ops)
      | .reset => initial
      | _ => backgroundAfter initial ops := by
  unfold backgroundAfter bands
  rw [sinceReset_append_singleton]
  cases op <;> simp [Operation.isReset, Operation.band?]

/-! ## One edge alone -/

variable [DecidableEq S]

/-- The level of an edge after an operation. Evaporation takes nothing from an edge that nothing was
laid on. -/
def Entry.after (initial : α) (e : Edge S) (entry : Entry α) : Operation S α → Entry α
  | .lay source target amount =>
    if ⟨source, target⟩ = e then ⟨entry.level + amount, true⟩ else entry
  | .evaporate rho =>
    if entry.isLaid then { entry with level := entry.level * (ofNat 1 - rho) } else entry
  | .confine b => { entry with level := clamp b.low b.high entry.level }
  | .reset => ⟨initial, false⟩
  | .look _ _ => entry

/-- The level of an edge after some operations. -/
def replay (initial : α) (e : Edge S) (ops : List (Operation S α)) : Entry α :=
  ops.foldl (Entry.after initial e) ⟨initial, false⟩

@[simp]
theorem replay_append_singleton (initial : α) (e : Edge S) (ops : List (Operation S α))
    (op : Operation S α) :
    replay initial e (ops ++ [op]) = (replay initial e ops).after initial e op := by
  simp [replay]

/-- What does not concern an edge leaves its level alone. -/
theorem after_of_not_concerns {initial : α} {e : Edge S} {op : Operation S α} (entry : Entry α)
    (h : op.concerns e = false) : entry.after initial e op = entry := by
  cases op with
  | lay source target amount => exact if_neg (of_decide_eq_false h)
  | look source target => rfl
  | evaporate | confine | reset => cases h

theorem replay_filter (initial : α) (e : Edge S) (ops : List (Operation S α)) :
    replay initial e (ops.filter (·.concerns e)) = replay initial e ops := by
  unfold replay
  rw [List.foldl_filter]
  congr 1
  funext entry op
  split
  · rfl
  · next h => exact (after_of_not_concerns entry (Bool.eq_false_iff.mpr h)).symm

/-- Something was laid on an edge if it was since the last reset. -/
theorem isLaid_replay_iff (initial : α) {e : Edge S} {ops : List (Operation S α)} :
    (replay initial e ops).isLaid = true ↔ e ∈ laid ops := by
  induction ops using List.reverseRecOn with
  | nil => simp [replay, laid, sinceReset]
  | append_singleton ops op ih =>
    rw [replay_append_singleton, laid_append_singleton]
    cases op with
    | lay source target amount =>
      by_cases heq : ⟨source, target⟩ = e
      · simp [Entry.after, heq]
      · simp [Entry.after, heq, Ne.symm heq, ih]
    | evaporate rho =>
      dsimp only [Entry.after]
      split
      · exact ih
      · exact ih
    | reset => simp [Entry.after]
    | confine | look => exact ih

/-! ## All edges at once -/

variable [Ord S] [TransOrd S]

/-- Pheromone is what operations have made of it. -/
structure Replays (initial : α) (ops : List (Operation S α)) (ph : Pheromone S α) : Prop where
  initially : ph.initial = initial
  entries : ∀ e, ph.entry e = replay initial e ops
  size : ph.size = (laid ops).toFinset.card
  background : ph.background = backgroundAfter initial ops

variable {ph next : Pheromone S α} {op : Operation S α} {ops : List (Operation S α)} {initial : α}

theorem Replays.stores_iff (h : Replays initial ops ph) (e : Edge S) :
    ph.Stores e ↔ e ∈ laid ops := by
  rw [← isLaid_replay_iff initial, ← h.entries]
  rfl

variable [Std.LawfulEqOrd S]

/-- **What pheromone says of an edge** after an operation is what the edge would say. -/
theorem entry_apply (h : op.apply ph = .ok next) (e : Edge S) :
    next.entry e = (ph.entry e).after ph.initial e op := by
  unfold entry
  cases op with
  | lay source target amount =>
    cases h
    rw [stored?_lay]
    by_cases heq : ⟨source, target⟩ = e
    · subst heq
      simp [Entry.after, level]
    · simp [Entry.after, heq, lay]
  | evaporate rho =>
    cases h
    rw [stored?_evaporate]
    cases ph.stored? e <;> rfl
  | confine b =>
    obtain ⟨-, rfl⟩ := confine_ok_iff.mp h
    rw [stored?_confined]
    cases ph.stored? e <;> rfl
  | reset =>
    cases h
    simp [Entry.after, reset, uniform, stored?]
  | look source target =>
    cases h
    rfl

omit [Std.LawfulEqOrd S] in
theorem Replays.size_apply (h : Replays initial ops ph) (hop : op.apply ph = .ok next) :
    next.size = (laid (ops ++ [op])).toFinset.card := by
  rw [laid_append_singleton]
  cases op with
  | lay source target amount =>
    cases hop
    rw [size_lay]
    simp [Finset.card_insert_eq_ite, h.size, h.stores_iff]
  | evaporate rho =>
    cases hop
    exact (size_evaporate ph rho).trans h.size
  | confine b => exact (size_confine hop).trans h.size
  | reset =>
    cases hop
    rfl
  | look source target =>
    cases hop
    exact h.size

omit [Std.LawfulEqOrd S] in
theorem Replays.background_apply (h : Replays initial ops ph) (hop : op.apply ph = .ok next) :
    next.background = backgroundAfter initial (ops ++ [op]) := by
  rw [backgroundAfter_append_singleton, ← h.background]
  cases op with
  | confine b => exact (background_confine hop).2
  | reset =>
    cases hop
    exact h.initially
  | lay | evaporate | look =>
    cases hop
    rfl

/-- **An operation keeps to the replay**, whichever it is. -/
theorem Replays.apply (h : Replays initial ops ph) (hop : op.apply ph = .ok next) :
    Replays initial (ops ++ [op]) next := by
  refine ⟨(initial_apply hop).trans h.initially, ?_, h.size_apply hop, h.background_apply hop⟩
  intro e
  rw [entry_apply hop, h.entries, h.initially, replay_append_singleton]

omit [Std.LawfulEqOrd S] in
theorem replays_uniform (initial : α) :
    Replays initial [] (uniform initial : Pheromone S α) := by
  refine ⟨rfl, ?_, rfl, rfl⟩
  intro e
  simp [entry, uniform, stored?, replay]

/-- Operations run through where bands are in order. -/
theorem exists_run (initial : α) (h : ∀ b, .confine b ∈ ops → b.low ≤ b.high) :
    ∃ ph, run (uniform initial) ops = .ok ph ∧ Replays initial ops ph := by
  induction ops using List.reverseRecOn with
  | nil => exact ⟨uniform initial, rfl, replays_uniform initial⟩
  | append_singleton ops op ih =>
    obtain ⟨ph, hph, hreplays⟩ := ih fun b hmem => h b (List.mem_append_left [op] hmem)
    have hop : ∃ next, op.apply ph = .ok next := by
      cases op with
      | confine b => exact ⟨ph.confined b, confine_eq (h b (by simp)) ph⟩
      | lay | evaporate | reset | look => exact ⟨_, rfl⟩
    obtain ⟨next, hnext⟩ := hop
    refine ⟨next, ?_, hreplays.apply hnext⟩
    unfold run at hph ⊢
    rw [List.foldlM_append, hph]
    exact (bind_pure (op.apply ph)).trans hnext

/-- **Every edge replays its own level.** Whatever is done to pheromone, as long as bands are in
order, an edge is at the level that its replay ends at, and at the same one if nothing is done that
does not concern it. The edges that were laid on since the last reset are stored, and the others are
at the first background, clamped into the bands since then. -/
theorem every_edge_replays_its_level (initial : α) (ops : List (Operation S α))
    (h : ∀ b, .confine b ∈ ops → b.low ≤ b.high) :
    ∃ ph, run (uniform initial) ops = .ok ph ∧
      (∀ source target, ph.level source target = (replay initial ⟨source, target⟩ ops).level) ∧
      (∀ source target, ∃ alone,
        run (uniform initial) (ops.filter (·.concerns ⟨source, target⟩)) = .ok alone ∧
          alone.level source target = ph.level source target) ∧
      ph.size = (laid ops).toFinset.card ∧ ph.background = backgroundAfter initial ops := by
  obtain ⟨ph, hrun, hreplays⟩ := exists_run initial h
  refine ⟨ph, hrun, ?_, ?_, hreplays.size, hreplays.background⟩
  · intro source target
    exact congrArg Entry.level (hreplays.entries ⟨source, target⟩)
  · intro source target
    obtain ⟨alone, hrunalone, halone⟩ := exists_run initial
      fun b (hmem : .confine b ∈ ops.filter (·.concerns ⟨source, target⟩)) =>
        h b (List.mem_filter.mp hmem).1
    have hentry := halone.entries ⟨source, target⟩
    rw [replay_filter, ← hreplays.entries] at hentry
    exact ⟨alone, hrunalone, congrArg Entry.level hentry⟩

/-- Laying nothing makes an edge evaporate, and the way back does not. -/
theorem every_edge_replays_its_level_after_reset :
    let ops : List (Operation Nat Float) :=
      [.lay 0 1 8, .lay 2 3 1, .confine ⟨0.5, 2⟩, .reset, .evaporate 0.5, .lay 0 1 0, .look 1 0,
        .evaporate 0.5, .confine ⟨0.25, 0.75⟩]
    (∀ b, .confine b ∈ ops → b.low ≤ b.high) ∧
      ∃ ph, run (uniform 1) ops = .ok ph ∧ ph.level 0 1 = 0.5 ∧ ph.level 1 0 = 0.75 ∧
        ph.size = 1 ∧ ph.background = 0.75 := by
  intro ops
  have hbands : ∀ b, .confine b ∈ ops → b.low ≤ b.high := by
    intro b hmem
    obtain rfl | rfl : b = ⟨0.5, 2⟩ ∨ b = ⟨0.25, 0.75⟩ := by simpa [ops] using hmem
    · decide +kernel
    · decide +kernel
  obtain ⟨ph, hrun, hlevel, -, hsize, hbackground⟩ := every_edge_replays_its_level 1 ops hbands
  refine ⟨hbands, ph, hrun, (hlevel 0 1).trans ?_, (hlevel 1 0).trans ?_, hsize.trans ?_,
    hbackground.trans ?_⟩ <;> decide +kernel

end Stigmergy.Pheromone
