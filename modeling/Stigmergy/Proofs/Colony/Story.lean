import Stigmergy.Graph
import Stigmergy.Proofs.Binary64.Laws
import Stigmergy.Proofs.Colony.Prefix
import Stigmergy.Proofs.Colony.Selection
import Stigmergy.Proofs.Deposit.Edges
import Stigmergy.Random.Script

/-!
# What a run tells

A run shows in its events, in the history gathered from them, in the histories of its report and in
the colony that it leaves. All of them tell the same story, which has a chapter for every iteration.

* `Chapter`: an iteration's trails, its leader, whether it improves on all before it, and what it
  leaves.
* `Chapter.Follows`, `IsStory`: what a chapter says, after those before it.
* `Chapter.events`: the events of a chapter.
* `History.foldl_chapters`: what a history takes from chapters.
* `Run.Tells`: a run has told a story so far.
* `Run.Tells.iterate`, `Run.Tells.iterations`: every iteration adds its chapter.
* `Colony.observers_tell_one_story`: a run with a report has told one story to all.
-/

namespace Stigmergy

open Scalar Stigmergy.Random
open Pheromone (Band)

variable {S α G : Type}

/-- All that one iteration has to tell. -/
structure Chapter (S α : Type) where
  trails : List (Trail S α)
  /-- The cheapest of the trails. -/
  leader : Trail S α
  /-- Whether the leader is cheaper than all trails before it. -/
  improves : Bool
  /-- The lowest cost up to here. -/
  best : α
  /-- The number of edges that are stored in the end. -/
  edges : Nat

/-- The improvements of a story, with the iterations that made them, counted from one. -/
def improving (chapters : List (Chapter S α)) : List (Chapter S α × Nat) :=
  (chapters.zipIdx 1).filter fun (chapter, _) => chapter.improves

variable [Scalar α]

namespace Chapter

def improvement (s : Settings α) (iteration : Nat) (chapter : Chapter S α) : List (Event S α) :=
  if chapter.improves then
    (if s.variant = .maxMin then
      [.bandMoved iteration (Band.ofTrail chapter.leader s.rho s.q s.pBest)] else []) ++
      [.improved iteration chapter.leader]
  else []

def events (s : Settings α) (iteration : Nat) (chapter : Chapter S α) : List (Event S α) :=
  (if s.reportsAnts then chapter.trails.map fun t => .antFinished t.cost else []) ++
    [.iterationBest chapter.leader.cost] ++ chapter.improvement s iteration ++
    [.iterationEnded iteration chapter.leader.cost chapter.best
      (Deposit.depositors s chapter.trails) chapter.edges]

/-- What a chapter says, after the earlier ones. -/
structure Follows (earlier : List (Chapter S α)) (chapter : Chapter S α) : Prop where
  /-- The leader is the first of the cheapest trails. -/
  leader : ∃ i : Nat, chapter.trails[i]? = some chapter.leader ∧
    (∀ t ∈ chapter.trails, chapter.leader.cost ≤ t.cost) ∧
    ∀ (j : Nat) t, j < i → chapter.trails[j]? = some t → chapter.leader.cost < t.cost
  /-- An improvement is cheaper than all leaders before it, and than nothing at all. -/
  improves : chapter.improves = true ↔
    chapter.leader.cost < infinity ∧ ∀ e ∈ earlier, chapter.leader.cost < e.leader.cost
  best : IsLowest chapter.best ((earlier ++ [chapter]).map fun e => e.leader.cost)
  edges : ∀ e ∈ earlier, e.edges ≤ chapter.edges

end Chapter

def IsStory (chapters : List (Chapter S α)) : Prop :=
  ∀ (k : Nat) chapter, chapters[k]? = some chapter → chapter.Follows (chapters.take k)

theorem isStory_nil : IsStory ([] : List (Chapter S α)) := fun _ _ h => by simp at h

section Story

variable {chapters : List (Chapter S α)} {chapter : Chapter S α}

theorem IsStory.append (h : IsStory chapters) (hchapter : chapter.Follows chapters) :
    IsStory (chapters ++ [chapter]) := by
  intro k found hfound
  by_cases hk : k < chapters.length
  · rw [List.getElem?_append_left hk] at hfound
    rw [List.take_append_of_le_length (Nat.le_of_lt hk)]
    exact h k found hfound
  · have hlast : k = chapters.length := by
      have hlt := (List.getElem?_eq_some_iff.mp hfound).1
      rw [List.length_append, List.length_singleton] at hlt
      omega
    subst hlast
    rw [List.getElem?_concat_length] at hfound
    cases hfound
    rw [List.take_left]
    exact hchapter

/-- The costs of improvements go down. -/
theorem IsStory.pairwise_improving (h : IsStory chapters) :
    (((chapters.filter Chapter.improves).map Chapter.leader).map Trail.cost).Pairwise
      fun x y => y < x := by
  rw [List.pairwise_map, List.pairwise_map, List.pairwise_filter, List.pairwise_iff_getElem]
  intro i j hi hj hij _ himproves
  have hfollows := h j chapters[j] (List.getElem?_eq_getElem hj)
  refine (hfollows.improves.mp himproves).2 chapters[i] ?_
  exact List.mem_take_iff_getElem.mpr ⟨i, by omega, rfl⟩

/-- The edges stored never become fewer. -/
theorem IsStory.pairwise_edges (h : IsStory chapters) :
    (chapters.map Chapter.edges).Pairwise (· ≤ ·) := by
  rw [List.pairwise_map, List.pairwise_iff_getElem]
  intro i j hi hj hij
  refine (h j chapters[j] (List.getElem?_eq_getElem hj)).edges chapters[i] ?_
  exact List.mem_take_iff_getElem.mpr ⟨i, by omega, rfl⟩

omit [Scalar α] in
theorem improving_append (chapters : List (Chapter S α)) (chapter : Chapter S α) :
    improving (chapters ++ [chapter]) =
      improving chapters ++
        if chapter.improves then [(chapter, chapters.length + 1)] else [] := by
  unfold improving
  rw [List.zipIdx_append, List.filter_append, Nat.add_comm 1]
  cases himproves : chapter.improves <;> simp [himproves]

omit [Scalar α] in
theorem map_fst_improving (chapters : List (Chapter S α)) :
    (improving chapters).map Prod.fst = chapters.filter Chapter.improves := by
  unfold improving
  rw [← List.zipIdx_map_fst 1 chapters, List.filter_map]
  simp only [List.zipIdx_map_fst]
  rfl

omit [Scalar α] in
/-- As many costs are told as ants have walked. -/
theorem length_costs {ants : Nat}
    (h : ∀ chapter ∈ chapters, chapter.trails.length = ants) :
    (chapters.flatMap fun chapter => chapter.trails.map Trail.cost).length =
      ants * chapters.length := by
  induction chapters with
  | nil => rfl
  | cons chapter chapters ih =>
    obtain ⟨hchapter, hrest⟩ := List.forall_mem_cons.mp h
    rw [List.flatMap_cons, List.length_append, List.length_map, hchapter, ih hrest,
      List.length_cons, Nat.mul_succ, Nat.add_comm]

end Story

/-! ## Histories -/

namespace History

variable (s : Settings α)

/-- What a history takes from a chapter. -/
theorem foldl_chapter (h : History S α) (iteration : Nat) (chapter : Chapter S α) :
    (chapter.events s iteration).foldl record h =
      { antCosts := h.antCosts ++
          if s.reportsAnts then (chapter.trails.map Trail.cost).toArray else #[]
        iterationBests := h.iterationBests.push chapter.leader.cost
        improvements :=
          h.improvements ++ if chapter.improves then #[chapter.leader] else #[] } := by
  have hants : (if s.reportsAnts then
      chapter.trails.map fun t => (.antFinished t.cost : Event S α) else []) =
        (if s.reportsAnts then chapter.trails.map Trail.cost else []).map .antFinished := by
    split
    · rw [List.map_map]
      rfl
    · rfl
  have himprovement (h : History S α) : (chapter.improvement s iteration).foldl record h =
      { h with
        improvements :=
          h.improvements ++ if chapter.improves then #[chapter.leader] else #[] } := by
    unfold Chapter.improvement
    cases chapter.improves
    · simp
    · by_cases hbounded : s.variant = .maxMin <;>
        simp [hbounded, record, addImprovement]
  unfold Chapter.events
  rw [hants, List.foldl_append, List.foldl_append, List.foldl_append, foldl_antFinished,
    himprovement]
  simp [record, addIteration, apply_ite List.toArray]

/-- What a history takes from chapters. -/
theorem foldl_chapters (h : History S α) (first : Nat) (chapters : List (Chapter S α)) :
    ((chapters.zipIdx first).flatMap fun (chapter, k) => chapter.events s k).foldl record h =
      { antCosts := h.antCosts ++ if s.reportsAnts then
          (chapters.flatMap fun chapter => chapter.trails.map Trail.cost).toArray else #[]
        iterationBests := h.iterationBests ++
          (chapters.map fun chapter => chapter.leader.cost).toArray
        improvements := h.improvements ++
          ((chapters.filter Chapter.improves).map Chapter.leader).toArray } := by
  induction chapters generalizing h first with
  | nil => simp
  | cons chapter chapters ih =>
    rw [List.zipIdx_cons, List.flatMap_cons, List.foldl_append, foldl_chapter, ih]
    cases hants : s.reportsAnts <;> cases himproves : chapter.improves <;>
      simp [himproves]

end History

/-! ## Runs -/

theorem Colony.size_le_size_relaid [Ord S] [Std.TransOrd S] {c : Colony S α}
    {trails : List (Trail S α)} {pheromone : Pheromone S α}
    (h : c.relaid trails = .ok pheromone) : c.pheromone.size ≤ pheromone.size := by
  have hsize := Deposit.size_le_size_update h
  simpa using hsize

/-- A cost is below the best one if it is below all before it. -/
theorem Lows.lt_best_iff [Rounded α] {transcript : List (List (Trail S α))} {bests costs : List α}
    {best x : α} (h : Lows transcript bests costs best) (hpos : ofNat 0 < x) :
    x < best ↔ x < infinity ∧ ∀ y ∈ bests, x < y := by
  constructor
  · intro hlt
    have hnonneg := Rounded.le_of_lt hpos
    refine ⟨(Rounded.isFinite_iff_lt hnonneg).mp (Rounded.isFinite_of_lt hnonneg hlt), ?_⟩
    intro y hy
    cases h.lowest with
    | inl hempty =>
      rw [hempty.1] at hy
      cases hy
    | inr hlowest => exact Rounded.lt_of_lt_of_le hlt (hlowest.2 y hy)
  · intro hbelow
    cases h.lowest with
    | inl hempty =>
      rw [hempty.2]
      exact hbelow.1
    | inr hlowest => exact hbelow.2 best hlowest.1

variable [Ord S]

namespace Run

/-- The chapter of an iteration that leaves the given pheromone. -/
def chapter [Std.TransOrd S] (run : Run S α G) (trails : List (Trail S α))
    (pheromone : Pheromone S α) : Chapter S α where
  trails := trails
  leader := leader trails
  improves := (leader trails).cost < run.colony.best.cost
  best := (run.colony.adopt (leader trails)).best.cost
  edges := pheromone.size

omit [Ord S] in
theorem reported_of_priced {s : Settings α} {trails : List (Trail S α)}
    (hfree : ∀ t ∈ trails, ¬t.cost ≤ ofNat 0) :
    reported s trails = if s.reportsAnts then trails.map fun t => .antFinished t.cost else [] := by
  have hall : (trails.takeWhile fun t => ¬t.cost ≤ ofNat 0) = trails :=
    List.takeWhile_eq_self_iff.mpr fun t ht => by simpa using hfree t ht
  unfold reported
  rw [hall]

variable [Std.TransOrd S] {run next last : Run S α G} {trails : List (Trail S α)}
  {pheromone : Pheromone S α}

/-- A run that takes over a leader tells its improvement. -/
theorem events_adopt (iteration : Nat) :
    (run.adopt iteration (leader trails)).events.toList =
      run.events.toList ++
        (run.chapter trails pheromone).improvement run.colony.settings iteration := by
  unfold adopt Chapter.improvement chapter Colony.bandFor
  by_cases hlt : (leader trails).cost < run.colony.best.cost
  · simp only [hlt, if_true, decide_true, Settings.isBounded_iff]
    by_cases hbounded : run.colony.settings.variant = .maxMin <;> simp [hbounded, tell]
  · simp [hlt]

/-- An iteration tells its chapter. -/
theorem events_settled (hfree : ∀ t ∈ trails, ¬t.cost ≤ ofNat 0) (iteration : Nat) :
    (run.settled iteration trails pheromone).events.toList =
      run.events.toList ++
        (run.chapter trails pheromone).events run.colony.settings iteration := by
  let told := (run.tell (reported run.colony.settings trails)).tell
    [.iterationBest (leader trails).cost]
  have hjudged : (run.judged iteration trails).events.toList = told.events.toList ++
      (run.chapter trails pheromone).improvement run.colony.settings iteration :=
    events_adopt iteration
  have hbest : (run.judged iteration trails).colony = run.colony.adopt (leader trails) :=
    colony_judged run iteration trails
  have hsettled : (run.settled iteration trails pheromone).events.toList =
      (run.judged iteration trails).events.toList ++
        [.iterationEnded iteration (leader trails).cost (run.chapter trails pheromone).best
          (Deposit.depositors run.colony.settings trails) pheromone.size] := by
    unfold settled chapter
    rw [Array.toList_push, hbest, Colony.settings_adopt]
  rw [hsettled, hjudged]
  unfold Chapter.events
  rw [show told.events.toList = run.events.toList ++ reported run.colony.settings trails ++
    [.iterationBest (leader trails).cost] by simp [told, tell], reported_of_priced hfree]
  simp only [List.append_assoc]
  rfl

/-- The run has told the story so far. -/
structure Tells (opening : List (Event S α)) (chapters : List (Chapter S α)) (run : Run S α G) :
    Prop where
  story : IsStory chapters
  events : run.events.toList = opening ++
    (chapters.zipIdx 1).flatMap fun (chapter, k) => chapter.events run.colony.settings k
  iterationBests : run.iterationBests.toList = chapters.map fun chapter => chapter.leader.cost
  costs : run.costs.toList = chapters.map Chapter.best
  best : run.colony.best =
    ((improving chapters).getLast?.map fun (chapter, _) => chapter.leader).getD Trail.unbounded
  bestIteration : run.bestIteration = ((improving chapters).getLast?.map Prod.snd).getD 0
  edges : ∀ chapter ∈ chapters, chapter.edges ≤ run.colony.pheromone.size
  last : ∀ chapter, chapters.getLast? = some chapter →
    chapter.edges = run.colony.pheromone.size

variable {opening : List (Event S α)} {chapters : List (Chapter S α)} {s : Settings α}
  {nodes : Nat}

theorem best_chapter (run : Run S α G) (trails : List (Trail S α)) (pheromone : Pheromone S α) :
    (run.chapter trails pheromone).best =
    if (leader trails).cost < run.colony.best.cost then (leader trails).cost
    else run.colony.best.cost := by
  unfold chapter
  rw [Colony.best_adopt, apply_ite Trail.cost]

/-- The chapter of the next iteration follows those that are told. -/
theorem Tells.follows [Rounded α] (h : run.Tells opening chapters)
    (hchronicle : Chronicle s nodes (chapters.map Chapter.trails) run) (hne : trails ≠ [])
    (hpositive : ∀ t ∈ trails, ofNat 0 < t.cost)
    (hsize : run.colony.pheromone.size ≤ pheromone.size) :
    (run.chapter trails pheromone).Follows chapters := by
  have hnumber : ∀ t ∈ trails, isNaN t.cost = false := fun t ht =>
    (Rounded.number_of_lt (hpositive t ht)).2
  obtain ⟨i, hi, hleast, hfirst⟩ := leader_least hne hnumber
  have hleader := hpositive _ (List.mem_of_getElem? hi)
  refine ⟨⟨i, hi, hleast, hfirst⟩, ?_, ?_, ?_⟩
  · have hiff := hchronicle.lows.lt_best_iff hleader
    rw [h.iterationBests, List.forall_mem_map] at hiff
    exact decide_eq_true_iff.trans hiff
  · have hlowest := hchronicle.lows.lowest_append hleader
    rw [h.iterationBests, ← best_chapter run trails pheromone] at hlowest
    rw [List.map_append]
    exact hlowest
  · intro earlier hearlier
    exact (h.edges earlier hearlier).trans hsize

/-- **One iteration tells the next chapter.** -/
theorem Tells.settled [Rounded α] (h : run.Tells opening chapters)
    (hchronicle : Chronicle s nodes (chapters.map Chapter.trails) run) (hne : trails ≠ [])
    (hpositive : ∀ t ∈ trails, ofNat 0 < t.cost)
    (hsize : run.colony.pheromone.size ≤ pheromone.size) :
    (run.settled (chapters.length + 1) trails pheromone).Tells opening
      (chapters ++ [run.chapter trails pheromone]) := by
  have hfree : ∀ t ∈ trails, ¬t.cost ≤ ofNat 0 := fun t ht =>
    Rounded.not_ge_of_lt (hpositive t ht)
  have hsettings : (run.settled (chapters.length + 1) trails pheromone).colony.settings =
      run.colony.settings := by
    unfold Run.settled
    simp only [colony_judged, Colony.settings_adopt]
  refine
    { story := h.story.append (h.follows hchronicle hne hpositive hsize)
      events := ?_
      iterationBests := ?_
      costs := ?_
      best := ?_
      bestIteration := ?_
      edges := ?_
      last := ?_ }
  · rw [events_settled hfree, h.events, hsettings, List.zipIdx_append, List.flatMap_append,
      List.append_assoc, Nat.add_comm 1]
    simp
  · unfold Run.settled
    rw [Array.toList_push, iterationBests_judged, h.iterationBests, List.map_append]
    rfl
  · unfold Run.settled
    rw [Array.toList_push, costs_judged, colony_judged, h.costs, List.map_append]
    rfl
  · change (run.judged _ trails).colony.best = _
    rw [colony_judged, Colony.best_adopt, improving_append]
    by_cases hlt : (leader trails).cost < run.colony.best.cost
    · simp [chapter, hlt]
    · simpa [chapter, hlt] using h.best
  · change (run.judged _ trails).bestIteration = _
    rw [bestIteration_judged, improving_append]
    by_cases hlt : (leader trails).cost < run.colony.best.cost
    · simp [chapter, hlt]
    · simpa [chapter, hlt] using h.bestIteration
  · intro chapter hchapter
    cases List.mem_append.mp hchapter with
    | inl hearlier => exact (h.edges chapter hearlier).trans hsize
    | inr hnew =>
      rw [List.mem_singleton.mp hnew]
      exact Nat.le_refl _
  · intro chapter hchapter
    rw [List.getLast?_concat] at hchapter
    cases hchapter
    rfl

omit [Std.TransOrd S] in
theorem tells_begun (c : Colony S α) (p : Problem S α) (source : G) :
    (begun c p source).Tells [.started c.settings.variant p.nodes
      (c.settings.antCount p.nodes) c.settings.iterations] [] where
  story := isStory_nil
  events := rfl
  iterationBests := rfl
  costs := rfl
  best := rfl
  bestIteration := rfl
  edges := fun _ h => by cases h
  last := fun _ h => by cases h

omit [Std.TransOrd S] in
/-- The history of a run that has told its story. -/
theorem Tells.history {start : Event S α} (hstart : History.empty.record start = History.empty)
    (h : last.Tells [start] chapters) :
    History.ofEvents last.close.events =
      { antCosts := if last.colony.settings.reportsAnts then
          (chapters.flatMap fun chapter => chapter.trails.map Trail.cost).toArray else #[]
        iterationBests := last.iterationBests
        improvements := ((chapters.filter Chapter.improves).map Chapter.leader).toArray } := by
  rw [history_close, History.ofEvents_eq, h.events, List.singleton_append, List.foldl_cons, hstart,
    History.foldl_chapters, ← h.iterationBests]
  simp [History.empty]

omit [Std.TransOrd S] in
theorem Tells.getLast?_edges (h : last.Tells opening chapters) (hne : chapters ≠ []) :
    (chapters.map Chapter.edges).getLast? = some last.colony.pheromone.size := by
  have hlast := List.getLast?_eq_some_getLast hne
  rw [List.getLast?_map, hlast, Option.map_some, h.last _ hlast]

omit [Std.TransOrd S] in
theorem Tells.getLast?_improvements (h : last.Tells opening chapters) :
    (((chapters.filter Chapter.improves).map Chapter.leader).getLast?).getD Trail.unbounded =
      last.colony.best := by
  rw [h.best, ← map_fst_improving, List.map_map, List.getLast?_map]
  rfl

variable [WordSource G] {p : Problem S α} {schedule : Schedule} {count : Nat}

omit [Std.TransOrd S] in
/-- Drawing plans tells nothing. -/
theorem Tells.drawn (h : run.Tells opening chapters) (p : Problem S α) :
    (run.drawn p).Tells opening chapters :=
  ⟨h.story, h.events, h.iterationBests, h.costs, h.best, h.bestIteration, h.edges, h.last⟩

/-- **One iteration tells one chapter**, and writes its trails into the chronicle. -/
theorem Tells.iterate [Rounded α] (h : run.Tells opening chapters)
    (hchronicle : Chronicle s p.nodes (chapters.map Chapter.trails) run)
    (hants : 0 < s.antCount p.nodes)
    (hnext : run.iterate p schedule (chapters.length + 1) = .ok next) :
    ∃ chapter : Chapter S α,
      run.trails p schedule (chapters.length + 1) (run.plans p).1 = .ok chapter.trails ∧
        next.Tells opening (chapters ++ [chapter]) ∧
        Chronicle s p.nodes ((chapters ++ [chapter]).map Chapter.trails) next := by
  obtain ⟨trails, pheromone, htrails, hlength, hreal, hrelaid, hsettled⟩ := iterate_settled hnext
  rw [hchronicle.settings] at hlength
  have hne : trails ≠ [] := List.length_pos_iff.mp (hlength ▸ hants)
  have hpositive : ∀ t ∈ trails, ofNat 0 < t.cost := fun t ht => (hreal t ht).2
  have hsize := Colony.size_le_size_relaid hrelaid
  have htold := (h.drawn p).settled (hchronicle.drawn p) hne hpositive hsize
  have hwritten := (hchronicle.drawn p).settled hne hlength hpositive pheromone
  rw [List.length_map, ← hsettled] at hwritten
  rw [← hsettled] at htold
  refine ⟨(run.drawn p).chapter trails pheromone, htrails, htold, ?_⟩
  rw [List.map_append]
  exact hwritten

/-- A run tells a chapter for each of its iterations. -/
theorem Tells.iterations [Rounded α] (h : run.Tells opening chapters)
    (hchronicle : Chronicle s p.nodes (chapters.map Chapter.trails) run)
    (hants : 0 < s.antCount p.nodes)
    (hlast : run.iterations p schedule count (chapters.length + 1) = .ok last) :
    ∃ later, last.Tells opening (chapters ++ later) ∧
      later.map Chapter.trails = run.transcript p schedule count (chapters.length + 1) := by
  induction count generalizing chapters run with
  | zero =>
    cases hlast
    exact ⟨[], by rwa [List.append_nil], rfl⟩
  | succ count ih =>
    rw [iterations_succ_eq] at hlast
    split at hlast
    · cases hlast
    · next next hnext =>
      obtain ⟨chapter, htrails, htold, hwritten⟩ := h.iterate hchronicle hants hnext
      have hcount : (chapters ++ [chapter]).length + 1 = chapters.length + 1 + 1 := by simp
      rw [← hcount] at hlast
      obtain ⟨later, hlater, hmap⟩ := ih htold hwritten hlast
      refine ⟨chapter :: later, ?_, ?_⟩
      · rwa [List.append_cons]
      · rw [transcript_succ htrails hnext, List.map_cons, hmap, hcount]

end Run

namespace Colony

variable [Std.TransOrd S] [WordSource G] {c : Colony S α} {p : Problem S α} {schedule : Schedule}
  {source : G} {report : Report S α}

/-- **All observers are told one story**, with a chapter for the trails of every iteration: the
report's histories, the history of the events, the events themselves, and the colony in the end. -/
theorem observers_tell_one_story [Rounded α] (hvalid : c.settings.Valid)
    (h : (c.solveOn schedule p source).result = .ok report) :
    let s := c.settings
    let run := (c.solveOn schedule p source).run
    let history := History.ofEvents run.events
    ∃ chapters : List (Chapter S α),
      (IsStory chapters ∧ chapters.length = s.iterations ∧
        chapters.map Chapter.trails = c.transcript schedule p source ∧
        ∀ chapter ∈ chapters, chapter.trails.length = s.antCount p.nodes) ∧
      (report.iterationBests.toList = chapters.map (fun chapter => chapter.leader.cost) ∧
        report.costs.toList = chapters.map Chapter.best) ∧
      history.iterationBests = report.iterationBests ∧
      (history.antCosts.toList = (if s.reportsAnts then
          chapters.flatMap fun chapter => chapter.trails.map Trail.cost else []) ∧
        (s.reportsAnts = true →
          history.antCosts.size = s.antCount p.nodes * s.iterations)) ∧
      (history.improvements.toList = (chapters.filter Chapter.improves).map Chapter.leader ∧
        (history.improvements.toList.map Trail.cost).Pairwise (fun x y => y < x) ∧
        history.improvements.back?.getD Trail.unbounded = report.best) ∧
      (run.events.toList =
          .started s.variant p.nodes (s.antCount p.nodes) s.iterations ::
            (chapters.zipIdx 1).flatMap (fun (chapter, k) => chapter.events s k) ++
            [.finished report.best.cost report.bestIteration run.colony.pheromone.size] ∧
        (chapters.map Chapter.edges).Pairwise (· ≤ ·) ∧
        (chapters.map Chapter.edges).getLast? = some run.colony.pheromone.size) ∧
      report.bestIteration = ((improving chapters).getLast?.map Prod.snd).getD 0 ∧
      run.colony.best = report.best ∧ run.colony.band = report.band := by
  intro s run history
  obtain ⟨hnodes, last, hlast, rfl, hrun⟩ := solveOn_ok h
  have hants : 0 < s.antCount p.nodes := Settings.antCount_pos (by omega)
  have hbegun : Run.Chronicle s p.nodes [] (Run.begun c p source) := Run.chronicle_begun
  obtain ⟨chapters, htold, htranscript⟩ :=
    (Run.tells_begun c p source).iterations hbegun hants hlast
  rw [List.nil_append] at htold
  have hchronicle := hbegun.iterations hants hlast
  have hlength : chapters.length = s.iterations := by
    rw [← List.length_map, htranscript]
    exact Run.length_transcript hlast
  have hcount : ∀ chapter ∈ chapters, chapter.trails.length = s.antCount p.nodes := by
    intro chapter hchapter
    apply hchronicle.ants
    rw [List.nil_append]
    exact htranscript ▸ List.mem_map_of_mem hchapter
  have hevents : last.close.events.toList =
      .started s.variant p.nodes (s.antCount p.nodes) s.iterations ::
        (chapters.zipIdx 1).flatMap (fun (chapter, k) => chapter.events s k) ++
        [.finished last.colony.best.cost last.bestIteration last.colony.pheromone.size] := by
    change (last.events ++ _).toList = _
    rw [Array.toList_append, htold.events, hchronicle.settings]
    rfl
  have hhistory : history = _ := (congrArg (fun run => History.ofEvents run.events) hrun).trans
    (htold.history rfl)
  have hne : chapters ≠ [] := by
    intro hempty
    rw [hempty] at hlength
    exact hvalid.common.iterations hlength.symm
  have hrun' : run = last.close := hrun
  rw [hchronicle.settings] at hhistory
  rw [hrun', hhistory]
  refine ⟨chapters, ⟨htold.story, hlength, htranscript, hcount⟩,
    ⟨htold.iterationBests, htold.costs⟩, rfl, ⟨?_, ?_⟩,
    ⟨rfl, htold.story.pairwise_improving, ?_⟩,
    ⟨hevents, htold.story.pairwise_edges, htold.getLast?_edges hne⟩, htold.bestIteration, rfl, rfl⟩
  · exact apply_ite Array.toList _ _ _
  · intro hants
    simp only [hants, if_true, List.size_toArray]
    rw [← hlength]
    exact length_costs hcount
  · rw [← Array.getLast?_toList]
    exact htold.getLast?_improvements

/-- A bounded colony whose second ant is always the cheaper one. -/
theorem one_story_on_two_ways :
    let s : Settings Float :=
      { Settings.preset .maxMin with ants := 2, iterations := 2, reportsAnts := true }
    let ways : Graph Float := ⟨2, #[0, 1], [(0, [(2, 3)]), (1, [(2, 1)])], [2]⟩
    let c : Colony Int Float := fresh s
    let outcome := c.solveOn .inOrder ways.problem (Script.mk #[0, 1, 0x80000000, 1] 0)
    let history := History.ofEvents outcome.run.events
    s.Valid ∧ ∃ report, outcome.result = .ok report ∧
      history.iterationBests = report.iterationBests ∧ history.antCosts.size = 4 ∧
      history.improvements.back?.getD Trail.unbounded = report.best := by
  intro s ways c outcome history
  have hvalid : s.Valid := by decide +kernel
  have hsome : outcome.result.toOption.isSome = true := by decide +kernel
  cases hresult : outcome.result with
  | error halt =>
    rw [hresult] at hsome
    cases hsome
  | ok report =>
    have hsettings : c.settings.Valid := hvalid
    obtain ⟨-, -, -, hbests, ⟨-, hants⟩, ⟨-, -, hlast⟩, -⟩ :=
      observers_tell_one_story hsettings hresult
    have hfour : c.settings.antCount ways.problem.nodes * c.settings.iterations = 4 := by
      decide +kernel
    -- No unfolding: the run would be taken apart.
    refine ⟨hvalid, report, rfl, ?_, ?_, ?_⟩
    · with_reducible exact hbests
    · with_reducible exact (hants (by decide +kernel)).trans hfour
    · with_reducible exact hlast

end Colony

end Stigmergy
