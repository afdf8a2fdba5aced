import Stigmergy.Graph
import Stigmergy.Proofs.Binary64.Laws
import Stigmergy.Proofs.Colony.Iteration
import Stigmergy.Proofs.Settings.Rules
import Stigmergy.Random.Script

/-!
# What a run selects

* `Run.transcript`: the trails of every iteration of a run, in order.
* `IsLowest`: an entry of a list that is not above any.
* `IsFirstBest`: the first of a run's cheapest trails, by iteration and then by ant.
* `Lows`, `Selected`: what the histories and the best trail say about the trails so far; a list of
  trails at a time is added to both.
* `Run.Chronicle`: a run's fields say so about its transcript, after every iteration.
* `Colony.best_is_first_of_cheapest`: a report names the first of the cheapest trails, and its
  histories are the lowest costs so far.
-/

namespace Stigmergy

open Scalar Stigmergy.Random

variable {S α G : Type} [Scalar α]

/-- An entry of a list that is not above any. -/
def IsLowest (x : α) (xs : List α) : Prop := x ∈ xs ∧ ∀ y ∈ xs, x ≤ y

/-- The trail of an ant in an iteration, both counted from zero. -/
def IsTrailAt (transcript : List (List (Trail S α))) (k i : Nat) (trail : Trail S α) : Prop :=
  ∃ trails, transcript[k]? = some trails ∧ trails[i]? = some trail

/-- The first of the cheapest trails: dearer than none, and cheaper than all before it. -/
structure IsFirstBest (transcript : List (List (Trail S α))) (k i : Nat) (trail : Trail S α) :
    Prop where
  isTrail : IsTrailAt transcript k i trail
  least : ∀ {k' i' other}, IsTrailAt transcript k' i' other → trail.cost ≤ other.cost
  first : ∀ {k' i' other}, IsTrailAt transcript k' i' other → k' < k ∨ k' = k ∧ i' < i →
    trail.cost < other.cost

/-! ## Lowest entries -/

section Lowest

variable [Rounded α] {x y : α} {xs : List α}

theorem isLowest_singleton (h : isNaN x = false) : IsLowest x [x] :=
  ⟨List.mem_cons_self, fun y hy => by
    rw [List.mem_singleton.mp hy]
    exact Rounded.le_refl h⟩

theorem IsLowest.append_lower (h : IsLowest x xs) (hlt : y < x) : IsLowest y (xs ++ [y]) := by
  refine ⟨by simp, ?_⟩
  intro z hz
  rcases List.mem_append.mp hz with hz | hz
  · exact Rounded.le_trans (Rounded.le_of_lt hlt) (h.2 z hz)
  · rw [List.mem_singleton.mp hz]
    exact Rounded.le_refl (Rounded.number_of_lt hlt).1

omit [Rounded α] in
theorem IsLowest.append_higher (h : IsLowest x xs) (hle : x ≤ y) : IsLowest x (xs ++ [y]) := by
  refine ⟨List.mem_append_left _ h.1, ?_⟩
  intro z hz
  rcases List.mem_append.mp hz with hz | hz
  · exact h.2 z hz
  · rw [List.mem_singleton.mp hz]
    exact hle

end Lowest

/-! ## Transcripts with one more iteration -/

section Append

variable {transcript : List (List (Trail S α))} {trails : List (Trail S α)} {k i : Nat}
  {trail : Trail S α}

omit [Scalar α] in
theorem isTrailAt_append :
    IsTrailAt (transcript ++ [trails]) k i trail ↔
      IsTrailAt transcript k i trail ∨ k = transcript.length ∧ trails[i]? = some trail := by
  unfold IsTrailAt
  constructor
  · rintro ⟨found, hk, hi⟩
    by_cases hlt : k < transcript.length
    · rw [List.getElem?_append_left hlt] at hk
      exact .inl ⟨found, hk, hi⟩
    · have hk' : k = transcript.length := by
        have := (List.getElem?_eq_some_iff.mp hk).1
        rw [List.length_append, List.length_singleton] at this
        omega
      subst hk'
      rw [List.getElem?_concat_length] at hk
      cases hk
      exact .inr ⟨rfl, hi⟩
  · rintro (⟨found, hk, hi⟩ | ⟨rfl, hi⟩)
    · exact ⟨found, by rw [List.getElem?_append_left (List.getElem?_eq_some_iff.mp hk).1, hk], hi⟩
    · exact ⟨trails, List.getElem?_concat_length, hi⟩

omit [Scalar α] in
theorem IsTrailAt.lt_length (h : IsTrailAt transcript k i trail) : k < transcript.length := by
  obtain ⟨found, hk, -⟩ := h
  exact (List.getElem?_eq_some_iff.mp hk).1

/-- A best trail stays the first one if the new ones are not cheaper. -/
theorem IsFirstBest.append (h : IsFirstBest transcript k i trail)
    (hle : ∀ t ∈ trails, trail.cost ≤ t.cost) :
    IsFirstBest (transcript ++ [trails]) k i trail := by
  have hk := h.isTrail.lt_length
  refine ⟨isTrailAt_append.mpr (.inl h.isTrail), ?_, ?_⟩
  · intro k' i' other hother
    rcases isTrailAt_append.mp hother with hold | ⟨-, hnew⟩
    · exact h.least hold
    · exact hle _ (List.mem_of_getElem? hnew)
  · intro k' i' other hother hbefore
    rcases isTrailAt_append.mp hother with hold | ⟨hlast, -⟩
    · exact h.first hold hbefore
    · omega

/-- A trail of a new iteration is the first best one if it is the iteration's, and cheaper than all
earlier trails. -/
theorem isFirstBest_new (hi : trails[i]? = some trail) (hle : ∀ t ∈ trails, trail.cost ≤ t.cost)
    (hfirst : ∀ j t, j < i → trails[j]? = some t → trail.cost < t.cost)
    (hold : ∀ {k' i' other}, IsTrailAt transcript k' i' other → trail.cost < other.cost)
    [Rounded α] : IsFirstBest (transcript ++ [trails]) transcript.length i trail := by
  refine ⟨isTrailAt_append.mpr (.inr ⟨rfl, hi⟩), ?_, ?_⟩
  · intro k' i' other hother
    rcases isTrailAt_append.mp hother with hother | ⟨-, hnew⟩
    · exact Rounded.le_of_lt (hold hother)
    · exact hle _ (List.mem_of_getElem? hnew)
  · intro k' i' other hother hbefore
    rcases isTrailAt_append.mp hother with hother | ⟨hlast, hnew⟩
    · exact hold hother
    · exact hfirst _ _ (by omega) hnew

end Append

/-! ## Histories -/

/-- The histories of costs hold the lowest of each iteration, and the lowest so far. -/
structure Lows (transcript : List (List (Trail S α))) (bests costs : List α) (best : α) : Prop where
  each : List.Forall₂ (fun trails x => IsLowest x (trails.map Trail.cost)) transcript bests
  length_costs : costs.length = transcript.length
  soFar : ∀ {k x}, costs[k]? = some x → IsLowest x (bests.take (k + 1))
  lowest : bests = [] ∧ best = infinity ∨ IsLowest best bests
  last : transcript = [] ∨ costs.getLast? = some best

theorem lows_nil : Lows ([] : List (List (Trail S α))) [] [] infinity :=
  ⟨.nil, rfl, fun hx => by simp at hx, .inl ⟨rfl, rfl⟩, .inl rfl⟩

/-- The best cost at an iteration is not above the lowest one of any iteration up to there. -/
theorem Lows.le_lowest {transcript : List (List (Trail S α))} {bests costs : List α} {best x y : α}
    (h : Lows transcript bests costs best) {l k : Nat} (hx : costs[k]? = some x) (hl : l ≤ k)
    (hy : bests[l]? = some y) : x ≤ y := by
  refine (h.soFar hx).2 y (List.mem_of_getElem? (i := l) ?_)
  rw [List.getElem?_take_of_lt (by omega), hy]

theorem Lows.antitone {transcript : List (List (Trail S α))} {bests costs : List α} {best x y : α}
    (h : Lows transcript bests costs best) {j k : Nat} (hjk : j ≤ k) (hx : costs[j]? = some x)
    (hy : costs[k]? = some y) : y ≤ x := by
  -- The entry at an earlier iteration is the lowest cost of some iteration up to there.
  obtain ⟨l, hl⟩ := List.mem_iff_getElem?.mp (h.soFar hx).1
  have hlt : l < j + 1 := by
    have := (List.getElem?_eq_some_iff.mp hl).1
    rw [List.length_take] at this
    omega
  rw [List.getElem?_take_of_lt hlt] at hl
  exact h.le_lowest hy (by omega) hl

/-- The best trail is the first of the cheapest ones, or none where all costs are infinite. -/
def Selected (transcript : List (List (Trail S α))) (best : Trail S α) (iteration : Nat) : Prop :=
  (∀ {k i trail}, IsTrailAt transcript k i trail → isFinite trail.cost = false) ∧
      best = Trail.unbounded ∧ iteration = 0 ∨
    ∃ k i, IsFirstBest transcript k i best ∧ isFinite best.cost = true ∧ iteration = k + 1

theorem selected_nil : Selected ([] : List (List (Trail S α))) Trail.unbounded 0 :=
  .inl ⟨fun ⟨_, h, _⟩ => by simp at h, rfl, rfl⟩

section Append

variable [Rounded α] {transcript : List (List (Trail S α))} {trails : List (Trail S α)}

/-- The lowest cost so far, with one more iteration. -/
theorem Lows.lowest_append {bests costs : List α} {best cost : α}
    (h : Lows transcript bests costs best) (hpos : ofNat 0 < cost) :
    IsLowest (if cost < best then cost else best) (bests ++ [cost]) := by
  have hnumber := (Rounded.number_of_lt hpos).2
  rcases h.lowest with ⟨rfl, rfl⟩ | hlowest
  · rw [List.nil_append]
    split
    · exact isLowest_singleton hnumber
    · next hnot =>
      rw [Rounded.eq_infinity hpos hnot] at hnumber ⊢
      exact isLowest_singleton hnumber
  · split
    · next hlt => exact hlowest.append_lower hlt
    · next hnot =>
      have hbest : isNaN best = false := (Rounded.number_of_le (hlowest.2 _ hlowest.1)).1
      exact hlowest.append_higher (Rounded.le_of_not_gt hbest hnumber hnot)

theorem Lows.append {bests costs : List α} {best cost : α} (h : Lows transcript bests costs best)
    (hpos : ofNat 0 < cost) (hcost : IsLowest cost (trails.map Trail.cost)) :
    Lows (transcript ++ [trails]) (bests ++ [cost]) (costs ++ [if cost < best then cost else best])
      (if cost < best then cost else best) := by
  have hlowest := h.lowest_append hpos
  have hlength := h.each.length_eq
  refine
    { each := List.rel_append h.each (.cons hcost .nil)
      length_costs := by simp [h.length_costs]
      soFar := fun {k x} hx => ?_
      lowest := .inr hlowest
      last := .inr List.getLast?_concat }
  by_cases hk : k < costs.length
  · rw [List.getElem?_append_left hk] at hx
    rw [List.take_append_of_le_length (by rw [← hlength, ← h.length_costs]; omega)]
    exact h.soFar hx
  · have hlast : k = costs.length := by
      have := (List.getElem?_eq_some_iff.mp hx).1
      rw [List.length_append, List.length_singleton] at this
      omega
    subst hlast
    rw [List.getElem?_concat_length] at hx
    cases hx
    have hall : (bests ++ [cost]).take (costs.length + 1) = bests ++ [cost] := by
      apply List.take_of_length_le
      rw [List.length_append, ← hlength, h.length_costs, List.length_singleton]
    rw [hall]
    exact hlowest

theorem Selected.best_le {best : Trail S α} {iteration : Nat}
    (h : Selected transcript best iteration)
    (hpositive : ∀ {k i trail}, IsTrailAt transcript k i trail → ofNat 0 < trail.cost) {k i : Nat}
    {trail : Trail S α} (htrail : IsTrailAt transcript k i trail) : best.cost ≤ trail.cost := by
  rcases h with ⟨hinfinite, rfl, -⟩ | ⟨k', i', hfirst, -⟩
  · have hpos := hpositive htrail
    have hnot : ¬trail.cost < infinity := fun hlt => by
      have hfinite := (Rounded.isFinite_iff_lt (Rounded.le_of_lt hpos)).mpr hlt
      rw [hinfinite htrail] at hfinite
      cases hfinite
    have hinfinity := Rounded.eq_infinity hpos hnot
    rw [hinfinity]
    rw [hinfinity] at hpos
    exact Rounded.le_refl (Rounded.number_of_lt hpos).2
  · exact hfirst.least htrail

/-- An iteration's leader becomes the best trail if it is cheaper. -/
theorem Selected.append {best leader : Trail S α} {iteration i : Nat}
    (h : Selected transcript best iteration)
    (hpositive : ∀ {k i trail}, IsTrailAt transcript k i trail → ofNat 0 < trail.cost)
    (hpos : ∀ t ∈ trails, ofNat 0 < t.cost) (hi : trails[i]? = some leader)
    (hleast : ∀ t ∈ trails, leader.cost ≤ t.cost)
    (hfirst : ∀ (j : Nat) t, j < i → trails[j]? = some t → leader.cost < t.cost) :
    Selected (transcript ++ [trails]) (if leader.cost < best.cost then leader else best)
      (if leader.cost < best.cost then transcript.length + 1 else iteration) := by
  have hleader := hpos leader (List.mem_of_getElem? hi)
  split
  · next hlt =>
    have hfinite := Rounded.isFinite_of_lt (Rounded.le_of_lt hleader) hlt
    refine .inr ⟨transcript.length, i, ?_, hfinite, rfl⟩
    exact isFirstBest_new hi hleast hfirst fun hother =>
      Rounded.lt_of_lt_of_le hlt (h.best_le hpositive hother)
  · next hnot =>
    rcases h with ⟨hinfinite, rfl, rfl⟩ | ⟨k, i', hbest, hfinite, rfl⟩
    · refine .inl ⟨?_, rfl, rfl⟩
      intro k i' trail htrail
      rcases isTrailAt_append.mp htrail with hold | ⟨-, hnew⟩
      · exact hinfinite hold
      · -- The leader's cost is infinite, and no trail is cheaper than it.
        have hle := hleast _ (List.mem_of_getElem? hnew)
        rw [Rounded.eq_infinity hleader hnot] at hle
        apply Bool.eq_false_iff.mpr
        intro hf
        have hnonneg := Rounded.le_of_lt (hpos _ (List.mem_of_getElem? hnew))
        exact Rounded.not_ge_of_lt ((Rounded.isFinite_iff_lt hnonneg).mp hf) hle
    · have hle := Rounded.le_of_not_gt (Rounded.number_of_isFinite hfinite)
        (Rounded.number_of_lt hleader).2 hnot
      exact .inr ⟨k, i', hbest.append fun t ht => Rounded.le_trans hle (hleast t ht), hfinite, rfl⟩

end Append

/-! ## Runs -/

variable [Ord S]

namespace Run

/-- What the fields of a run say about the trails so far. -/
structure Chronicle (s : Settings α) (nodes : Nat) (transcript : List (List (Trail S α)))
    (run : Run S α G) : Prop where
  settings : run.colony.settings = s
  ants : ∀ trails ∈ transcript, trails.length = s.antCount nodes
  positive : ∀ {k i trail}, IsTrailAt transcript k i trail → ofNat 0 < trail.cost
  lows : Lows transcript run.iterationBests.toList run.costs.toList run.colony.best.cost
  selected : Selected transcript run.colony.best run.bestIteration

/-- **One iteration writes the chronicle on.** -/
theorem Chronicle.settled [Rounded α] {s : Settings α} {nodes : Nat}
    {transcript : List (List (Trail S α))} {run : Run S α G} (h : Chronicle s nodes transcript run)
    {trails : List (Trail S α)} (hne : trails ≠ []) (hlength : trails.length = s.antCount nodes)
    (hpositive : ∀ t ∈ trails, ofNat 0 < t.cost) (pheromone : Pheromone S α) :
    Chronicle s nodes (transcript ++ [trails])
      (run.settled (transcript.length + 1) trails pheromone) := by
  obtain ⟨i, hi, hleast, hfirst⟩ := leader_least hne fun t ht =>
    (Rounded.number_of_lt (hpositive t ht)).2
  have hmem : leader trails ∈ trails := List.mem_of_getElem? hi
  have hlowest : IsLowest (leader trails).cost (trails.map Trail.cost) := by
    refine ⟨List.mem_map_of_mem hmem, ?_⟩
    intro x hx
    obtain ⟨t, ht, rfl⟩ := List.mem_map.mp hx
    exact hleast t ht
  refine ⟨?_, ?_, ?_, ?_, ?_⟩
  · unfold Run.settled
    simp only [colony_judged, Colony.settings_adopt]
    exact h.settings
  · intro found hfound
    rcases List.mem_append.mp hfound with hold | hnew
    · exact h.ants found hold
    · rw [List.mem_singleton.mp hnew]
      exact hlength
  · intro k i trail htrail
    rcases isTrailAt_append.mp htrail with hold | ⟨-, hnew⟩
    · exact h.positive hold
    · exact hpositive _ (List.mem_of_getElem? hnew)
  · have hlows := h.lows.append (hpositive _ hmem) hlowest
    unfold Run.settled
    simpa only [colony_judged, Colony.best_adopt, iterationBests_judged, costs_judged,
      Array.toList_push, apply_ite Trail.cost] using hlows
  · have hselected := h.selected.append h.positive hpositive hi hleast hfirst
    unfold Run.settled
    simpa only [colony_judged, Colony.best_adopt, bestIteration_judged] using hselected

end Run

variable [Std.TransOrd S] [WordSource G]

namespace Run

/-- The trails of so many iterations, the first of them numbered `iteration`, as far as the run
goes. -/
def transcript (p : Problem S α) (schedule : Schedule) :
    (count iteration : Nat) → Run S α G → List (List (Trail S α))
  | 0, _, _ => []
  | count + 1, iteration, run =>
    match run.trails p schedule iteration (run.plans p).1 with
    | .error _ => []
    | .ok trails =>
      trails :: match run.iterate p schedule iteration with
        | .error _ => []
        | .ok next => transcript p schedule count (iteration + 1) next

variable {p : Problem S α} {schedule : Schedule} {run next last : Run S α G}
  {count iteration : Nat}

theorem transcript_succ {trails : List (Trail S α)}
    (htrails : run.trails p schedule iteration (run.plans p).1 = .ok trails)
    (hnext : run.iterate p schedule iteration = .ok next) :
    run.transcript p schedule (count + 1) iteration =
      trails :: next.transcript p schedule count (iteration + 1) := by
  rw [transcript, htrails, hnext]

theorem length_transcript (h : run.iterations p schedule count iteration = .ok last) :
    (run.transcript p schedule count iteration).length = count := by
  induction count generalizing iteration run with
  | zero => rfl
  | succ count ih =>
    rw [iterations_succ_eq] at h
    split at h
    · cases h
    · next hnext =>
      obtain ⟨trails, htrails, -⟩ := iterate_ok hnext
      rw [transcript_succ htrails hnext, List.length_cons, ih h]

omit [Std.TransOrd S] in
/-- Drawing plans writes nothing into the chronicle. -/
theorem Chronicle.drawn {s : Settings α} {nodes : Nat} {before : List (List (Trail S α))}
    (h : Chronicle s nodes before run) (p : Problem S α) : Chronicle s nodes before (run.drawn p) :=
  ⟨h.settings, h.ants, h.positive, h.lows, h.selected⟩

/-- A run writes its whole transcript into the chronicle. -/
theorem Chronicle.iterations [Rounded α] {s : Settings α} {before : List (List (Trail S α))}
    (h : Chronicle s p.nodes before run) (hants : 0 < s.antCount p.nodes)
    (hlast : run.iterations p schedule count (before.length + 1) = .ok last) :
    Chronicle s p.nodes (before ++ run.transcript p schedule count (before.length + 1)) last := by
  induction count generalizing before run with
  | zero =>
    cases hlast
    rw [transcript, List.append_nil]
    exact h
  | succ count ih =>
    rw [iterations_succ_eq] at hlast
    split at hlast
    · cases hlast
    · next next hnext =>
      obtain ⟨trails, pheromone, htrails, hlength, hreal, -, hsettled⟩ := iterate_settled hnext
      rw [h.settings] at hlength
      have hpositive : ∀ t ∈ trails, ofNat 0 < t.cost := fun t ht => (hreal t ht).2
      have hne : trails ≠ [] := List.length_pos_iff.mp (hlength ▸ hants)
      have hstep := (h.drawn p).settled hne hlength hpositive pheromone
      rw [← hsettled] at hstep
      have hbefore : (before ++ [trails]).length + 1 = before.length + 1 + 1 := by simp
      rw [← hbefore] at hlast
      have hrest := ih hstep hlast
      rw [hbefore, List.append_assoc] at hrest
      rw [transcript_succ htrails hnext]
      exact hrest

omit [Std.TransOrd S] [WordSource G] in
theorem chronicle_begun [Rounded α] {c : Colony S α} {source : G} :
    Chronicle c.settings p.nodes [] (begun c p source) :=
  ⟨rfl, fun _ h => by simp at h, fun ⟨_, h, _⟩ => by simp at h, lows_nil, selected_nil⟩

end Run

namespace Colony

def transcript (schedule : Schedule) (c : Colony S α) (p : Problem S α) (source : G) :
    List (List (Trail S α)) :=
  (Run.begun c p source).transcript p schedule c.settings.iterations 1

variable {c : Colony S α} {p : Problem S α} {schedule : Schedule} {source : G}
  {report : Report S α}

/-- **A report names the first of the cheapest trails.** Its histories have one entry for every
iteration: the lowest cost of the iteration, and the lowest of all so far. -/
theorem best_is_first_of_cheapest [Rounded α] (hvalid : c.settings.Valid)
    (h : (c.solveOn schedule p source).result = .ok report) :
    let transcript := c.transcript schedule p source
    (transcript.length = c.settings.iterations ∧
      ∀ trails ∈ transcript, trails.length = c.settings.antCount p.nodes) ∧
    (report.iterationBests.size = c.settings.iterations ∧
      ∀ (k : Nat) trails x, transcript[k]? = some trails → report.iterationBests[k]? = some x →
        IsLowest x (trails.map Trail.cost)) ∧
    (report.costs.size = c.settings.iterations ∧
      ∀ (k : Nat) x, report.costs[k]? = some x →
        IsLowest x (report.iterationBests.toList.take (k + 1))) ∧
    ((∀ (j k : Nat) x y, j ≤ k → report.costs[j]? = some x → report.costs[k]? = some y → y ≤ x) ∧
      ∀ (k : Nat) x y, report.costs[k]? = some x → report.iterationBests[k]? = some y → x ≤ y) ∧
    report.costs.back? = some report.best.cost ∧
    (c.solveOn schedule p source).run.colony.best = report.best ∧
    ((∃ k i trail, IsTrailAt transcript k i trail ∧ isFinite trail.cost = true) →
      ∃ k i, IsFirstBest transcript k i report.best ∧ report.bestIteration = k + 1) ∧
    ((¬∃ k i trail, IsTrailAt transcript k i trail ∧ isFinite trail.cost = true) →
      report.best = ⟨[], infinity⟩ ∧ report.bestIteration = 0) := by
  intro transcript
  obtain ⟨hnodes, last, hlast, rfl, hrun⟩ := solveOn_ok h
  have hants : 0 < c.settings.antCount p.nodes := Settings.antCount_pos (by omega)
  have hbegun : Run.Chronicle c.settings p.nodes [] (Run.begun c p source) := Run.chronicle_begun
  have hchronicle : Run.Chronicle c.settings p.nodes transcript last :=
    hbegun.iterations hants hlast
  have hlength : transcript.length = c.settings.iterations := Run.length_transcript hlast
  have hbests := hchronicle.lows.each.length_eq
  have hcosts := hchronicle.lows.length_costs
  refine ⟨⟨hlength, hchronicle.ants⟩, ⟨?_, ?_⟩, ⟨?_, ?_⟩, ⟨?_, ?_⟩, ?_, ?_, ?_, ?_⟩
  · change last.iterationBests.size = _
    rw [← hlength, hbests, Array.length_toList]
  · intro k trails x htrails hx
    change last.iterationBests[k]? = some x at hx
    rw [← Array.getElem?_toList] at hx
    obtain ⟨hk, rfl⟩ := List.getElem?_eq_some_iff.mp htrails
    obtain ⟨hk', rfl⟩ := List.getElem?_eq_some_iff.mp hx
    exact hchronicle.lows.each.get hk hk'
  · change last.costs.size = _
    rw [← hlength, ← hcosts, Array.length_toList]
  · intro k x hx
    rw [← Array.getElem?_toList] at hx
    exact hchronicle.lows.soFar hx
  · intro j k x y hjk hx hy
    rw [← Array.getElem?_toList] at hx hy
    exact hchronicle.lows.antitone hjk hx hy
  · intro k x y hx hy
    change last.iterationBests[k]? = some y at hy
    rw [← Array.getElem?_toList] at hx hy
    exact hchronicle.lows.le_lowest hx (Nat.le_refl k) hy
  · rw [← Array.getLast?_toList]
    refine hchronicle.lows.last.resolve_left fun hempty => ?_
    rw [hempty] at hlength
    exact hvalid.common.iterations hlength.symm
  · rw [hrun]
    rfl
  · rintro ⟨k, i, trail, htrail, hfinite⟩
    rcases hchronicle.selected with ⟨hinfinite, -⟩ | ⟨k', i', hfirst, -, hiteration⟩
    · rw [hinfinite htrail] at hfinite
      cases hfinite
    · exact ⟨k', i', hfirst, hiteration⟩
  · intro hnone
    rcases hchronicle.selected with ⟨-, hbest, hiteration⟩ | ⟨k, i, hfirst, hfinite, -⟩
    · exact ⟨hbest, hiteration⟩
    · exact absurd ⟨k, i, _, hfirst.isTrail, hfinite⟩ hnone

/-- Two ants on ways of their own to one goal. -/
theorem best_is_first_on_two_ways :
    let s : Settings Float := { Settings.standard with ants := 2, iterations := 2 }
    let ways : Graph Float := ⟨2, #[0, 1], [(0, [(2, 3)]), (1, [(2, 1)])], [2]⟩
    let c : Colony Int Float := Colony.fresh s
    let outcome := c.solve ways.problem (Script.mk #[0, 1] 0)
    s.Valid ∧ ∃ report, outcome.result = .ok report ∧
      report.costs.back? = some report.best.cost ∧ outcome.run.colony.best = report.best := by
  intro s ways c outcome
  have hvalid : s.Valid := by decide +kernel
  have hsome : outcome.result.toOption.isSome = true := by decide +kernel
  cases hresult : outcome.result with
  | error halt =>
    rw [hresult] at hsome
    cases hsome
  | ok report =>
    have hsettings : c.settings.Valid := hvalid
    have hsolve : (c.solveOn .inOrder ways.problem (Script.mk #[0, 1] 0)).result = .ok report :=
      hresult
    obtain ⟨-, -, -, -, hback, hbest, -⟩ := best_is_first_of_cheapest hsettings hsolve
    exact ⟨hvalid, report, rfl, hback, hbest⟩

end Colony

end Stigmergy
