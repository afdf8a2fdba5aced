import Stigmergy.Proofs.Colony.Reports
import Stigmergy.Proofs.Colony.Story

/-!
# Runs in which all trails cost the same

On some problems an ant has no choice that matters: every walk to a goal costs the same. A run on
such a problem is settled in its first iteration.

* `Chapter.CostsAll`: all trails of an iteration have a given cost.
* `IsStory.leader_cost`, `IsStory.best_cost`: then that is the lowest cost, of the iteration and up
  to it.
* `IsStory.improves_iff`, `IsStory.improving_eq`: and the first iteration alone improves.
* `Colony.report_of_same_cost`: the report and the history of such a run.
-/

namespace Stigmergy

open Scalar Stigmergy.Random

variable {S α G : Type} [Scalar α]

namespace Chapter

def CostsAll (cost : α) (chapter : Chapter S α) : Prop := ∀ t ∈ chapter.trails, t.cost = cost

theorem Follows.leader_mem {earlier : List (Chapter S α)} {chapter : Chapter S α}
    (h : chapter.Follows earlier) : chapter.leader ∈ chapter.trails := by
  obtain ⟨i, hi, -⟩ := h.leader
  exact List.mem_of_getElem? hi

end Chapter

namespace IsStory

variable {chapters : List (Chapter S α)} {chapter : Chapter S α} {cost : α} {k : Nat}

theorem leader_mem (h : IsStory chapters) (hchapter : chapter ∈ chapters) :
    chapter.leader ∈ chapter.trails := by
  obtain ⟨k, hk⟩ := List.mem_iff_getElem?.mp hchapter
  exact (h k chapter hk).leader_mem

variable (h : IsStory chapters) (hcost : ∀ chapter ∈ chapters, chapter.CostsAll cost)
include h hcost

theorem leader_cost (hchapter : chapter ∈ chapters) : chapter.leader.cost = cost :=
  hcost chapter hchapter _ (h.leader_mem hchapter)

/-- The lowest of costs that are all the same is that cost. -/
theorem best_cost (hchapter : chapter ∈ chapters) : chapter.best = cost := by
  obtain ⟨k, hk⟩ := List.mem_iff_getElem?.mp hchapter
  obtain ⟨hmem, -⟩ := (h k chapter hk).best
  obtain ⟨earlier, hearlier, heq⟩ := List.mem_map.mp hmem
  rw [← heq]
  cases List.mem_append.mp hearlier with
  | inl htaken => exact h.leader_cost hcost (List.mem_of_mem_take htaken)
  | inr hlast =>
    rw [List.mem_singleton.mp hlast]
    exact h.leader_cost hcost hchapter

/-- **The first iteration alone improves**, since no cost is below itself. -/
theorem improves_iff [Rounded α] (hfinite : cost < infinity) (hk : chapters[k]? = some chapter) :
    chapter.improves = true ↔ k = 0 := by
  have hleader := h.leader_cost hcost (List.mem_of_getElem? hk)
  rw [(h k chapter hk).improves, hleader]
  constructor
  · rintro ⟨-, hbelow⟩
    by_contra hlater
    have hlt := (List.getElem?_eq_some_iff.mp hk).1
    have hfirst : chapters[0] ∈ chapters.take k :=
      List.mem_take_iff_getElem.mpr ⟨0, by omega, rfl⟩
    have hself := hbelow _ hfirst
    rw [h.leader_cost hcost (List.getElem_mem _)] at hself
    exact Rounded.lt_irrefl cost hself
  · rintro rfl
    exact ⟨hfinite, fun _ he => by simp at he⟩

theorem improving_eq [Rounded α] (hfinite : cost < infinity)
    (hfirst : chapters[0]? = some chapter) : improving chapters = [(chapter, 1)] := by
  have himproves {found : Chapter S α} {k : Nat} (hk : chapters[k]? = some found) :
      found.improves = true ↔ k = 0 := h.improves_iff hcost hfinite hk
  cases chapters with
  | nil => simp at hfirst
  | cons first rest =>
    obtain rfl : first = chapter := by simpa using hfirst
    have hnone : ∀ found k, (found, k) ∈ rest.zipIdx 2 → found.improves = false := by
      intro found k hentry
      obtain ⟨-, hfound⟩ := List.mk_mem_zipIdx_iff_le_and_getElem?_sub.mp hentry
      have hlater := himproves (k := k - 2 + 1) (by simpa using hfound)
      simpa using hlater
    simpa [improving, (himproves hfirst).mpr rfl, List.filter_eq_nil_iff] using hnone

end IsStory

variable [Ord S] [Std.TransOrd S] [WordSource G] [Rounded α] {c : Colony S α} {p : Problem S α}
  {schedule : Schedule} {source : G} {report : Report S α} {P : Trail S α → Prop} {cost : α}

omit [Rounded α] in
/-- The trails of a run's chapters are walks of its ants. -/
theorem Run.of_mem_chapter (hnodes : 0 < p.nodes) {count iteration : Nat} {run : Run S α G}
    {chapters : List (Chapter S α)}
    (htranscript : chapters.map Chapter.trails = run.transcript p schedule count iteration)
    (hwalks : ∀ node < p.nodes, ∀ (guide : Guide S α) (g g' : Keystream) (trail : Trail S α),
      p.walk guide (p.start node) g = (.ok trail, g') → P trail) :
    ∀ chapter ∈ chapters, ∀ t ∈ chapter.trails, P t := by
  intro chapter hchapter t ht
  have htrails : chapter.trails ∈ run.transcript p schedule count iteration :=
    htranscript ▸ List.mem_map_of_mem hchapter
  obtain ⟨k, hk⟩ := List.mem_iff_getElem?.mp htrails
  obtain ⟨i, hi⟩ := List.mem_iff_getElem?.mp ht
  obtain ⟨node, hnode, guide, g, g', hwalk⟩ := exists_walk_of_transcript hnodes ⟨_, hk, hi⟩
  exact hwalks node hnode guide g g' t hwalk

namespace Colony

/-- **The report of a run whose trails all cost the same.** Its best trail is one of the first
iteration, and the only improvement told; every entry of its histories is that cost. -/
theorem report_of_same_cost (hvalid : c.settings.Valid)
    (hwalks : ∀ node < p.nodes, ∀ (guide : Guide S α) (g g' : Keystream) (trail : Trail S α),
      p.walk guide (p.start node) g = (.ok trail, g') → trail.cost = cost ∧ P trail)
    (hfinite : cost < infinity) (h : (c.solveOn schedule p source).result = .ok report) :
    let history := History.ofEvents (c.solveOn schedule p source).run.events
    (P report.best ∧ report.best.cost = cost ∧ report.bestIteration = 1) ∧
      report.costs = Array.replicate c.settings.iterations cost ∧
      report.iterationBests = Array.replicate c.settings.iterations cost ∧
      history.improvements = #[report.best] := by
  intro history
  obtain ⟨hnodes, last, hlast, rfl, hrun⟩ := solveOn_ok h
  have hants : 0 < c.settings.antCount p.nodes := Settings.antCount_pos (by omega)
  obtain ⟨chapters, htold, htranscript⟩ :=
    (Run.tells_begun c p source).iterations Run.chronicle_begun hants hlast
  rw [List.nil_append] at htold
  have hlength : chapters.length = c.settings.iterations := by
    rw [← List.length_map, htranscript]
    exact Run.length_transcript hlast
  have hwalked := Run.of_mem_chapter (by omega) htranscript hwalks
  have hcost : ∀ chapter ∈ chapters, chapter.CostsAll cost := fun chapter hchapter t ht =>
    (hwalked chapter hchapter t ht).1
  have hstory := htold.story
  have hreplicate {f : Chapter S α → α} (hf : ∀ chapter ∈ chapters, f chapter = cost) :
      (chapters.map f).toArray = Array.replicate c.settings.iterations cost := by
    rw [List.map_congr_left hf, List.map_const', hlength, List.toArray_replicate]
  obtain ⟨first, hfirst⟩ : ∃ first, chapters[0]? = some first := by
    have hiterations := hvalid.common.iterations
    exact ⟨_, List.getElem?_eq_getElem (by omega)⟩
  have hmem := List.mem_of_getElem? hfirst
  have himproving := hstory.improving_eq hcost hfinite hfirst
  have hbest : last.colony.best = first.leader := by simpa [himproving] using htold.best
  have hiteration : last.bestIteration = 1 := by simpa [himproving] using htold.bestIteration
  refine ⟨⟨?_, ?_, hiteration⟩, ?_, ?_, ?_⟩
  · change P last.colony.best
    rw [hbest]
    exact (hwalked first hmem _ (hstory.leader_mem hmem)).2
  · change last.colony.best.cost = cost
    rw [hbest]
    exact hstory.leader_cost hcost hmem
  · rw [← hreplicate fun _ => hstory.best_cost hcost, ← htold.costs]
    rfl
  · rw [← hreplicate fun _ => hstory.leader_cost hcost, ← htold.iterationBests]
    rfl
  · have himproved : chapters.filter Chapter.improves = [first] := by
      rw [← map_fst_improving, himproving]
      rfl
    change (History.ofEvents (c.solveOn schedule p source).run.events).improvements = _
    rw [hrun, htold.history rfl, himproved, List.map_singleton, ← hbest]
    rfl

end Colony

end Stigmergy
