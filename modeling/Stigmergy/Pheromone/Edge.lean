/-!
# Directed edges

An edge leads from a source to a target, and the way back is another edge. Edges are ordered by
their source, then by their target.
-/

namespace Stigmergy.Pheromone

structure Edge (S : Type) where
  source : S
  target : S
  deriving DecidableEq, Repr

namespace Edge

variable {S : Type} [Ord S]

instance : Ord (Edge S) :=
  ⟨compareLex (compareOn source) (compareOn target)⟩

instance [Std.TransOrd S] : Std.TransOrd (Edge S) :=
  inferInstanceAs (Std.TransCmp (compareLex (compareOn source) (compareOn target)))

theorem compare_eq (a b : Edge S) :
    compare a b = (compare a.source b.source).then (compare a.target b.target) := rfl

instance [Std.LawfulEqOrd S] : Std.LawfulEqOrd (Edge S) where
  compare_self {e} := by
    simp only [compare_eq, Std.ReflCmp.compare_self, Ordering.then_eq_eq, and_self]
  eq_of_compare {a b} h := by
    simp only [compare_eq, Ordering.then_eq_eq, Std.LawfulEqCmp.compare_eq_iff_eq] at h
    obtain ⟨s, t⟩ := a
    obtain ⟨s', t'⟩ := b
    simpa using h

end Edge

end Stigmergy.Pheromone
