/-!
# Where an ant stands on its tour

A state holds the visited cities as the bits of a number, the city the ant stands on, and the city
its tour began in. States are ordered by these three in turn.
-/

namespace Stigmergy.Tour

structure State where
  /-- Bit `i` is set once city `i` has been visited. -/
  visited : Nat
  current : Nat
  origin : Nat
  deriving DecidableEq, Repr

namespace State

instance : Ord State :=
  ⟨compareLex (compareOn visited) (compareLex (compareOn current) (compareOn origin))⟩

instance : Std.TransOrd State :=
  inferInstanceAs (Std.TransCmp
    (compareLex (compareOn visited) (compareLex (compareOn current) (compareOn origin))))

theorem compare_eq (s t : State) :
    compare s t = (compare s.visited t.visited).then
      ((compare s.current t.current).then (compare s.origin t.origin)) := rfl

instance : Std.LawfulEqOrd State where
  compare_self {s} := by simp only [Std.ReflCmp.compare_self]
  eq_of_compare {s t} h := by
    simp only [compare_eq, Ordering.then_eq_eq, Std.LawfulEqCmp.compare_eq_iff_eq] at h
    obtain ⟨v, c, o⟩ := s
    obtain ⟨v', c', o'⟩ := t
    simpa using h

def start (city : Nat) : State := ⟨1 <<< city, city, city⟩

def hasVisited (s : State) (city : Nat) : Bool := s.visited.testBit city

def visit (s : State) (city : Nat) : State :=
  { s with visited := s.visited ||| (1 <<< city), current := city }

def home (s : State) : State := { s with current := s.origin }

def tour (path : List State) : List Nat := path.map current

end State

end Stigmergy.Tour
