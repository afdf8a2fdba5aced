import Stigmergy.Colony.Run

/-!
# Runs that fit

A run keeps a table of costs with one entry per iteration, and one of plans with one entry per ant.
A cost takes one word of eight bytes, a plan those of its start state and one for its seed.

* `Settings.fits`: whether the tables of a run have room in a memory with places below `2 ^ 63`.
* `Colony.solveWithin`: refuses runs whose tables do not.
* `Settings.solve`: a run of a new colony with words from a seed.
-/

namespace Stigmergy

/-- The number of words that no table can reach. -/
def wordLimit : Nat := 1 <<< 60

/-- Whether the tables of a run on a problem have room. -/
def Settings.fits {S α : Type} (s : Settings α) (p : Problem S α) : Bool :=
  s.iterations < wordLimit && s.antCount p.nodes * (p.stateWords + 1) < wordLimit

variable {S α G : Type} [Ord S] [Std.TransOrd S] [Scalar α] [Random.WordSource G]

/-- A run of the colony on a problem, if its tables fit. -/
def Colony.solveWithin (c : Colony S α) (p : Problem S α) (source : G) : Outcome S α G :=
  if p.nodes < 2 || c.settings.fits p then c.solve p source
  else ⟨.error (.fault .oversizedRun), Run.start c.restart source⟩

/-- A run of a new colony on a problem, with words from the given seed. -/
def Settings.solve (s : Settings α) (p : Problem S α) (seed : UInt64) :
    Except (Settings.Breach α) (Outcome S α Random.Keystream) :=
  (Colony.ofSettings? s).map fun c => c.solveWithin p (Random.Keystream.ofSeed seed)

end Stigmergy
