/-!
# Faults

* `Fault`: what can stop a computation that no rule of the domain provides for. It is a mistake of
  the caller, not an outcome of the search, so it carries no message and leaves no result.
* `Halt`: an end before the result, for a cause that the domain knows or by a fault.
-/

namespace Stigmergy

/-- The mistakes that end a computation. -/
inductive Fault where
  /-- A band whose lower end is not at or below its upper end. -/
  | invertedBand
  /-- A state or a number that names nothing of the problem. -/
  | unknownState
  /-- A draw from a range that holds no number, or has no finite end. -/
  | emptyRange
  /-- A walk longer than its problem allows. -/
  | endlessWalk
  /-- A run whose tables no memory could hold. -/
  | oversizedRun
  deriving DecidableEq, Repr

/-- Why there is no result. -/
inductive Halt (Cause : Type) where
  | failure (cause : Cause)
  | fault (f : Fault)
  deriving DecidableEq, Repr

def Halt.map {Cause Wider : Type} (widen : Cause → Wider) : Halt Cause → Halt Wider
  | .failure cause => .failure (widen cause)
  | .fault f => .fault f

end Stigmergy
