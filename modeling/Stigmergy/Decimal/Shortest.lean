import Stigmergy.Binary64.Rounding
import Stigmergy.Decimal.Numeral

/-!
# The shortest decimal of a double

Every real nearer to a double than to its neighbours reads back as that double; an end of this
interval does so too when the double's count is even. Among the decimal grids `10 ^ k`, a coarser
one has shorter numerals, so the shortest numeral lies on the coarsest grid with a point in the
interval.

* `Interval.pick`: the point of a grid that stands for the double, where the grid has one.
* `shortest`: the point on the coarsest grid that has one. Only the two grid points around the
  double can be in the interval without a third being nearer; of two, the nearer is taken, and the
  upper one when they are equally near.
-/

namespace Stigmergy.Decimal

open Stigmergy.Binary64

/-- A positive double and the reals that read back as it, in units that are a quarter of the
double's last place times `2 ^ scale`: from `low` to `high` around `value`. -/
structure Interval where
  low : Nat
  value : Nat
  high : Nat
  /-- Whether the two ends belong to the interval. -/
  closed : Bool
  scale : Int
  deriving Repr

/-- The interval of a magnitude that is not zero. Below a power of two the doubles lie twice as
close, except at the lowest place. -/
def Interval.ofMagnitude (m : Magnitude) : Interval :=
  let value := 4 * m.count
  let gap := if m.count = 1 <<< 52 ∧ lowestPlace < m.place then 1 else 2
  ⟨value - gap, value, value + 2, m.count % 2 = 0, m.place - 2⟩

/-- Whether `a` is below `b`, or level with it where the ends belong to the interval. -/
def Interval.before (i : Interval) (a b : Nat) : Bool := if i.closed then a ≤ b else a < b

/-- The point of the grid `10 ^ k` that stands for the interval's double, if the interval holds
one: the nearer of the points below and above the double, the upper one on a draw. -/
def Interval.pick (i : Interval) (k : Int) : Option Numeral :=
  let unit := Nat.pow 10 (-k).toNat <<< i.scale.toNat
  let step := Nat.pow 10 k.toNat <<< (-i.scale).toNat
  let below := i.value * unit / step
  let belowIn := i.before (i.low * unit) (below * step)
  let aboveIn := i.before ((below + 1) * step) (i.high * unit)
  let aboveNearer := (2 * below + 1) * step ≤ 2 * i.value * unit
  if aboveIn && (aboveNearer || !belowIn) then some ⟨below + 1, k⟩
  else if belowIn then some ⟨below, k⟩
  else none

/-- The first point found on ever finer grids, from `10 ^ k` down. -/
def Interval.search (i : Interval) : (grids : Nat) → (k : Int) → Option Numeral
  | 0, _ => none
  | grids + 1, k =>
    match i.pick k with
    | some point => some point
    | none => i.search grids (k - 1)

/-- The power of ten of the coarsest grid worth a look: no double reaches it. -/
def coarsest : Nat := 309

/-- The places after the point on the finest grid worth a look: no two doubles are as close as two
of its points. -/
def finest : Nat := 324

/-- The shortest decimal that reads back as the double of this magnitude. -/
def shortest (m : Magnitude) : Numeral :=
  if m.count = 0 then ⟨0, 0⟩
  else ((Interval.ofMagnitude m).search (coarsest + finest + 1) coarsest).getD ⟨0, 0⟩

end Stigmergy.Decimal
