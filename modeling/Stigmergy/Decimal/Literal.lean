import Stigmergy.Decimal.Numeral

/-!
# Decimal literals

The parts of a written number, before it is given a type.

* `Literal.natural?`: the whole number that a literal without sign, point and exponent writes.
* `Literal.numeral`: the number that a literal is read as, up to its sign. A literal of very many
  digits is read as a little more than its first ones write.
* `Literal.toFloat?`: the double nearest to that number.
-/

namespace Stigmergy.Decimal

/-- A number as written: digits before the point, after it, and a power of ten. -/
structure Literal where
  negative : Bool
  whole : List Nat
  /-- The digits after the point, if there is a point. -/
  fraction : Option (List Nat)
  exponent : Option Int
  deriving DecidableEq, Repr

namespace Literal

def value (digits : List Nat) : Nat := digits.foldl (fun n d => 10 * n + d) 0

/-- The whole number written, if there is no sign, no point and no exponent. -/
def natural? (l : Literal) : Option Nat :=
  if l.negative || l.fraction.isSome || l.exponent.isSome then none else some (value l.whole)

/-- The digits after the point, without the zeros at their end. -/
def places (l : Literal) : List Nat :=
  ((l.fraction.getD []).reverse.dropWhile (· = 0)).reverse

/-- All digits from the first that is not zero. -/
def digits (l : Literal) : List Nat := (l.whole ++ l.places).dropWhile (· = 0)

/-- The digits that are read one by one. No number halfway between two doubles has more. -/
def digitLimit : Nat := 768

/-- The number that a literal is read as. Where there are more digits than the limit, a single one
stands for those beyond it: it decides like any others that are not all zeros, and if all are, it
raises a number that stands exactly halfway between two doubles. -/
def numeral (l : Literal) : Numeral :=
  let place := l.exponent.getD 0 - l.places.length
  let beyond := l.digits.drop digitLimit
  if beyond.isEmpty then ⟨value l.digits, place⟩
  else ⟨value (l.digits.take digitLimit ++ [1]), place + beyond.length - 1⟩

/-- The largest power of ten below every infinity. -/
def largestPower : Int := 308

/-- A power of ten below half the smallest double, so that all numbers up to it round to zero. -/
def vanishingPower : Int := -324

/-- The double nearest to a literal without its sign; none when that is infinite. The two bounds
settle the outermost places, so that no power far beyond them is ever computed. -/
def magnitude? (l : Literal) : Option Float :=
  let n := l.numeral
  if n.digits = 0 || l.whole.length + l.exponent.getD 0 ≤ vanishingPower then some 0
  else if largestPower < n.exponent then none
  else
    let nearest := Float.ofScientific n.digits (n.exponent < 0) n.exponent.natAbs
    if nearest.isInf then none else some nearest

/-- The double nearest to what a literal is read as; none when that is too large for one. -/
def toFloat? (l : Literal) : Option Float :=
  l.magnitude?.map fun x => if l.negative then -x else x

end Literal

end Stigmergy.Decimal
