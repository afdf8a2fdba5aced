import Stigmergy.Binary64.Rounding

/-!
# The hypotenuse, rounded once

* `squareRoot`: the integer square root, by Newton's method.
* `hypotenuse`: the double nearest to the square root of the sum of two squares. The squares and
  their sum are exact integers, so nothing overflows or is rounded on the way.
-/

namespace Stigmergy.Binary64

/-- Newton's steps down from a guess that is not below the root, as long as they lead down. -/
def descend (n guess : Nat) : Nat :=
  let next := (guess + n / guess) / 2
  if next < guess then descend n next else guess
termination_by guess

/-- The largest number whose square is at most `n`. -/
def squareRoot (n : Nat) : Nat := descend n (1 <<< (n.log2 / 2 + 1))

/-- The square root of `n * 4 ^ e`, with one further bit at the end that tells whether digits
remain beyond the root. The root has at least 56 bits, so the further bit stands below any place
that `nearest` rounds at. -/
def rootMagnitude (n : Nat) (e : Int) : Magnitude :=
  let shift := 56 - n.log2 / 2
  let scaled := n <<< (2 * shift)
  let root := squareRoot scaled
  ⟨2 * root + (if root * root = scaled then 0 else 1), e - shift - 1⟩

/-- The double nearest to the long side of a right triangle with sides `x` and `y`. An infinite
side makes it infinite, whatever the other side is. -/
def hypotenuse (x y : Float) : Float :=
  if x.isInf || y.isInf then Float.ofBits infinityBits.toUInt64
  else if x.isNaN || y.isNaN then x + y
  else
    let a := magnitudeOf x
    let b := magnitudeOf y
    let place := min a.place b.place
    let p := a.count <<< (a.place - place).toNat
    let q := b.count <<< (b.place - place).toNat
    ofMagnitude (rootMagnitude (p * p + q * q) place)

example : (hypotenuse 3 4).toBits = (5 : Float).toBits := by decide +kernel

end Stigmergy.Binary64
