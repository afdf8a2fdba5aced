/-!
# Rounding to doubles

A finite double is a count of the steps of its binade: `m * 2 ^ q` with `m < 2 ^ 53` and
`-1074 ≤ q ≤ 971`. Its bits without the sign are a number that grows with its magnitude, so a
count that rounds up to `2 ^ 53` carries into the exponent by itself.

* `halfEven`: a natural number divided by a power of two, to nearest, a half to the even count.
* `nearest`: the bits of the double nearest to `m * 2 ^ e`.
* `magnitude`: the way back, from bits to `m` and `q`.
-/

namespace Stigmergy.Binary64

/-- The place of the last bit of the smallest double. -/
def lowestPlace : Int := -1074

def infinityBits : Nat := 0x7ff <<< 52

/-- `m / 2 ^ k` rounded to nearest; a half goes to the even count. -/
def halfEven (m k : Nat) : Nat :=
  let unit := 1 <<< k
  let whole := m / unit
  let rest := 2 * (m % unit)
  if rest < unit then whole
  else if unit < rest then whole + 1
  else whole + whole % 2

/-- The bits of the double nearest to `m * 2 ^ e`, infinity when that is too large. -/
def nearest (m : Nat) (e : Int) : Nat :=
  if m = 0 then 0 else
  let place := max (m.log2 + e - 52) lowestPlace
  let count := if e ≤ place then halfEven m (place - e).toNat else m <<< (e - place).toNat
  min (((place - lowestPlace).toNat <<< 52) + count) infinityBits

/-- A magnitude as a count and the place of the count's last bit. -/
structure Magnitude where
  count : Nat
  place : Int
  deriving DecidableEq, Repr

/-- The magnitude of a finite double from its bits; the sign bit is not read. -/
def magnitude (bits : Nat) : Magnitude :=
  let fraction := bits % (1 <<< 52)
  match (bits >>> 52) % (1 <<< 11) with
  | 0 => ⟨fraction, lowestPlace⟩
  | exponent + 1 => ⟨(1 <<< 52) + fraction, exponent + lowestPlace⟩

def magnitudeOf (x : Float) : Magnitude := magnitude x.toBits.toNat

/-- The double nearest to a magnitude. -/
def ofMagnitude (m : Magnitude) : Float := Float.ofBits (nearest m.count m.place).toUInt64

end Stigmergy.Binary64
