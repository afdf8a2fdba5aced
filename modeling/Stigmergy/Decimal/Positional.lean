import Stigmergy.Decimal.Shortest

/-!
# Positional decimals

Numbers are written in full, without an exponent: a point only where digits follow it, zeros up to
the point on either side, and a sign for negative zero too.
-/

namespace Stigmergy.Decimal

/-- The digits of a numeral around a decimal point. -/
def Numeral.positional (n : Numeral) : String :=
  let digits := Nat.toDigits 10 n.digits
  let places := (-n.exponent).toNat
  let shown :=
    if places = 0 then digits ++ List.replicate n.exponent.toNat '0'
    else
      let padded := List.replicate (places + 1 - digits.length) '0' ++ digits
      padded.take (padded.length - places) ++ '.' :: padded.drop (padded.length - places)
  String.ofList shown

/-- A double by its shortest decimal, written in full. -/
def write (x : Float) : String :=
  if x.isNaN then "NaN"
  else
    let sign := if x.toBits.toNat.testBit 63 then "-" else ""
    let size := if x.isInf then "inf" else (shortest (Binary64.magnitudeOf x)).positional
    sign ++ size

example : write 0.1 = "0.1" := by decide +kernel

example : write (-0.0) = "-0" := by decide +kernel

example : write 1e21 = "1000000000000000000000" := by decide +kernel

/-- Two decimals are equally near; the upper one is written. -/
example : write 1125899906842624.25 = "1125899906842624.3" := by decide +kernel

end Stigmergy.Decimal
