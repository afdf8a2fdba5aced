/-!
# Decimal numerals

A numeral is a whole number of units of a power of ten. Literals are read as numerals, and doubles
are written as them.
-/

namespace Stigmergy.Decimal

/-- The number `digits * 10 ^ exponent`. -/
structure Numeral where
  digits : Nat
  exponent : Int
  deriving DecidableEq, Repr

end Stigmergy.Decimal
