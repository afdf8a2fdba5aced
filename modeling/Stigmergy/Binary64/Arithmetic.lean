import Stigmergy.Binary64.Hypotenuse
import Stigmergy.Scalar

/-!
# Doubles as scalars

Every operation rounds once, to nearest with halves to the even neighbour, and follows the IEEE
rules for infinities, signed zeros and values that are no number.
-/

namespace Stigmergy.Binary64

instance : Scalar Float where
  ofNat := Float.ofNat
  infinity := Float.ofBits infinityBits.toUInt64
  pow := Float.pow
  hypot := hypotenuse
  isNaN := Float.isNaN
  isFinite := Float.isFinite
  decidableLE := inferInstance
  decidableLT := inferInstance

end Stigmergy.Binary64
