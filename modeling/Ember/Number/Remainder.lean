import Ember.Number.Binary

/-!
# Ember — remainder of doubles

The remainder of a division whose quotient is rounded towards zero. It is exact: both operands are
brought to the smaller of their two powers of two, and the rest is arithmetic of whole numbers.
-/

namespace Ember.Number

/-- The remainder of the absolute values, at the smaller of the two exponents. -/
def Binary.remainder (x y : Binary) : Binary :=
  let e := min x.exponent y.exponent
  let whole (b : Binary) : Nat := b.mantissa * twoTo (b.exponent - e).toNat
  ⟨x.negative, whole x % whole y, e⟩

/-- The remainder of `x / y`, with the sign of `x`. There is none when `x` is infinite or `y` is
zero, and it is `x` itself when only `y` is infinite. -/
def Double.remainder (x y : Double) : Double :=
  orNaN x y <|
    match classify x, classify y with
    | .finite a, .finite b =>
      if b.mantissa = 0 then indefinite else (a.remainder b).toDouble
    | .finite _, .infinite _ => x
    | _, _ => indefinite

end Ember.Number
