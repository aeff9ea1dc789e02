import Ember.Number.Binary

/-!
# Ember — the shortest decimal of a double

Of all decimals that round to a given double, `shortest` takes one with the fewest digits, and among
those the nearest one. The search runs over the decimal grids of one to seventeen digits: on each
grid only the two neighbours of the double can be nearest to it.
-/

namespace Ember.Number

/-- The number `digits · 10 ^ power`. -/
structure Decimal where
  digits : Nat
  power : Int
deriving DecidableEq

/-- The reals that round to a double, in units of `2 ^ (exponent - 2)`: a lower end, the double and
an upper end. The gap below a power of two is half as wide as the gap above it. -/
structure Rounding where
  low : Nat
  value : Nat
  high : Nat
  exponent : Int
  closed : Bool

/-- The ends belong to the interval exactly when the mantissa is even. -/
def Binary.rounding (b : Binary) : Rounding where
  low := if b.mantissa = leadingBit ∧ -1074 < b.exponent then 4 * b.mantissa - 1 else 4 * b.mantissa - 2
  value := 4 * b.mantissa
  high := 4 * b.mantissa + 2
  exponent := b.exponent - 2
  closed := b.mantissa % 2 = 0

/-- Factors that bring `c · 10 ^ power` and `x · 2 ^ exponent` to one unit. -/
def commonUnit (power exponent : Int) : Nat × Nat :=
  (tenTo power.toNat * twoTo (-exponent).toNat, twoTo exponent.toNat * tenTo (-power).toNat)

/-- The number of digits before the decimal point: `10 ^ (k - 1) ≤ value < 10 ^ k`. -/
def Rounding.magnitude (r : Rounding) : Int :=
  let guess : Int := ((r.value.log2 : Int) + r.exponent) * 30103 / 100000 + 1
  let reaches (k : Int) : Bool :=
    let (ten, two) := commonUnit k r.exponent
    ten ≤ r.value * two
  if reaches guess then guess + 1
  else if reaches (guess - 1) then guess
  else guess - 1

/-- The better neighbour on the grid of `n` digits, if one of the two rounds to the double. A value
halfway between them goes up. -/
def Rounding.onGrid (r : Rounding) (magnitude : Int) (n : Nat) : Option Decimal :=
  let power := magnitude - n
  let (ten, two) := commonUnit power r.exponent
  let below := r.value * two / ten
  let hits (c : Nat) : Bool :=
    if r.closed then r.low * two ≤ c * ten && c * ten ≤ r.high * two
    else r.low * two < c * ten && c * ten < r.high * two
  let above : Decimal := if below + 1 = tenTo n then ⟨1, magnitude⟩ else ⟨below + 1, power⟩
  match hits below, hits (below + 1) with
  | true, true =>
    if 2 * (r.value * two) < (2 * below + 1) * ten then some ⟨below, power⟩ else some above
  | true, false => some ⟨below, power⟩
  | false, true => some above
  | false, false => none

/-- A decimal of fewest digits that rounds to the double, nearest among those. -/
def Binary.shortest (b : Binary) : Decimal :=
  if b.mantissa = 0 then ⟨0, 0⟩
  else
    let r := b.rounding
    let magnitude := r.magnitude
    ((List.range 17).findSome? fun i => r.onGrid magnitude (i + 1)).getD ⟨0, 0⟩

end Ember.Number
