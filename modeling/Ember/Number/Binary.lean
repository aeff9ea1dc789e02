import Ember.Number.Double

/-!
# Ember — doubles as binary fractions

A finite double is a whole number times a power of two. `classify` reads that form off the bits of
a double, and `nearest` goes the other way: it rounds any quotient of two natural numbers to the
nearest double, a half going to the even neighbour.
-/

namespace Ember.Number

/-- The number `± mantissa · 2 ^ exponent`. -/
structure Binary where
  negative : Bool
  mantissa : Nat
  exponent : Int
deriving DecidableEq

/-- What a double stands for. -/
inductive Class
  | nan
  | infinite (negative : Bool)
  | finite (value : Binary)
deriving DecidableEq

def twoTo (n : Nat) : Nat :=
  Nat.pow 2 n

def tenTo (n : Nat) : Nat :=
  Nat.pow 10 n

/-- The mantissa of a power of two, which has 53 bits. -/
def leadingBit : Nat :=
  0x10000000000000

/-- Reads sign, exponent and fraction off the bits. -/
def classify (x : Double) : Class :=
  let bits := x.bits.toNat
  let negative := decide (0x8000000000000000 ≤ bits)
  let biased : Nat := bits / leadingBit % 2048
  let fraction : Nat := bits % leadingBit
  if biased = 2047 then
    if fraction = 0 then .infinite negative else .nan
  else if biased = 0 then
    .finite ⟨negative, fraction, -1074⟩
  else
    .finite ⟨negative, fraction + leadingBit, Int.ofNat biased - 1075⟩

def ofBits (bits : Nat) : Double :=
  ⟨UInt64.ofNat bits⟩

def signBit (negative : Bool) : Nat :=
  if negative then 0x8000000000000000 else 0

def zero (negative : Bool) : Double :=
  ofBits (signBit negative)

def infinity (negative : Bool) : Double :=
  ofBits (signBit negative + 2047 * leadingBit)

def notANumber (negative : Bool) : Double :=
  ofBits (signBit negative + 0x7ff8000000000000)

/-- A quotient rounded to a whole number, a half going to the even neighbour. -/
def roundDiv (num den : Nat) : Nat :=
  let q := num / den
  let twice := 2 * (num % den)
  if twice < den then q
  else if den < twice then q + 1
  else q + q % 2

def scaleDown (num den : Nat) (e : Int) : Nat × Nat :=
  (num * twoTo (-e).toNat, den * twoTo e.toNat)

/-- The power of two that leaves 53 bits of `num / den`, but never below the smallest one. -/
def binaryExponent (num den : Nat) : Int :=
  let top : Int := (num.log2 : Int) - (den.log2 : Int)
  let (n, d) := scaleDown num den top
  max (if d ≤ n then top - 52 else top - 53) (-1074)

def nearest (negative : Bool) (num den : Nat) : Double :=
  if num = 0 then zero negative
  else
    let e := binaryExponent num den
    let (n, d) := scaleDown num den e
    let m := roundDiv n d
    let (m, e) := if m = 2 * leadingBit then (leadingBit, e + 1) else (m, e)
    if 971 < e then infinity negative
    else if m < leadingBit then ofBits (signBit negative + m)
    else ofBits (signBit negative + (e + 1075).toNat * leadingBit + (m - leadingBit))

def Binary.toDouble (b : Binary) : Double :=
  nearest b.negative (b.mantissa * twoTo b.exponent.toNat) (twoTo (-b.exponent).toNat)

end Ember.Number
