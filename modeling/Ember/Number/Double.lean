/-!
# Ember — doubles by their bits

All NaNs are alike to arithmetic, but a value can be taken apart into words, and there their bits
show. A double is therefore kept by its bits, and the operations say which NaN they give:

* an operand that is a NaN is the result, made quiet; of two such operands it is the left one;
* an operation that its operands do not admit gives the NaN `indefinite`, whose sign is set.
-/

namespace Ember.Number

/-- A double, by its bits. -/
structure Double where
  bits : UInt64
deriving DecidableEq, Inhabited

namespace Double

/-- The double of a number; every NaN becomes the same one. -/
def ofFloat (x : Float) : Double :=
  ⟨x.toBits⟩

def toFloat (x : Double) : Float :=
  Float.ofBits x.bits

def ofInt64 (n : Int64) : Double :=
  ofFloat n.toFloat

/-- A double as an integer: cut towards zero and to the range of integers. A NaN gives zero. -/
def toInt64 (x : Double) : Int64 :=
  x.toFloat.toInt64

def abs (x : Double) : Double :=
  ⟨x.bits &&& 0x7fffffffffffffff⟩

/-- Whether a double is a NaN: its bits without the sign lie above those of infinity. -/
def isNaN (x : Double) : Bool :=
  0x7ff0000000000000 < x.abs.bits

def quiet (x : Double) : Double :=
  ⟨x.bits ||| 0x0008000000000000⟩

/-- The result of an operation that its operands do not admit. -/
def indefinite : Double :=
  ⟨0xfff8000000000000⟩

/-- The double of a result, when no operand was a NaN. -/
def ofResult (x : Float) : Double :=
  if x.isNaN then indefinite else ofFloat x

def lift (f : Float → Float) (x : Double) : Double :=
  if x.isNaN then x.quiet else ofResult (f x.toFloat)

/-- The result of an operation with two operands, of which a NaN is passed on. -/
def orNaN (x y : Double) (result : Double) : Double :=
  if x.isNaN then x.quiet else if y.isNaN then y.quiet else result

def lift₂ (f : Float → Float → Float) (x y : Double) : Double :=
  orNaN x y (ofResult (f x.toFloat y.toFloat))

def add (x y : Double) : Double :=
  lift₂ (· + ·) x y

def sub (x y : Double) : Double :=
  lift₂ (· - ·) x y

def mul (x y : Double) : Double :=
  lift₂ (· * ·) x y

def div (x y : Double) : Double :=
  lift₂ (· / ·) x y

/-- Equality of numbers: the two zeros are equal, and a NaN differs from itself. -/
def same (x y : Double) : Bool :=
  x.toFloat == y.toFloat

def less (x y : Double) : Bool :=
  x.toFloat < y.toFloat

def atMost (x y : Double) : Bool :=
  x.toFloat ≤ y.toFloat

end Double

end Ember.Number
