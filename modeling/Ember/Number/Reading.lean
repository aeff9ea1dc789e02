import Ember.Number.Binary

/-!
# Ember — reading numbers

Two grammars. An integer is an optional sign and at least one decimal digit, within the range of 64
bits. A double is an optional sign followed by `inf`, `infinity` or `nan` in any case, or by digits
with an optional fraction and an optional exponent; a digit must stand before or after the point.
Digits are those of ASCII.
-/

namespace Ember.Number

def digitsValue (s : List Char) : Nat :=
  s.foldl (fun n c => 10 * n + (c.toNat - '0'.toNat)) 0

def isDigits (s : List Char) : Bool :=
  !s.isEmpty && s.all Char.isDigit

def splitSign : List Char → Bool × List Char
  | '-' :: rest => (true, rest)
  | '+' :: rest => (false, rest)
  | s => (false, s)

def readWhole (s : List Char) : Option Int :=
  let (negative, rest) := splitSign s
  if isDigits rest then
    let n : Int := digitsValue rest
    some (if negative then -n else n)
  else none

def readInt (s : List Char) : Option Int64 := do
  let n ← readWhole s
  if Int64.minValue.toInt ≤ n ∧ n ≤ Int64.maxValue.toInt then some (Int64.ofInt n) else none

/-- The double nearest to `± digits · 10 ^ power`. Powers far outside the range of doubles are
decided by the number of digits alone. -/
def ofDecimal (negative : Bool) (digits : Nat) (power : Int) : Double :=
  if digits = 0 then zero negative
  else
    let magnitude : Int := (Nat.toDigits 10 digits).length + power
    if 310 < magnitude then infinity negative
    else if magnitude < -330 then zero negative
    else nearest negative (digits * tenTo power.toNat) (tenTo (-power).toNat)

/-- The exponent behind the digits: none at all counts as zero. -/
def readExponent : List Char → Option Int
  | [] => some 0
  | c :: rest => if c = 'e' ∨ c = 'E' then readWhole rest else none

def readDigits (negative : Bool) (s : List Char) : Option Double := do
  let whole := s.takeWhile Char.isDigit
  let rest := s.dropWhile Char.isDigit
  let (fraction, rest) :=
    match rest with
    | '.' :: rest => (rest.takeWhile Char.isDigit, rest.dropWhile Char.isDigit)
    | rest => ([], rest)
  if whole.isEmpty && fraction.isEmpty then none
  else
    let exponent ← readExponent rest
    some (ofDecimal negative (digitsValue (whole ++ fraction)) (exponent - fraction.length))

def readDouble (s : List Char) : Option Double :=
  let (negative, rest) := splitSign s
  let word := String.ofList (rest.map Char.toLower)
  if word = "inf" ∨ word = "infinity" then some (infinity negative)
  else if word = "nan" then some (notANumber negative)
  else readDigits negative rest

end Ember.Number
