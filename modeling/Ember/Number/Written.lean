import Ember.Number.Shortest

/-!
# Ember — written numbers

Doubles are written with the fewest digits that read back. Numbers from `0.0001` up to, but not
including, `10 ^ 16` are written positionally and always with a fraction; all others have one digit
before the point and an exponent.
-/

namespace Ember.Number

def digitsOf (n : Nat) : List Char :=
  Nat.toDigits 10 n

/-- Digits with the point after the first `point` of them; `point` may lie outside the digits. -/
def positional (digits : List Char) (point : Int) : List Char :=
  let n : Int := digits.length
  if point ≤ 0 then
    '0' :: '.' :: (List.replicate (-point).toNat '0' ++ digits)
  else if point < n then
    digits.take point.toNat ++ '.' :: digits.drop point.toNat
  else
    digits ++ List.replicate (point - n).toNat '0' ++ ['.', '0']

/-- One digit, the other digits behind a point, and the exponent. -/
def scientific (digits : List Char) (exponent : Int) : List Char :=
  let mantissa :=
    match digits with
    | [] => []
    | [d] => [d]
    | d :: rest => d :: '.' :: rest
  mantissa ++ 'e' :: (toString exponent).toList

/-- A positive decimal in the form that its size asks for. -/
def Decimal.written (d : Decimal) : List Char :=
  let digits := digitsOf d.digits
  let point : Int := digits.length + d.power
  if -4 < point ∧ point ≤ 16 then positional digits point else scientific digits (point - 1)

def writeDouble (x : Double) : String :=
  match classify x with
  | .nan => "NaN"
  | .infinite negative => if negative then "-inf" else "inf"
  | .finite b =>
    let digits := if b.mantissa = 0 then ['0', '.', '0'] else b.shortest.written
    String.ofList (if b.negative then '-' :: digits else digits)

def writeInt (n : Int64) : String :=
  toString n.toInt

end Ember.Number
