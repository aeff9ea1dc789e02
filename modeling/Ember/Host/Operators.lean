import Ember.Host.Exception
import Ember.Number.Remainder
import Ember.Operator

/-!
# Ember — operators at run time

Numbers are integers that wrap at 64 bits, and doubles; an operation with a double is one of doubles,
and booleans count as integers. Strings are joined with anything by `+` and repeated by `*`; arrays
are joined by `+`. Every operation spills its two operands.

* `truthy`    — which values count as true.
* `equal`     — equality: numbers by value, strings by content, other objects by identity.
* `operate`   — an operator on two values.
-/

namespace Ember.Host

/-- Which values count as true: all but the zeros, null, and what is empty. -/
def truthy (heap : Heap) : Value → Except Fault Bool
  | .int n => .ok (n != 0)
  | .float x => .ok (!x.same ⟨0⟩)
  | .bool b => .ok b
  | .null => .ok false
  | v@(.str _) => do return (← heap.text? v).any fun s => !s.isEmpty
  | .array a => do return (← heap.arrayAt a).len != 0
  | .dict a => do return !(← heap.dictAt a).isEmpty
  | .cls _ | .inst _ => .ok true

/-- A number. -/
inductive Quantity
  | int (n : Int64)
  | float (x : Number.Double)

namespace Quantity

def of? : Value → Option Quantity
  | .int n => some (int n)
  | .float x => some (float x)
  | .bool b => some (int (if b then 1 else 0))
  | _ => none

def toDouble : Quantity → Number.Double
  | int n => .ofInt64 n
  | float x => x

end Quantity

def equal (heap : Heap) (lhs rhs : Value) : Except Fault Bool :=
  match lhs, rhs with
  | .str _, .str _ => do
    let l ← heap.text? lhs
    let r ← heap.text? rhs
    return l == r
  | .bool a, .bool b => .ok (a == b)
  | .null, .null => .ok true
  | .int a, .int b => .ok (a == b)
  | .int a, .float y => .ok ((Number.Double.ofInt64 a).same y)
  | .float x, .int b => .ok (x.same (.ofInt64 b))
  | .float x, .float y => .ok (x.same y)
  | _, _ => .ok (lhs.address?.isSome && lhs == rhs)

/-- A text with another one so many times behind it. -/
def appendTimes (text : String) : Nat → String → String
  | 0, out => out
  | n + 1, out => appendTimes text n (out ++ text)

def repeatText (text : String) (count : Nat) : String :=
  if text.isEmpty then "" else appendTimes text count ""

/-- The order of two texts, of which either may be absent; an absent one comes first. -/
def textOrder : Option String → Option String → Ordering
  | none, none => .eq
  | none, some _ => .lt
  | some _, none => .gt
  | some a, some b => compare a b

/-- Whether an order of operands satisfies a comparison operator. -/
def ordered (op : Operator) (o : Ordering) : Bool :=
  match op with
  | .less => o.isLT
  | .lessEqual => o.isLE
  | .greater => o.isGT
  | _ => o.isGE

def isComparison : Operator → Bool
  | .less | .lessEqual | .greater | .greaterEqual => true
  | _ => false

/-- Repeats a text. A count below zero counts as none. More bytes than the memory has are refused at
once, without a collection. -/
def repeated (text : String) (count : Int64) : Act Value := do
  let times := count.toInt.toNat
  let bytes := text.utf8ByteSize * times
  let h ← get
  if bytes ≤ h.config.memoryLimit ∧ bytes < 0x10000000000000000 then
    reserve 1 (← sound (Heap.footprint bytes))
    sound (checkStorage bytes 1)
    reserve 1 (← sound (Heap.footprint (bytes + 1)))
    return .str (← insert (.str (repeatText text times)))
  else
    fatal (.outOfMemory (min bytes 0xffffffffffffffff) h.heap.liveBytes h.config.memoryLimit)

/-- Arithmetic and order on integers. A comparison or a logical operator that is not one of order
has no result here. -/
def integerOp (op : Operator) (a b : Int64) (site : Location) : Act Value :=
  match op with
  | .add => return .int (a + b)
  | .subtract => return .int (a - b)
  | .multiply => return .int (a * b)
  | .divide => if b = 0 then failure site "division by zero" else return .int (a / b)
  | .modulus => if b = 0 then failure site "division by zero" else return .int (a % b)
  | .less => return .bool (a < b)
  | .lessEqual => return .bool (a ≤ b)
  | .greater => return .bool (b < a)
  | .greaterEqual => return .bool (b ≤ a)
  | _ => fault .unreachable

def floatOp (op : Operator) (x y : Number.Double) : Act Value :=
  match op with
  | .add => return .float (x.add y)
  | .subtract => return .float (x.sub y)
  | .multiply => return .float (x.mul y)
  | .divide => return .float (x.div y)
  | .modulus => return .float (x.remainder y)
  | .less => return .bool (x.less y)
  | .lessEqual => return .bool (x.atMost y)
  | .greater => return .bool (y.less x)
  | .greaterEqual => return .bool (y.atMost x)
  | _ => fault .unreachable

def numberOp (op : Operator) (lhs rhs : Value) (site : Location) : Act Value :=
  match Quantity.of? lhs, Quantity.of? rhs with
  | some (.int a), some (.int b) => integerOp op a b site
  | some l, some r => floatOp op l.toDouble r.toDouble
  | _, _ =>
    failure site ("unsupported operand types for " ++ op.symbol ++ ": " ++ lhs.tag.name ++ " and " ++
      rhs.tag.name)

def joined (lhs rhs : Value) : Act Value := do
  let l ← display lhs
  let r ← display rhs
  string (l ++ r)

/-- Addition, with the joining of strings and arrays. -/
def plus (lhs rhs : Value) (site : Location) : Act Value :=
  match lhs, rhs with
  | .str _, _ | _, .str _ => joined lhs rhs
  | .array a, .array b => do
    let l ← inspect fun heap => heap.elements a
    let r ← inspect fun heap => heap.elements b
    newArray (l ++ r)
  | _, _ => numberOp .add lhs rhs site

/-- Multiplication, with the repetition of strings. -/
def times (lhs rhs : Value) (site : Location) : Act Value :=
  match lhs, rhs with
  | .str _, .int n => do repeated (← inspect fun heap => heap.text lhs) n
  | .int n, .str _ => do repeated (← inspect fun heap => heap.text rhs) n
  | _, _ => numberOp .multiply lhs rhs site

/-- A comparison by order, of strings or of numbers. -/
def ranked (op : Operator) (lhs rhs : Value) (site : Location) : Act Value :=
  match lhs, rhs with
  | .str _, .str _ => do
    let l ← inspect fun heap => heap.text? lhs
    let r ← inspect fun heap => heap.text? rhs
    return .bool (ordered op (textOrder l r))
  | _, _ => numberOp op lhs rhs site

/-- An operator on two values that are already spilled. The logical operators look at the second
value only if the first leaves it open. -/
def apply (op : Operator) (lhs rhs : Value) (site : Location) : Act Value :=
  match op with
  | .equal => do return .bool (← inspect fun heap => equal heap lhs rhs)
  | .notEqual => do return .bool (!(← inspect fun heap => equal heap lhs rhs))
  | .and => do
    if ← inspect fun heap => truthy heap lhs then
      return .bool (← inspect fun heap => truthy heap rhs)
    else return .bool false
  | .or => do
    if ← inspect fun heap => truthy heap lhs then return .bool true
    else return .bool (← inspect fun heap => truthy heap rhs)
  | .add => plus lhs rhs site
  | .multiply => times lhs rhs site
  | op => if isComparison op then ranked op lhs rhs site else numberOp op lhs rhs site

def operate (op : Operator) (lhs rhs : Value) (site : Location) : Act Value :=
  withFrame [lhs, rhs] (apply op lhs rhs site)

/-- An exception as the handler at a place sees it: behind the mark of that place. -/
def caught (exception : Value) (site : Location) : Act Value :=
  withFrame [exception] do
    let mark ← string site.catchMark
    operate .add mark exception site

end Ember.Host
