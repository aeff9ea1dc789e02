/-!
# Ember — operators

The operators of the language that work on two values. Their codes are part of the interface between
compiled programs and the library they run on.
-/

namespace Ember

/-- Operators on two values. -/
inductive Operator
  | add | subtract | multiply | divide | modulus
  | equal | notEqual | less | lessEqual | greater | greaterEqual
  | and | or
deriving DecidableEq

namespace Operator

def all : List Operator :=
  [add, subtract, multiply, divide, modulus, equal, notEqual, less, lessEqual, greater,
   greaterEqual, and, or]

/-- The code that stands for an operator in compiled programs. -/
def code : Operator → Nat
  | add => 0
  | subtract => 1
  | multiply => 2
  | divide => 3
  | modulus => 4
  | equal => 5
  | notEqual => 6
  | less => 7
  | lessEqual => 8
  | greater => 9
  | greaterEqual => 10
  | and => 11
  | or => 12

def ofCode? (code : Int) : Option Operator :=
  if code < 0 then none else all[code.toNat]?

def symbol : Operator → String
  | add => "+"
  | subtract => "-"
  | multiply => "*"
  | divide => "/"
  | modulus => "%"
  | equal => "=="
  | notEqual => "!="
  | less => "<"
  | lessEqual => "<="
  | greater => ">"
  | greaterEqual => ">="
  | and => "and"
  | or => "or"

def ofSymbol? (s : String) : Option Operator :=
  all.find? fun op => op.symbol == s

end Operator

end Ember
