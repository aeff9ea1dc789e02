import Ember.Ir.Basic
import Ember.Value

/-!
# Ember — what registers hold

A register of a running function holds a scalar: a value, an integer of any width, a double or a
pointer. Pointers are not numbers; each kind says what it points to.
-/

namespace Ember.Machine

/-- Pointers. -/
inductive Pointer
  /-- A position in a run of slots. -/
  | values (slots : Array Nat) (offset : Nat)
  /-- A word of the machine stack. -/
  | word (depth : Nat)
  /-- A pooled text. -/
  | text (id : Nat)
  | function (symbol : String)
  /-- The checkpoint that was opened at this depth. -/
  | checkpoint (depth : Nat)
  /-- The argument vector of the program. -/
  | arguments
deriving DecidableEq

/-- What a register holds. -/
inductive Scalar
  | value (v : Value)
  /-- An integer, whatever its width. -/
  | int (n : Int64)
  | float (x : Number.Double)
  | ptr (p : Pointer)
  /-- The result of a call that has none. -/
  | void
deriving DecidableEq

/-- Whether a scalar can stand where a type is asked for. -/
def Scalar.hasType : Scalar → Ir.Ty → Bool
  | .value _, .value | .float _, .f64 | .ptr _, .ptr | .void, .void => true
  | .int _, .i1 | .int _, .i32 | .int _, .i64 => true
  | _, _ => false

def Scalar.ofBool (b : Bool) : Scalar :=
  .int (if b then 1 else 0)

/-- An integer as a count: its 64 bits without a sign. -/
def countOf (n : Int64) : Nat :=
  n.toUInt64.toNat

def comparison (p : Ir.Predicate) (a b : Int64) : Bool :=
  match p with
  | .eq => a == b
  | .ne => a != b
  | .slt => a < b
  | .sle => a ≤ b
  | .sgt => b < a
  | .sge => b ≤ a

def arithmetic (op : Ir.IntOp) (a b : Int64) : Int64 :=
  match op with
  | .add => a + b
  | .sub => a - b
  | .mul => a * b
  | .xor => a ^^^ b

end Ember.Machine
