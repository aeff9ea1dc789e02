import Ember.Machine.Image
import Ember.Host.Class

/-!
# Ember — active functions

Every call in progress has an activation: where it stands, what its registers hold, which slots it
owns, and where a raise may resume it. Registers that hold values are also kept on the machine
stack, where the collector finds them.

* `Activation.begin`   — a call of a function.
* `Activation.define`  — writes a register.
* `Activation.operand` — reads an operand.
-/

namespace Ember.Machine

open Host (sound fault)

/-- Where a raise resumes a function. -/
structure Resume where
  /-- The number of open checkpoints while this one is open. -/
  depth : Nat
  block : Nat
  /-- The position of the call that recorded the point. -/
  position : Nat
  dest : Nat
deriving DecidableEq

/-- A call in progress. -/
structure Activation where
  routine : Routine
  /-- The depth of the machine stack below the frame. -/
  base : Nat
  registers : Array (Option Scalar)
  /-- The slots that go back when the call ends, in the order in which they were taken. -/
  owned : Array Nat := #[]
  /-- Resume points, innermost first. -/
  resumes : List Resume := []
  block : Nat := 0
  position : Nat := 0
  /-- Where the result of the call that is being waited for goes. -/
  awaits : Option Nat := none

namespace Activation

def instr? (a : Activation) : Option Ir.Instr :=
  (a.routine.function.blocks.get? a.block).bind fun b => b.instrs[a.position]?

def next (a : Activation) : Activation :=
  { a with position := a.position + 1 }

/-- The word of the machine stack from which on a register keeps its value. -/
def spillWord (a : Activation) (r : Nat) : Option Nat :=
  (a.routine.layout.spills[r]?.join).map (a.base + ·)

def spill (depth : Nat) (v : Value) : Act Unit := fun h =>
  if depth + 1 < h.stack.depth then .ok () { h with stack := h.stack.putValue depth v }
  else .error (.fault (.outOfRange (depth + 1))) h

def define (a : Activation) (r : Nat) (s : Scalar) : Act Activation := do
  match s, a.spillWord r with
  | .value v, some depth => spill depth v
  | _, _ => pure ()
  if r < a.registers.size then
    return { a with registers := a.registers.setIfInBounds r (some s) }
  else fault (.outOfRange r)

def defineOption (a : Activation) (r : Option Nat) (s : Scalar) : Act Activation :=
  match r with
  | some r => a.define r s
  | none => return a

def defineAll (a : Activation) : List Nat → List Scalar → Act Activation
  | [], [] => return a
  | r :: rs, s :: ss => do (← a.define r s).defineAll rs ss
  | _, _ => fault .argumentCount

/-- Begins a call: reserves its frame and writes its parameters. -/
def begin (image : Image) (symbol : String) (arguments : List Scalar) : Act Activation := do
  let routine ← sound (image.routine symbol)
  let base := (← get).stack.depth
  Host.onStack fun s => s.reserve routine.layout.words
  let a : Activation :=
    { routine, base, registers := Array.replicate routine.function.registers.size none }
  a.defineAll routine.function.parameters arguments

/-- The contents of a register, which must have been written. -/
def register (a : Activation) (r : Nat) : Except Fault Scalar :=
  match a.registers[r]? with
  | some (some s) => .ok s
  | some none => .error (.undefinedRegister r)
  | none => .error (.outOfRange r)

def operand (image : Image) (a : Activation) : Ir.Operand → Except Fault Scalar
  | .reg r => a.register r
  | .imm (.int n) => .ok (.int n)
  | .imm (.float x) => .ok (.float x)
  | .imm (.bool b) => .ok (.ofBool b)
  | .imm .zero => .ok (.int 0)
  | .global (.slot symbol) => do return .ptr (.values #[← image.global symbol] 0)
  | .global (.text id) => .ok (.ptr (.text id))
  | .global (.function symbol) => .ok (.ptr (.function symbol))

/-- The value of an operand at a type: the zero of values and that of doubles are their own. -/
def typed (image : Image) (a : Activation) (t : Ir.Typed) : Except Fault Scalar :=
  match t.ty, t.operand with
  | .value, .imm .zero => .ok (.value default)
  | .f64, .imm .zero => .ok (.float ⟨0⟩)
  | _, operand => a.operand image operand

def intOperand (image : Image) (a : Activation) (o : Ir.Operand) : Except Fault Int64 := do
  match ← a.operand image o with
  | .int n => .ok n
  | _ => .error .operandKind

def intTyped (image : Image) (a : Activation) (t : Ir.Typed) : Except Fault Int64 := do
  match ← a.typed image t with
  | .int n => .ok n
  | _ => .error .operandKind

def pointerOperand (image : Image) (a : Activation) (o : Ir.Operand) : Except Fault Pointer := do
  match ← a.operand image o with
  | .ptr p => .ok p
  | _ => .error .operandKind

/-- Forgets the innermost resume point if it belongs to the checkpoint of a depth. -/
def close (a : Activation) (depth : Nat) : Activation :=
  match a.resumes with
  | r :: rest => if r.depth = depth then { a with resumes := rest } else a
  | [] => a

end Activation

/-- What is in progress, one inside the other. -/
inductive Entry
  | body (a : Activation)
  /-- A method call: the slots of its arguments, and the depth of the machine stack before it. -/
  | method (slots : Array Nat) (depth : Nat)
  /-- A construction that waits for the value of a field. -/
  | field (c : Host.Construction) (f : Field)
  /-- A construction that waits for its last method. -/
  | made (c : Host.Construction)

end Ember.Machine
