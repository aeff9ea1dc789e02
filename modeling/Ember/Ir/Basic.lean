import Ember.Ir.EntryPoint
import Ember.Table

/-!
# Ember — intermediate code

Loops and conditionals become labelled blocks joined by branches, and expression trees become flat
instructions on typed registers. The last instruction of a block says where control goes next.
-/

namespace Ember.Ir

/-- Constants inside instructions. -/
inductive Immediate
  | int (n : Int64)
  | float (x : Number.Double)
  | bool (b : Bool)
  /-- The zero of the type that the context asks for. -/
  | zero
deriving DecidableEq

/-- Things of the module that instructions refer to. -/
inductive GlobalRef
  | slot (symbol : String)
  | text (id : Nat)
  | function (symbol : String)
deriving DecidableEq

/-- What an instruction reads. -/
inductive Operand
  | reg (r : Nat)
  | imm (i : Immediate)
  | global (g : GlobalRef)
deriving DecidableEq

/-- An operand and the type it is used at. -/
structure Typed where
  ty : Ty
  operand : Operand
deriving DecidableEq

namespace Typed

def value (r : Nat) : Typed := ⟨.value, .reg r⟩

def ptr (r : Nat) : Typed := ⟨.ptr, .reg r⟩

def i32 (n : Nat) : Typed := ⟨.i32, .imm (.int (Int64.ofNat n))⟩

def i64 (n : Int64) : Typed := ⟨.i64, .imm (.int n)⟩

def i1 (b : Bool) : Typed := ⟨.i1, .imm (.bool b)⟩

def text (id : Nat) : Typed := ⟨.ptr, .global (.text id)⟩

end Typed

/-- Comparisons of integers. -/
inductive Predicate
  | eq | ne | slt | sle | sgt | sge
deriving DecidableEq

/-- Arithmetic on integers. -/
inductive IntOp
  | add | sub | mul | xor
deriving DecidableEq

def Predicate.text : Predicate → String
  | .eq => "eq"
  | .ne => "ne"
  | .slt => "slt"
  | .sle => "sle"
  | .sgt => "sgt"
  | .sge => "sge"

def Predicate.ofText? (s : String) : Option Predicate :=
  [Predicate.eq, .ne, .slt, .sle, .sgt, .sge].find? fun p => p.text == s

def IntOp.text : IntOp → String
  | .add => "add"
  | .sub => "sub"
  | .mul => "mul"
  | .xor => "xor"

def IntOp.ofText? (s : String) : Option IntOp :=
  [IntOp.add, .sub, .mul, .xor].find? fun op => op.text == s

/-- What a call calls. -/
inductive Callee
  | entry (e : EntryPoint)
  | intrinsic (i : Intrinsic)
  /-- A function of this module. -/
  | function (symbol : String)
deriving DecidableEq

/-- What a call returns. The functions of a module return values. -/
def Callee.result : Callee → Ty
  | .entry e => e.result
  | .intrinsic i => i.result
  | .function _ => .value

/-- Instructions. -/
inductive Instr
  /-- Storage of the frame: `count` neighbouring cells of one type. -/
  | alloca (dest : Nat) (ty : Ty) (count : Nat)
  | load (dest : Nat) (ty : Ty) (source : Operand)
  | store (value : Typed) (dest : Operand)
  | call (dest : Option Nat) (result : Ty) (callee : Callee) (arguments : List Typed)
  /-- The tag or the payload of a value. -/
  | extract (dest : Nat) (aggregate : Operand) (index : Nat)
  /-- The address of a neighbouring cell. -/
  | element (dest : Nat) (ty : Ty) (base : Operand) (index : Typed)
  | compare (dest : Nat) (predicate : Predicate) (lhs : Typed) (rhs : Operand)
  | arith (dest : Nat) (op : IntOp) (lhs : Typed) (rhs : Operand)
  | branch (condition : Operand) (positive negative : Nat)
  | jump (dest : Nat)
  | ret (value : Option Typed)
  | unreachable
  | comment (text : String)
deriving DecidableEq

def Instr.isTerminator : Instr → Bool
  | .branch .. | .jump .. | .ret .. | .unreachable => true
  | _ => false

/-- A labelled run of instructions. -/
structure Block where
  label : String
  instrs : Array Instr := #[]
deriving Inhabited

def Block.isTerminated (b : Block) : Bool :=
  b.instrs.back?.any Instr.isTerminator

/-- A register: its type and, for storage of the source program, its name. -/
structure Register where
  ty : Ty
  name : Option String := none
deriving DecidableEq, Inhabited

/-- A function of the module. Control enters at block zero. -/
structure Function where
  symbol : String
  result : Ty
  parameters : List Nat
  registers : Table Register
  blocks : Table Block
deriving Inhabited

/-- The instructions of a function, block by block. -/
def Function.instrs (f : Function) : List Instr :=
  f.blocks.toList.flatMap fun b => b.instrs.toList

/-- A compiled program: its pooled texts, its global slots and its functions. -/
structure Module where
  texts : Table String := {}
  globals : List String := []
  functions : List Function := []
deriving Inhabited

def Module.instrs (m : Module) : List Instr :=
  m.functions.flatMap Function.instrs

def Module.callees (m : Module) : List Callee :=
  m.instrs.filterMap fun
    | .call _ _ callee _ => some callee
    | _ => none

end Ember.Ir
