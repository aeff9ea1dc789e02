import Ember.Lowering.Session

/-!
# Ember — compilation of expressions

An expression becomes instructions that leave its value in a register. Operands are evaluated from
left to right, all of them: the logical operators are ordinary operators.

* `Expr.lower` — compiles an expression; the register of its value.
-/

namespace Ember

open Ir (Draft)

namespace Lowering

def constantValue (loc : Location) : Literal → Lowering Nat
  | .int n => invoke .int [.i64 n]
  | .float x => invoke .float [⟨.f64, .imm (.float x)⟩]
  | .bool b => invoke .bool [.i1 b]
  | .str s => string s loc
  | .null => null

/-- The boolean that a truth register does not hold. -/
def invert (truth : Nat) : Lowering Nat := do
  let inverted ← drafting (Draft.register .i1)
  drafting (Draft.push (.arith inverted .xor ⟨.i1, .reg truth⟩ (.imm (.bool true))))
  invoke .bool [⟨.i1, .reg inverted⟩]

def contains (loc : Location) (container item : Nat) : Lowering Nat :=
  invokeAt loc .contains [.value container, .value item]

def binaryOp (loc : Location) (op : BinaryOp) (lhs rhs : Nat) : Lowering Nat :=
  match op with
  | .apply op => operate loc op lhs rhs
  | .isIn => contains loc rhs lhs
  | .notIn => do
    let found ← contains loc rhs lhs
    invert (← truthy found)

/-- An operation on one value. Negation is subtraction from zero. -/
def unaryOp (loc : Location) (op : UnaryOp) (operand : Nat) : Lowering Nat :=
  match op with
  | .not => do invert (← truthy operand)
  | .negate => do
    let origin ← invoke .int [.i64 0]
    operate loc .subtract origin operand

/-- Stores values in neighbouring cells from a position on. -/
def fill (buffer : Nat) : Nat → List Nat → Lowering Unit
  | _, [] => return ()
  | i, r :: rest => do
    let cell ← drafting (Draft.element buffer i)
    drafting (Draft.store (.value r) (.reg cell))
    fill buffer (i + 1) rest

/-- Puts values into a fresh buffer: the operands for the buffer and its length. There are fewer than
2³² values, for which the buffer is that of `Draft.scratch`. -/
def marshal (values : List Nat) : Lowering (List Ir.Typed) := do
  let buffer ← drafting (Draft.cells (max values.length 1))
  fill buffer 0 values
  return [.ptr buffer, .i32 values.length]

/-- A mathematical operation on the number that a value holds. -/
def math (loc : Location) (op : Ir.MathOp) (r : Nat) : Lowering Nat := do
  let x ← invokeAt loc .toFloat [.value r]
  let y ← drafting (Draft.callFor (.intrinsic (.math op)) [⟨.f64, .reg x⟩])
  invoke .float [⟨.f64, .reg y⟩]

/-- What a call by name refers to. -/
inductive Target
  | math (op : Ir.MathOp)
  | builtin (b : Ir.Builtin)
  | function (name : String)

/-- Finds what a call refers to and checks its number of arguments. Mathematical operations and
builtins come before the functions of the program. -/
def target (loc : Location) (name : String) (supplied : Nat) : Lowering Target := do
  match Ir.MathOp.ofName? name, Ir.Builtin.ofName? name with
  | some op, _ =>
    if supplied = 1 then return .math op
    else reject loc (.arityMismatch name 1 supplied)
  | none, some b =>
    match b.arity? with
    | some arity =>
      if supplied = arity then return .builtin b
      else reject loc (.arityMismatch name arity supplied)
    | none => return .builtin b
  | none, none =>
    let _ ← check ((← get).functions.checkCall name supplied loc)
    return .function name

def functionSymbol (name : String) : String :=
  "fn." ++ name

def callTarget (loc : Location) (target : Target) (arguments : List Nat) : Lowering Nat :=
  match target, arguments with
  | .math op, [r] => math loc op r
  | .math _, _ => throw (.fault .argumentCount)
  | .builtin b, rs => do invokeAt loc (.builtin b) (← marshal rs)
  | .function name, rs =>
    drafting (Draft.callFor (.function (functionSymbol name)) (rs.map .value))

/-- Checks the number of arguments where the class is named directly by a global. -/
def checkConstruction (loc : Location) (cls : Expr) (supplied : Nat) : Lowering Unit := do
  let .ident _ name := cls | return ()
  let s ← get
  let .ok id := s.scope.resolve name loc | return ()
  let binding ← sound (s.scope.bindings.get id)
  if binding.isGlobal then
    match s.classes.find? name with
    | none => return ()
    | some info =>
      let expected := info.initArity.getD 0
      if expected = supplied then return ()
      else reject loc (.arityMismatch name expected supplied)

end Lowering

open Lowering

mutual

/-- Compiles an expression: the register of its value. -/
def Expr.lower : Expr → Lowering Nat
  | .literal loc l => constantValue loc l
  | .ident loc name => do
    let source ← resolve name loc
    drafting (Draft.load .value source)
  | .this loc => do
    match (← get).body.receiver with
    | some r => return r
    | none => reject loc (.unsupported "`this` outside of a class")
  | .array _ elements => do
    let rs ← Expr.lowerAll elements
    invoke .arrayNew (← marshal rs)
  | .dict loc entries => do
    let dict ← invoke .dictNew []
    Expr.lowerEntries loc dict entries
    return dict
  | .binary loc op lhs rhs => do
    let l ← lhs.lower
    let r ← rhs.lower
    binaryOp loc op l r
  | .unary loc op operand => do
    unaryOp loc op (← operand.lower)
  | .index loc target position => do
    let t ← target.lower
    let p ← position.lower
    elementAt loc t p
  | .slice loc target start stop => do
    let t ← target.lower
    let a ← Expr.lowerOption start
    let b ← Expr.lowerOption stop
    invokeAt loc .slice [.value t, .value a, .value b]
  | .member loc target name => do
    let t ← target.lower
    invokeAt loc .memberGet [.value t, ← constant name loc, .i1 target.isThis]
  | .call loc name arguments => do
    let t ← Lowering.target loc name arguments.length
    let rs ← Expr.lowerAll arguments
    callTarget loc t rs
  | .methodCall loc target name arguments => do
    let t ← target.lower
    let rs ← Expr.lowerAll arguments
    let buffer ← marshal rs
    invokeAt loc .callMethod
      ([.value t, ← constant name loc] ++ buffer ++ [.i1 target.isThis])
  | .construct loc cls arguments => do
    checkConstruction loc cls arguments.length
    let c ← cls.lower
    let rs ← Expr.lowerAll arguments
    invokeAt loc .instantiate (.value c :: (← marshal rs))

def Expr.lowerAll : List Expr → Lowering (List Nat)
  | [] => return []
  | e :: rest => do
    let r ← e.lower
    let rs ← Expr.lowerAll rest
    return r :: rs

/-- Compiles the entries of a dict and adds each to it. -/
def Expr.lowerEntries (loc : Location) (dict : Nat) : List (Expr × Expr) → Lowering Unit
  | [] => return ()
  | (key, value) :: rest => do
    let k ← key.lower
    let v ← value.lower
    performAt loc .indexSet [.value dict, .value k, .value v]
    Expr.lowerEntries loc dict rest

/-- Compiles an expression that may be absent, as null. -/
def Expr.lowerOption : Option Expr → Lowering Nat
  | none => null
  | some e => e.lower

end

end Ember
