import Ember.Lowering.Stmt
import Ember.Ir.Assembly

/-!
# Ember — compilation of programs

The functions and classes of a program are registered first, so that uses may stand before
definitions. Then the constants are pooled, and the top-level statements become the function `main`.

* `Program.lower`   — the module of a program.
* `Program.compile` — its assembly file.
-/

namespace Ember

open Ir (Draft)

namespace Lowering

/-- Registers a top-level function. The names of builtins and mathematical operations are taken. -/
def registerFunction (f : FunctionDef (List Stmt)) : Lowering Unit := do
  if (Ir.Builtin.ofName? f.name).isSome ∨ (Ir.MathOp.ofName? f.name).isSome then
    reject f.loc (.redeclared f.name .function)
  let s ← get
  let functions ← check (s.functions.register f.name f.params.length f.loc)
  let scope ← check (s.scope.declareFunction f.name f.loc)
  set { s with functions, scope }

def registerMember (cls name : String) (loc : Location) : Lowering Unit := do
  let classes ← check (← sound ((← get).classes.addMember cls name loc))
  modify fun s => { s with classes }

def registerClass (c : ClassDef (List Stmt)) : Lowering Unit := do
  let classes ← check ((← get).classes.register c.name c.loc)
  modify fun s => { s with classes }
  c.fields.forM fun f => registerMember c.name f.name f.loc
  c.methods.forM fun f => do
    registerMember c.name f.name f.loc
    if f.name = "init" then
      modify fun s => { s with classes := s.classes.setInitArity c.name f.params.length }

def registerItem : Stmt → Lowering Unit
  | .function _ f => registerFunction f
  | .classDef _ c => registerClass c
  | _ => return ()

/-- The beginning of `main`: prepare the collector, mark the bottom of the stack, take the
arguments. -/
def openMain : Ir.Drafting Unit := do
  let argc ← Draft.parameter .i32 "argc"
  let argv ← Draft.parameter .ptr "argv"
  Draft.pushPrologue (.call none .void (.entry .gcInit) [])
  let bottom ← Draft.register .ptr (some "stack.bottom")
  Draft.pushPrologue (.alloca bottom .i64 1)
  Draft.pushPrologue (.call none .void (.entry .setStackBottom) [.ptr bottom])
  Draft.pushPrologue (.call none .void (.entry .setArgs) [⟨.i32, .reg argc⟩, .ptr argv])

def program (p : Program) : Lowering Unit := do
  p.forM registerItem
  modify fun s => { s with pool := p.pool }
  drafting openMain
  Stmt.lowerAll p
  drafting (Draft.emitReturn none)
  finishBody

def start (annotate : Bool) : Session :=
  { annotate, body := { draft := Draft.start "main" .i32, kind := .program } }

end Lowering

def Session.module (s : Session) : Ir.Module :=
  { texts := s.pool.texts, globals := s.globals, functions := s.finished }

def Program.lower (p : Program) (annotate : Bool := false) : Except Rejection Ir.Module :=
  match Lowering.program p (Lowering.start annotate) with
  | .ok _ s => .ok s.module
  | .error r _ => .error r

def Program.compile (p : Program) (options : Ir.Options) : Except Rejection String := do
  let m ← p.lower options.annotate
  match m.assembly options with
  | .ok text => .ok text
  | .error f => .error (.fault f)

end Ember
