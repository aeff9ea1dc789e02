import Ember.Lowering.Constants
import Ember.Registry
import Ember.Scope
import Ember.Ir.Draft

/-!
# Ember — the state of a compilation

One session compiles one program. It holds the scopes, the pool and the registries, the functions
that are finished, and the function that is being written. The first diagnostic ends it.

* `Lowering`          — steps of a compilation.
* `declareVariable`   — a variable, its storage and its first value.
* `define`            — writes a function beside the current one.
-/

namespace Ember

open Ir (Draft Drafting EntryPoint Callee Typed Operand Ty)

/-- Why a compilation stops early. -/
inductive Rejection
  | diagnostic (d : Diagnostic)
  | fault (f : Fault)
deriving DecidableEq

/-- What is being written: the code of the top-level statements, or that of a definition. -/
inductive BodyKind
  | program | definition
deriving DecidableEq

/-- A function that is being written. -/
structure Body where
  draft : Draft
  kind : BodyKind
  /-- The slots of the local variables of this function, by binding. -/
  slots : List (Nat × Nat) := []
  /-- The register of the receiver, inside methods and field initializers. -/
  receiver : Option Nat := none

/-- The state of a compilation. -/
structure Session where
  annotate : Bool
  scope : Scope := default
  pool : Pool := {}
  functions : Functions := {}
  classes : Classes := {}
  /-- The symbols of the global slots, in the order of their declaration. -/
  globals : List String := []
  /-- The functions that are finished. -/
  finished : List Ir.Function := []
  body : Body

abbrev Lowering := EStateM Rejection Session

namespace Lowering

def reject {α : Type} (loc : Location) (problem : Problem) : Lowering α :=
  throw (.diagnostic (.of loc problem))

def check {α : Type} : Except Diagnostic α → Lowering α
  | .ok a => return a
  | .error d => throw (.diagnostic d)

/-- An operation that is used within its conditions. -/
def sound {α : Type} : Except Fault α → Lowering α
  | .ok a => return a
  | .error f => throw (.fault f)

def drafting {α : Type} (x : Drafting α) : Lowering α := fun s =>
  match x s.body.draft with
  | .ok a draft => .ok a { s with body := { s.body with draft } }
  | .error f draft => .error (.fault f) { s with body := { s.body with draft } }

/-! ## Constants and calls -/

def constant (text : String) (loc : Location) : Lowering Typed := do
  match (← get).pool.lookup text with
  | .ok id => return .text id
  | .error d => throw (.diagnostic { d with location := some loc })

def site (loc : Location) : Lowering (List Typed) := do
  return [.i32 loc.line, ← constant loc.file loc]

def invoke (e : EntryPoint) (arguments : List Typed) : Lowering Nat :=
  drafting (Draft.callFor (.entry e) arguments)

/-- A call of an entry point that reports its place and has a result. -/
def invokeAt (loc : Location) (e : EntryPoint) (arguments : List Typed) : Lowering Nat := do
  invoke e (arguments ++ (← site loc))

def perform (e : EntryPoint) (arguments : List Typed) : Lowering Unit :=
  drafting (Draft.callVoid (.entry e) arguments)

/-- A call of an entry point that reports its place and has no result. -/
def performAt (loc : Location) (e : EntryPoint) (arguments : List Typed) : Lowering Unit := do
  perform e (arguments ++ (← site loc))

def null : Lowering Nat :=
  invoke .null []

def boxInt (r : Nat) : Lowering Nat :=
  invoke .int [⟨.i64, .reg r⟩]

def string (text : String) (loc : Location) : Lowering Nat := do
  invoke .string [← constant text loc]

def truthy (r : Nat) : Lowering Nat :=
  invoke .truthy [.value r]

def operate (loc : Location) (op : Operator) (lhs rhs : Nat) : Lowering Nat :=
  invokeAt loc .binary [.i32 op.code, .value lhs, .value rhs]

def elementAt (loc : Location) (container position : Nat) : Lowering Nat :=
  invokeAt loc .indexGet [.value container, .value position]

def raiseValue (loc : Location) (r : Nat) : Lowering Unit := do
  performAt loc .raise [.value r]
  drafting (Draft.terminate .unreachable)

/-! ## Variables and scopes -/

def inScope {α : Type} (x : Lowering α) : Lowering α := do
  modify fun s => { s with scope := s.scope.enter }
  let a ← x
  let scope ← sound (← get).scope.exit
  modify fun s => { s with scope }
  return a

/-- The address of the storage of a binding. Locals of another function have none. -/
def storage (id : Nat) (loc : Location) : Lowering Operand := do
  let s ← get
  let binding ← sound (s.scope.bindings.get id)
  if binding.isGlobal then return .global (.slot binding.symbol)
  match s.body.slots.lookup id with
  | some slot => return .reg slot
  | none => reject loc (.unsupported ("reference to `" ++ binding.name ++ "` from a nested function"))

def allocate (id : Nat) : Lowering Operand := do
  let binding ← sound ((← get).scope.bindings.get id)
  let symbol := binding.symbol
  if binding.isGlobal then
    drafting (Draft.globalRoot symbol)
    modify fun s => { s with globals := s.globals ++ [symbol] }
    return .global (.slot symbol)
  else
    let slot ← drafting (Draft.localSlot symbol)
    modify fun s => { s with body := { s.body with slots := (id, slot) :: s.body.slots } }
    return .reg slot

/-- Declares a variable, compiles its first value, and only then makes the variable visible: the
value still sees an outer variable of the same name. -/
def declareVariable (name : String) (loc : Location) (value : Lowering Nat) : Lowering Nat := do
  let (id, scope) ← check ((← get).scope.declare name loc)
  modify fun s => { s with scope }
  let r ← value
  let dest ← allocate id
  drafting (Draft.store (.value r) dest)
  let scope ← sound ((← get).scope.bind id)
  modify fun s => { s with scope }
  return id

/-- The storage of the variable that a name denotes. -/
def resolve (name : String) (loc : Location) : Lowering Operand := do
  let id ← check ((← get).scope.resolve name loc)
  storage id loc

def inLoop (leave next : Nat) (x : Lowering Unit) : Lowering Unit := do
  drafting (Draft.pushLoop leave next)
  x
  drafting Draft.popLoop

/-! ## Functions -/

/-- Ends the current function and adds it to those that are finished. -/
def finishBody : Lowering Unit := do
  let f ← drafting Draft.finish
  modify fun s => { s with finished := s.finished ++ [f] }

/-- Writes another function, in a scope of its own, and returns to the current one. -/
def define (symbol : String) (x : Lowering Unit) : Lowering Unit := do
  let current := (← get).body
  modify fun s => { s with body := { draft := Draft.start symbol .value, kind := .definition } }
  inScope x
  finishBody
  modify fun s => { s with body := current }

def receiverParameter : Lowering Unit := do
  let this ← drafting (Draft.parameter .value "this")
  modify fun s => { s with body := { s.body with receiver := some this } }

/-- Declares the parameters of a function, each with the value that its position gives it. -/
def declareParameters (loc : Location) (value : Nat → String → Lowering Nat) :
    Nat → List String → Lowering Unit
  | _, [] => return ()
  | i, name :: rest => do
    let _ ← declareVariable name loc (value i name)
    declareParameters loc value (i + 1) rest

end Lowering

end Ember
