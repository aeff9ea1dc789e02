import Ember.Lowering.Expr
import Ember.Value

/-!
# Ember — compilation of statements

Statements become blocks. Loops keep their counters in cells of the frame, protected regions record
a resume point and branch on whether it was resumed, and definitions of functions and classes are
written as functions of their own.

* `Stmt.lower` — compiles a statement.
-/

namespace Ember

open Ir (Draft Typed Operand)

namespace Lowering

def intOperand (n : Int64) : Operand :=
  .imm (.int n)

def tagOperand (t : Tag) : Operand :=
  intOperand (Int64.ofNat t.number)

def requireTopLevel (construct : String) (loc : Location) : Lowering Unit := do
  let s ← get
  if s.body.kind = .program ∧ s.scope.depth = 0 then return ()
  else reject loc (.unsupported ("nested " ++ construct))

/-- An assignment to a variable, an element or a member. -/
def assignment (loc : Location) (target value : Expr) : Lowering Unit :=
  match target with
  | .ident _ name => do
    let r ← value.lower
    let dest ← resolve name loc
    drafting (Draft.store (.value r) dest)
  | .index _ container position => do
    let c ← container.lower
    let p ← position.lower
    let r ← value.lower
    performAt loc .indexSet [.value c, .value p, .value r]
  | .member _ object name => do
    let o ← object.lower
    let r ← value.lower
    performAt loc .memberSet [.value o, ← constant name loc, .value r, .i1 object.isThis]
  | _ => reject loc (.unsupported "assignment to a non-assignable expression")

def conditional (condition : Expr) (positive negative : Lowering Unit) : Lowering Unit := do
  let truth ← truthy (← condition.lower)
  let yes ← drafting (Draft.block "if.then")
  let no ← drafting (Draft.block "if.else")
  let done ← drafting (Draft.block "if.end")
  drafting (Draft.branch truth yes no)
  drafting (Draft.moveTo yes)
  inScope positive
  drafting (Draft.jump done)
  drafting (Draft.moveTo no)
  inScope negative
  drafting (Draft.jump done)
  drafting (Draft.moveTo done)

def whileLoop (condition : Expr) (body : Lowering Unit) : Lowering Unit := do
  let test ← drafting (Draft.block "while.cond")
  let inside ← drafting (Draft.block "while.body")
  let done ← drafting (Draft.block "while.end")
  drafting (Draft.jump test)
  drafting (Draft.moveTo test)
  let truth ← truthy (← condition.lower)
  drafting (Draft.branch truth inside done)
  drafting (Draft.moveTo inside)
  inLoop done test (inScope body)
  drafting (Draft.jump test)
  drafting (Draft.moveTo done)

/-- A loop over an inclusive range. Its direction is fixed before the first round: the test is that
the distance to the limit, times the step, is not positive. -/
def rangeLoop (loc : Location) (name : String) (start stop : Expr) (body : Lowering Unit) :
    Lowering Unit := do
  let start ← start.lower
  let stop ← stop.lower
  let start ← invokeAt loc .toInt [.value start]
  let stop ← invokeAt loc .toInt [.value stop]
  let index ← drafting (Draft.counter (.reg start))
  let limit ← drafting (Draft.counter (.reg stop))
  let step ← drafting (Draft.counter (intOperand 1))
  let down ← drafting (Draft.block "for.down")
  let test ← drafting (Draft.block "for.cond")
  let inside ← drafting (Draft.block "for.body")
  let next ← drafting (Draft.block "for.step")
  let done ← drafting (Draft.block "for.end")
  let ascending ← drafting (Draft.compare .sle ⟨.i64, .reg start⟩ (.reg stop))
  drafting (Draft.branch ascending test down)
  drafting (Draft.moveTo down)
  drafting (Draft.store (.i64 (-1)) (.reg step))
  drafting (Draft.jump test)
  drafting (Draft.moveTo test)
  let current ← drafting (Draft.count index)
  let last ← drafting (Draft.count limit)
  let direction ← drafting (Draft.count step)
  let distance ← drafting (Draft.arith .sub current (.reg last))
  let signed ← drafting (Draft.arith .mul distance (.reg direction))
  let inRange ← drafting (Draft.compare .sle ⟨.i64, .reg signed⟩ (intOperand 0))
  drafting (Draft.branch inRange inside done)
  drafting (Draft.moveTo inside)
  inScope do
    let _ ← declareVariable name loc (boxInt current)
    inLoop done next (inScope body)
  drafting (Draft.jump next)
  drafting (Draft.moveTo next)
  let direction ← drafting (Draft.count step)
  drafting (Draft.advance index (.reg direction))
  drafting (Draft.jump test)
  drafting (Draft.moveTo done)

/-- The key and the element at a position: of an array, or of a dict whose keys are in a slot. -/
def entryAt (loc : Location) (receiver : Nat) (keys : Option Nat) (position : Nat) :
    Lowering (Nat × Nat) := do
  match keys with
  | none =>
    let sequence ← drafting (Draft.load .value (.reg receiver))
    let element ← elementAt loc sequence position
    return (position, element)
  | some keys =>
    let keys ← drafting (Draft.load .value (.reg keys))
    let key ← elementAt loc keys position
    let receiver ← drafting (Draft.load .value (.reg receiver))
    let element ← elementAt loc receiver key
    return (key, element)

/-- A walk by position over an array, or over the collected keys of a dict. -/
def walk (loc : Location) (receiver : Nat) (keys : Option Nat) (key : Option String)
    (value : String) (done : Nat) (body : Lowering Unit) : Lowering Unit := do
  let index ← drafting (Draft.counter (intOperand 0))
  let sequence ← drafting (Draft.load .value (.reg (keys.getD receiver)))
  let length ← invokeAt loc .length [.value sequence]
  let test ← drafting (Draft.block "foreach.cond")
  let inside ← drafting (Draft.block "foreach.body")
  let next ← drafting (Draft.block "foreach.step")
  drafting (Draft.jump test)
  drafting (Draft.moveTo test)
  let current ← drafting (Draft.count index)
  let inRange ← drafting (Draft.compare .slt ⟨.i64, .reg current⟩ (.reg length))
  drafting (Draft.branch inRange inside done)
  drafting (Draft.moveTo inside)
  inScope do
    let position ← boxInt current
    let (k, element) ← entryAt loc receiver keys position
    if let some name := key then
      let _ ← declareVariable name loc (pure k)
    let _ ← declareVariable value loc (pure element)
    inLoop done next (inScope body)
  drafting (Draft.jump next)
  drafting (Draft.moveTo next)
  drafting (Draft.advance index (intOperand 1))
  drafting (Draft.jump test)

/-- A loop over the elements of an array or the entries of a dict. There is a walk for each of the
two, and the tag of the receiver chooses. -/
def eachLoop (loc : Location) (key : Option String) (value : String) (iterable : Expr)
    (body : Lowering Unit) : Lowering Unit := do
  let iterable ← iterable.lower
  let receiver ← drafting Draft.hiddenSlot
  drafting (Draft.store (.value iterable) (.reg receiver))
  let tag ← drafting (Draft.register .i32)
  drafting (Draft.push (.extract tag (.reg iterable) 0))
  let array ← drafting (Draft.block "foreach.array")
  let notArray ← drafting (Draft.block "foreach.not_array")
  let dict ← drafting (Draft.block "foreach.dict")
  let invalid ← drafting (Draft.block "foreach.invalid")
  let done ← drafting (Draft.block "foreach.end")
  let isArray ← drafting (Draft.compare .eq ⟨.i32, .reg tag⟩ (tagOperand .array))
  drafting (Draft.branch isArray array notArray)
  drafting (Draft.moveTo notArray)
  let isDict ← drafting (Draft.compare .eq ⟨.i32, .reg tag⟩ (tagOperand .dict))
  drafting (Draft.branch isDict dict invalid)
  drafting (Draft.moveTo invalid)
  raiseValue loc (← string eachMessage loc)
  drafting (Draft.moveTo array)
  walk loc receiver none key value done body
  drafting (Draft.moveTo dict)
  let whole ← drafting (Draft.load .value (.reg receiver))
  let keys ← invokeAt loc .dictKeys [.value whole]
  let keysSlot ← drafting Draft.hiddenSlot
  drafting (Draft.store (.value keys) (.reg keysSlot))
  walk loc receiver (some keysSlot) key value done body
  drafting (Draft.moveTo done)

/-- A jump out of the innermost loop or to its next round. -/
def leaveLoop (loc : Location) (problem : Problem) (dest : Ir.LoopTargets → Nat) :
    Lowering Unit := do
  match ← drafting Draft.innermostLoop with
  | none => reject loc problem
  | some targets =>
    drafting (Draft.unwindTriesTo targets.tryDepth)
    drafting (Draft.jump (dest targets))

/-- A return. At the top level it ends the program, and its value is not looked at. -/
def returnFrom (value : Option Expr) : Lowering Unit := do
  match (← get).body.kind with
  | .program => drafting (Draft.emitReturn none)
  | .definition =>
    let r ← Expr.lowerOption value
    drafting (Draft.emitReturn (some r))

/-- A protected region and its handler. A raise drops the checkpoint before it resumes here, so the
handler runs unprotected; it sees the exception behind a mark of its own place. -/
def protect (loc : Location) (body : Lowering Unit) (name : String) (handler : Lowering Unit) :
    Lowering Unit := do
  let checkpoint ← invoke .tryPush []
  let resumed ← drafting (Draft.callFor (.intrinsic .setjmp) [.ptr checkpoint])
  let inside ← drafting (Draft.block "try.body")
  let caught ← drafting (Draft.block "try.catch")
  let done ← drafting (Draft.block "try.end")
  let first ← drafting (Draft.compare .eq ⟨.i32, .reg resumed⟩ (intOperand 0))
  drafting (Draft.branch first inside caught)
  drafting (Draft.moveTo inside)
  drafting Draft.enterTry
  inScope body
  drafting Draft.exitTry
  perform .tryPop []
  drafting (Draft.jump done)
  drafting (Draft.moveTo caught)
  let exception ← invoke .currentException []
  let mark ← string loc.catchMark loc
  let decorated ← operate loc .add mark exception
  inScope do
    let _ ← declareVariable name loc (pure decorated)
    handler
  drafting (Draft.jump done)
  drafting (Draft.moveTo done)

/-- An assertion raises its message when the condition fails. -/
def assertion (loc : Location) (condition : Expr) (message : Option Expr) : Lowering Unit := do
  let truth ← truthy (← condition.lower)
  let fails ← drafting (Draft.block "assert.fail")
  let passes ← drafting (Draft.block "assert.pass")
  drafting (Draft.branch truth passes fails)
  drafting (Draft.moveTo fails)
  let r ← match message with
    | some e => e.lower
    | none => string assertionMessage loc
  raiseValue loc r
  drafting (Draft.moveTo passes)

/-! ## Definitions -/

/-- The statements of a function, followed by the return of null. -/
def returning (body : Lowering Unit) : Lowering Unit := do
  body
  let r ← null
  drafting (Draft.emitReturn (some r))

/-- A function: one parameter for each of its names. -/
def functionBody (loc : Location) (name : String) (params : List String) (body : Lowering Unit) :
    Lowering Unit :=
  define (functionSymbol name) do
    declareParameters loc (fun _ p => drafting (Draft.parameter .value ("arg." ++ p))) 0 params
    returning body

/-- A method: the receiver, the buffer of the arguments and their number. -/
def methodBody (symbol : String) (loc : Location) (params : List String) (body : Lowering Unit) :
    Lowering Unit :=
  define symbol do
    receiverParameter
    let arguments ← drafting (Draft.parameter .ptr "args")
    let _ ← drafting (Draft.parameter .i32 "argc")
    let argument (i : Nat) (_ : String) : Lowering Nat := drafting do
      let cell ← Draft.element arguments i
      Draft.load .value (.reg cell)
    declareParameters loc argument 0 params
    returning body

/-- A field initializer: a function of the receiver. -/
def initializer (symbol : String) (init : Option Expr) : Lowering Unit :=
  define symbol do
    receiverParameter
    let r ← Expr.lowerOption init
    drafting (Draft.emitReturn (some r))

def memberSymbol (kind cls name : String) : String :=
  kind ++ "." ++ cls ++ "." ++ name

/-- Compiles the initializers of fields and adds each to the class that is in a slot. -/
def fields (cls : String) (slot : Operand) : List FieldDef → Lowering Unit
  | [] => return ()
  | f :: rest => do
    let symbol := memberSymbol "field" cls f.name
    initializer symbol f.init
    let descriptor ← drafting (Draft.load .value slot)
    perform .classAddField
      [.value descriptor, ← constant f.name f.loc, ⟨.ptr, .global (.function symbol)⟩,
       .i1 (isPrivateMember f.name)]
    fields cls slot rest

/-- Adds a compiled method to the class that is in a slot. -/
def addMethod (slot : Operand) (symbol : String) (loc : Location) (name : String) (arity : Nat) :
    Lowering Unit := do
  let descriptor ← drafting (Draft.load .value slot)
  perform .classAddMethod
    [.value descriptor, ← constant name loc, ⟨.ptr, .global (.function symbol)⟩, .i32 arity,
     .i1 (isPrivateMember name)]

/-- Creates a class where it is defined, in a variable of its own: the slot of the variable. -/
def newClass (loc : Location) (name : String) : Lowering Operand := do
  let id ← declareVariable name loc do
    invoke .classNew [← constant name loc]
  storage id loc

end Lowering

open Lowering

mutual

/-- Compiles a statement, after a comment with its location where comments are asked for. -/
def Stmt.lower (s : Stmt) : Lowering Unit := do
  if (← get).annotate then
    drafting (Draft.push (.comment s.loc.text))
  match s with
  | .var loc name init =>
    let _ ← declareVariable name loc (Expr.lowerOption init)
  | .assign loc target value => assignment loc target value
  | .expr _ e =>
    let _ ← e.lower
  | .block _ body => inScope (Stmt.lowerAll body)
  | .branch _ condition positive negative =>
    conditional condition (Stmt.lowerAll positive) (Stmt.lowerAll negative)
  | .loop _ condition body => whileLoop condition (Stmt.lowerAll body)
  | .range loc name start stop body => rangeLoop loc name start stop (Stmt.lowerAll body)
  | .each loc key value iterable body => eachLoop loc key value iterable (Stmt.lowerAll body)
  | .leave loc => leaveLoop loc .breakOutsideLoop Ir.LoopTargets.leave
  | .next loc => leaveLoop loc .continueOutsideLoop Ir.LoopTargets.next
  | .ret _ value => returnFrom value
  | .guarded loc body name handler =>
    protect loc (Stmt.lowerAll body) name (Stmt.lowerAll handler)
  | .raise loc value => do
    let r ← value.lower
    raiseValue loc r
  | .assert loc condition message => assertion loc condition message
  | .function loc f =>
    requireTopLevel "function definition" loc
    functionBody f.loc f.name f.params (Stmt.lowerAll f.body)
  | .classDef loc c =>
    requireTopLevel "class definition" loc
    let slot ← newClass c.loc c.name
    fields c.name slot c.fields
    Stmt.lowerMethods c.name slot c.methods

def Stmt.lowerAll : List Stmt → Lowering Unit
  | [] => return ()
  | s :: rest => do
    s.lower
    Stmt.lowerAll rest

/-- Compiles methods and adds each to the class that is in a slot. -/
def Stmt.lowerMethods (cls : String) (slot : Operand) :
    List (FunctionDef (List Stmt)) → Lowering Unit
  | [] => return ()
  | f :: rest => do
    let symbol := memberSymbol "method" cls f.name
    methodBody symbol f.loc f.params (Stmt.lowerAll f.body)
    addMethod slot symbol f.loc f.name f.params.length
    Stmt.lowerMethods cls slot rest

end

end Ember
