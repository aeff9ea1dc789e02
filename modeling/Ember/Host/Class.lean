import Ember.Host.Container
import Ember.Diagnostic

/-!
# Ember — classes and instances at run time

The code of members is known here by symbol only. An operation that has to run such code hands it
out: `methodFor` gives the method to run after all checks, and a `Construction` is the making of one
instance between the runs of its initializers.

* `memberGet`, `memberSet` — reading and writing fields.
* `methodFor`              — the method that a call runs.
* `begin`, `assign`, `conclude` — the making of an instance.
-/

namespace Ember.Host

def newClass (name : String) : Act Value := do
  return .cls (← allocate (.cls { name }) true)

/-- Changes the class that a value refers to. A value that refers to no object, or to one that is no
class, is left alone. -/
def changeClass (v : Value) (f : ClassObject → ClassObject) : Act Unit := do
  match v.address? with
  | none => return ()
  | some a =>
    let _ ← inspect fun heap => heap.object a
    change a fun
      | .cls c => .cls (f c)
      | o => o

def addField (v : Value) (field : Field) : Act Unit :=
  changeClass v fun c => { c with fields := c.fields ++ [field] }

def addMethod (v : Value) (method : Method) : Act Unit :=
  changeClass v fun c => { c with methods := c.methods ++ [method] }

/-- The instance that a member is asked of, with its class. -/
def receiver (target : Value) (name : String) (site : Location) :
    Act (InstanceObject × ClassObject) :=
  match target with
  | .inst a => do
    let i ← inspect fun heap => heap.instanceAt a
    return (i, ← inspect fun heap => heap.classAt i.cls)
  | _ => failure site ("cannot access member `" ++ name ++ "` of " ++ target.tag.name)

/-- The value of a field. Private fields are visible through the receiver only. -/
def memberGet (target : Value) (name : String) (inside : Bool) (site : Location) : Act Value := do
  let (i, c) ← receiver target name site
  match c.field? name, c.method? name with
  | some f, _ =>
    if f.isPrivate && !inside then failure site ("member `" ++ name ++ "` is private")
    else return ((← inspect fun heap => heap.dictAt i.fields).get? name).getD .null
  | none, some _ => failure site ("method `" ++ name ++ "` must be called")
  | none, none => failure site (c.name ++ " has no member `" ++ name ++ "`")

def memberSet (target : Value) (name : String) (v : Value) (inside : Bool) (site : Location) :
    Act Unit := do
  let (i, c) ← receiver target name site
  match c.field? name with
  | none => failure site (c.name ++ " has no field `" ++ name ++ "`")
  | some f =>
    if f.isPrivate && !inside then failure site ("member `" ++ name ++ "` is private")
    else setEntry i.fields name v

def methodFor (target : Value) (name : String) (supplied : Nat) (inside : Bool) (site : Location) :
    Act Method := do
  let (_, c) ← receiver target name site
  match c.method? name with
  | none => failure site (c.name ++ " has no method `" ++ name ++ "`")
  | some m =>
    if m.isPrivate && !inside then failure site ("method `" ++ name ++ "` is private")
    else if m.arity ≠ supplied then failure site (arityMessage name m.arity supplied)
    else return m

/-- The name of the method that completes a construction. -/
def initName : String := "init"

/-- An instance in the making. The arguments and the instance are on the machine stack. -/
structure Construction where
  cls : Address
  fields : Address
  receiver : Value
  arguments : List Value
  site : Location
  /-- The depth of the machine stack before the construction. -/
  depth : Nat
  /-- The fields whose initializers have not run yet. -/
  remaining : List Field

/-- Restores the machine stack if an action ends early. -/
def restoring {α : Type} (depth : Nat) (x : Act α) : Act α := fun h =>
  match x h with
  | .ok a h => .ok a h
  | .error e h => .error e { h with stack := h.stack.truncate depth }

/-- Starts a construction: makes the instance without its fields. -/
def begin (cls : Value) (arguments : List Value) (site : Location) : Act Construction :=
  match cls with
  | .cls a => do
    let depth := (← get).stack.depth
    restoring depth do
      onStack fun s => s.pushValues arguments
      let fields ← allocateDict
      let i ← withFrame [.dict fields] (allocate (.inst { cls := a, fields }))
      onStack fun s => s.pushValue (.inst i)
      let c ← inspect fun heap => heap.classAt a
      return { cls := a, fields, receiver := .inst i, arguments, site, depth, remaining := c.fields }
  | _ => failure site ("cannot instantiate " ++ cls.tag.name)

def assign (c : Construction) (field : Field) (v : Value) : Act Unit :=
  setEntry c.fields field.name v

/-- Ends a construction: the stack is as before, and the instance is the result. -/
def finish (c : Construction) : Act Value := do
  onStack fun s => s.truncate c.depth
  return c.receiver

/-- What is left once all initializers have run: the method `init` if the class has one. Without it
there must be no arguments. -/
def conclude (c : Construction) : Act (Option Method) := do
  let cls ← inspect fun heap => heap.classAt c.cls
  match cls.method? initName with
  | some _ => some <$> methodFor c.receiver initName c.arguments.length true c.site
  | none =>
    if c.arguments.isEmpty then return none
    else failure c.site (arityMessage cls.name 0 c.arguments.length)

end Ember.Host
