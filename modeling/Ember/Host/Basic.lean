import Ember.Heap.Collection
import Ember.Heap.Display
import Ember.Host.Console
import Ember.Host.Stacks

/-!
# Ember — the host of a program

The host is the world in which compiled code runs: the heap, the slots of variables, the two stacks,
the open checkpoints, and the console. What code does to it is an action.

A value that an operation holds while it allocates must be found by the collector: either it is in a
registered slot, or the operation spills it with `withFrame`.

* `Act`       — actions on a host.
* `withFrame` — an action with values on the machine stack.
-/

namespace Ember

/-- The depths to which a raise restores the two stacks. -/
structure Checkpoint where
  roots : Nat
  stack : Nat
deriving DecidableEq

/-- The state of a running program. -/
structure Host where
  config : Config
  heap : Heap
  slots : Array Value := #[]
  roots : RootStack
  stack : Stack := {}
  /-- Open checkpoints, innermost first. -/
  checkpoints : List Checkpoint := []
  /-- The value of the latest raise. -/
  exception : Option Value := none
  arguments : List String := []
  console : Console := {}

def Host.new (config : Config) (console : Console := {}) : Host :=
  { config
    heap := .empty config.initialThreshold config.minThreshold
    roots := { capacity := config.rootCapacity }
    console }

/-- A fresh host, if there is room for its root stack. -/
def Host.start (config : Config) (console : Console := {}) : Except Fault Host := do
  let roots ← RootStack.make config.rootCapacity
  return { Host.new config console with roots }

def Host.tryDepth (h : Host) : Nat :=
  h.checkpoints.length

def Host.currentException (h : Host) : Value :=
  h.exception.getD .null

abbrev Act := EStateM Interrupt Host

namespace Host

def fault {α : Type} (f : Fault) : Act α :=
  throw (.fault f)

def fatal {α : Type} (e : FatalError) : Act α :=
  throw (.fatal e)

/-- An operation that is used within its conditions. -/
def sound {α : Type} : Except Fault α → Act α
  | .ok a => return a
  | .error f => fault f

def inspect {α : Type} (f : Heap → Except Fault α) : Act α := fun h =>
  match f h.heap with
  | .ok a => .ok a h
  | .error f => .error (.fault f) h

def change (a : Address) (f : Object → Object) : Act Unit :=
  modify fun h => { h with heap := h.heap.modify a f }

/-- Runs an action with values on the machine stack, where the collector finds them. They are gone
afterwards, however the action ends. -/
def withFrame {α : Type} (values : List Value) (x : Act α) : Act α := fun h =>
  let depth := h.stack.depth
  match x { h with stack := h.stack.pushValues values } with
  | .ok a h => .ok a { h with stack := h.stack.truncate depth }
  | .error e h => .error e { h with stack := h.stack.truncate depth }

/-! ## Slots and stacks -/

/-- A fresh slot. It is a root once it is registered. Its number is the count of slots before it, of
which there are fewer than 2³². -/
def newSlot : Act Nat :=
  modifyGet fun h => (h.slots.size, { h with slots := h.slots.push default })

def load (slot : Nat) : Act Value := do
  match (← get).slots[slot]? with
  | some v => return v
  | none => fault (.outOfRange slot)

def store (slot : Nat) (v : Value) : Act Unit := fun h =>
  if slot < h.slots.size then .ok () { h with slots := h.slots.setIfInBounds slot v }
  else .error (.fault (.outOfRange slot)) h

def pushRoot (slot : Nat) : Act Unit := do
  match (← get).roots.push slot with
  | .ok roots => modify fun h => { h with roots }
  | .error e => fatal e

def popRoots (count : Nat) : Act Unit := do
  match (← get).roots.pop count with
  | .ok roots => modify fun h => { h with roots }
  | .error e => fatal e

/-- Adds so many zero words of 8 bytes each to the machine stack, and returns the depth of the first
one. -/
def reserveWords (count : Nat) : Act Nat := do
  let depth := (← get).stack.depth
  sound (checkStorage (depth + count) 8)
  modify fun h => { h with stack := h.stack.reserve count }
  return depth

def onStack (f : Stack → Stack) : Act Unit :=
  modify fun h => { h with stack := f h.stack }

/-- Changes the machine stack where the change must be possible. -/
def onStackSound (f : Stack → Except Fault Stack) : Act Unit := fun h =>
  match f h.stack with
  | .ok stack => .ok () { h with stack }
  | .error e => .error (.fault e) h

/-- Marks the present top of the machine stack as its bottom. -/
def setStackBottom : Act Unit :=
  onStack fun s => { s with bottom := s.depth }

end Host

end Ember
