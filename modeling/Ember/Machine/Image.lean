import Ember.Host.Basic
import Ember.Machine.Scalar

/-!
# Ember — loaded modules

A module is loaded by giving every global a slot and laying out the frame of every function: one
word of the machine stack for each scalar cell, then two for each register that holds values.

* `Layout.of`   — the frame of a function.
* `Image.load`  — a module with its globals.
-/

namespace Ember.Machine

/-- Where a frame keeps what lies on the machine stack, relative to its base. -/
structure Layout where
  words : Nat := 0
  /-- The words of scalar cells, by register; the latest come first. -/
  cells : List (Nat × Nat) := []
  /-- The first word of each register that holds values. -/
  spills : Array (Option Nat) := #[]

namespace Layout

def addCell (l : Layout) : Ir.Instr → Layout
  | .alloca dest ty _ =>
    if ty = .value then l else { l with cells := (dest, l.words) :: l.cells, words := l.words + 1 }
  | _ => l

def addRegister (l : Layout) (r : Ir.Register) : Layout :=
  if r.ty = .value then { l with spills := l.spills.push (some l.words), words := l.words + 2 }
  else { l with spills := l.spills.push none }

def of (f : Ir.Function) : Layout :=
  f.registers.toList.foldl addRegister (f.instrs.foldl addCell {})

end Layout

/-- A function with its frame. -/
structure Routine where
  function : Ir.Function
  layout : Layout

/-- A loaded module. -/
structure Image where
  texts : Table String
  /-- The functions; of two with one symbol the first counts. -/
  routines : List Routine
  /-- The slots of the globals; of two with one symbol the first counts. -/
  globals : List (String × Nat)
  arguments : List String

namespace Image

def routine (image : Image) (symbol : String) : Except Fault Routine :=
  match image.routines.find? fun r => r.function.symbol == symbol with
  | some r => .ok r
  | none => .error (.unknownFunction symbol)

def global (image : Image) (symbol : String) : Except Fault Nat :=
  match image.globals.lookup symbol with
  | some slot => .ok slot
  | none => .error (.unknownGlobal symbol)

/-- Gives every global a slot. A later global of the same symbol takes its place. -/
def allocateGlobals : List String → List (String × Nat) → Act (List (String × Nat))
  | [], slots => return slots
  | symbol :: rest, slots => do
    allocateGlobals rest ((symbol, ← Host.newSlot) :: slots)

/-- Loads a module. A later function of the same symbol takes the place of an earlier one. -/
def load (m : Ir.Module) (arguments : List String) : Act Image := do
  let globals ← allocateGlobals m.globals []
  return {
    texts := m.texts
    routines := m.functions.reverse.map fun f => ⟨f, .of f⟩
    globals
    arguments }

end Image

end Ember.Machine
