import Ember.Table
import Ember.Diagnostic

/-!
# Ember — scopes

Names are resolved lexically. Every declaration gets an entry of its own in the table of bindings,
and with it a storage name that no other declaration has. A use finds the innermost binding that is
in scope and already bound.

* `declare`  — a new binding in the innermost scope, not yet visible to uses.
* `bind`     — makes it visible.
* `resolve`  — the innermost visible binding of a name.
-/

namespace Ember

/-- Where the value of a variable is kept. -/
inductive Storage
  | global (ordinal : Nat)
  | local (ordinal : Nat)
deriving DecidableEq

/-- A declared variable. -/
structure Binding where
  name : String
  storage : Storage
  /-- How many scopes enclose the declaration. -/
  depth : Nat
  /-- Set once the initializer is compiled; before that, uses do not see the binding. -/
  bound : Bool
  location : Location
deriving DecidableEq

namespace Binding

/-- Whether the variable belongs to the whole program. -/
def isGlobal (b : Binding) : Bool :=
  match b.storage with
  | .global _ => true
  | .local _ => false

/-- The storage name. Globals are named after the source, locals carry their ordinal. -/
def symbol (b : Binding) : String :=
  match b.storage with
  | .global _ => "g." ++ b.name
  | .local n => b.name ++ "." ++ toString n

end Binding

/-- The bindings of a program and the scopes that are open. -/
structure Scope where
  bindings : Table Binding := {}
  /-- The bindings in scope, most recent first. -/
  visible : List Nat := []
  /-- How many bindings were in scope when each open scope was entered, innermost first. -/
  regions : List Nat := []
  /-- How many scopes are open. -/
  depth : Nat := 0
  nextGlobal : Nat := 0
  nextLocal : Nat := 0
  /-- Top-level functions. They share the names of globals but have no storage. -/
  functions : List (String × Location) := []
  depth_eq : depth = regions.length := by rfl
  /-- No scope was entered with fewer bindings in scope than one around it. -/
  falling : (visible.length :: regions).Pairwise (· ≥ ·) := by exact List.pairwise_singleton _ _

namespace Scope

instance : Inhabited Scope :=
  ⟨{}⟩

def enter (s : Scope) : Scope :=
  { s with
    regions := s.visible.length :: s.regions
    depth := s.depth + 1
    depth_eq := congrArg Nat.succ s.depth_eq
    falling := by
      refine List.pairwise_cons.mpr ⟨fun mark hmark => ?_, s.falling⟩
      rcases List.mem_cons.mp hmark with rfl | hmark
      · exact Nat.le_refl _
      · exact (List.pairwise_cons.mp s.falling).1 mark hmark }

/-- The bindings of the innermost scope go out of scope. -/
def leave (s : Scope) (mark : Nat) (rest : List Nat) (h : s.regions = mark :: rest) : Scope :=
  { s with
    visible := s.visible.drop (s.visible.length - mark)
    regions := rest
    depth := s.depth - 1
    depth_eq := by rw [s.depth_eq, h, List.length_cons, Nat.add_sub_cancel]
    falling := by
      have hfalling := s.falling
      rw [h, List.pairwise_cons] at hfalling
      have hmark : mark ≤ s.visible.length := hfalling.1 mark List.mem_cons_self
      rw [List.length_drop, Nat.sub_sub_self hmark]
      exact hfalling.2 }

/-- Closes the innermost scope. Its bindings stay in the table and are found no more. -/
def exit (s : Scope) : Except Fault Scope :=
  match h : s.regions with
  | [] => .error .noOpenScope
  | mark :: rest => .ok (s.leave mark rest h)

/-- The most recent binding in scope that satisfies a condition. -/
def findVisible? (s : Scope) (p : Binding → Bool) : Option Nat :=
  s.visible.find? fun i => (s.bindings.get? i).any p

/-- The binding of a name that was declared under exactly `depth` scopes. -/
def lookupAtDepth (s : Scope) (name : String) (depth : Nat) : Option Nat :=
  s.findVisible? fun b => b.depth == depth && b.name == name

def hasFunction (s : Scope) (name : String) : Bool :=
  s.functions.any fun f => f.1 == name

/-- Whether a declaration of the name would repeat one of the innermost scope. -/
def clashes (s : Scope) (name : String) : Bool :=
  (s.depth == 0 && s.hasFunction name) || (s.lookupAtDepth name s.depth).isSome

def add (s : Scope) (name : String) (loc : Location) : Scope :=
  let storage : Storage := if s.depth = 0 then .global s.nextGlobal else .local s.nextLocal
  { s with
    bindings := s.bindings.push ⟨name, storage, s.depth, false, loc⟩
    visible := s.bindings.size :: s.visible
    nextGlobal := if s.depth = 0 then s.nextGlobal + 1 else s.nextGlobal
    nextLocal := if s.depth = 0 then s.nextLocal else s.nextLocal + 1
    falling := by
      have hfalling := List.pairwise_cons.mp s.falling
      refine List.pairwise_cons.mpr ⟨fun mark hmark => ?_, hfalling.2⟩
      exact Nat.le_succ_of_le (hfalling.1 mark hmark) }

/-- Declares a variable: the number of its binding. Uses see it once it is bound, so an initializer
compiled in between still sees an outer binding of the same name. -/
def declaring (name : String) (loc : Location) : EStateM Diagnostic Scope Nat := fun s =>
  if s.clashes name then .error (.of loc (.redeclared name .var)) s
  else .ok s.bindings.size (s.add name loc)

def declaringFunction (name : String) (loc : Location) : EStateM Diagnostic Scope Unit := fun s =>
  if s.hasFunction name || (s.lookupAtDepth name 0).isSome then
    .error (.of loc (.redeclared name .function)) s
  else .ok () { s with functions := (name, loc) :: s.functions }

def declare (s : Scope) (name : String) (loc : Location) : Except Diagnostic (Nat × Scope) :=
  match (declaring name loc).run s with
  | .ok i t => .ok (i, t)
  | .error d _ => .error d

def declareFunction (s : Scope) (name : String) (loc : Location) : Except Diagnostic Scope :=
  match (declaringFunction name loc).run s with
  | .ok _ t => .ok t
  | .error d _ => .error d

def bind (s : Scope) (i : Nat) : Except Fault Scope := do
  let b ← s.bindings.get i
  let bindings ← s.bindings.set i { b with bound := true }
  return { s with bindings }

def resolve (s : Scope) (name : String) (loc : Location) : Except Diagnostic Nat :=
  match s.findVisible? fun b => b.bound && b.name == name with
  | some i => .ok i
  | none => .error (.of loc (.undeclared name))

/-- The global bindings in the order of their declaration. -/
def globals (s : Scope) : List Binding :=
  s.bindings.toList.filter Binding.isGlobal

end Scope

end Ember
