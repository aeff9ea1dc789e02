import Ember.Diagnostic
import Ember.Fault

/-!
# Ember — registries of functions and classes

Calls may stand before the definitions they refer to, so the functions and classes of a program are
registered before any of them is compiled.
-/

namespace Ember

/-- A function of the program. -/
structure FunctionInfo where
  name : String
  arity : Nat
  location : Location
deriving DecidableEq

/-- The functions of a program, of distinct names. -/
structure Functions where
  infos : List FunctionInfo := []
deriving Inhabited

namespace Functions

def find? (fs : Functions) (name : String) : Option FunctionInfo :=
  fs.infos.find? fun f => f.name == name

def register (fs : Functions) (name : String) (arity : Nat) (loc : Location) :
    Except Diagnostic Functions :=
  match fs.find? name with
  | some _ => .error (.of loc (.redeclared name .function))
  | none => .ok ⟨fs.infos ++ [⟨name, arity, loc⟩]⟩

/-- Checks a call against the number of parameters of the function that it names. -/
def checkCall (fs : Functions) (name : String) (supplied : Nat) (loc : Location) :
    Except Diagnostic FunctionInfo :=
  match fs.find? name with
  | none => .error (.of loc (.unknownFunction name))
  | some f =>
    if f.arity = supplied then .ok f
    else .error (.of loc (.arityMismatch name f.arity supplied))

end Functions

/-- A class of the program. Its fields and methods share one space of names. -/
structure ClassInfo where
  name : String
  members : List String := []
  /-- The number of parameters of the method `init`, if there is one. -/
  initArity : Option Nat := none
deriving DecidableEq

/-- The classes of a program, of distinct names. -/
structure Classes where
  infos : List ClassInfo := []
deriving Inhabited

namespace Classes

def find? (cs : Classes) (name : String) : Option ClassInfo :=
  cs.infos.find? fun c => c.name == name

def register (cs : Classes) (name : String) (loc : Location) : Except Diagnostic Classes :=
  match cs.find? name with
  | some _ => .error (.of loc (.redeclared name .classDef))
  | none => .ok ⟨cs.infos ++ [{ name }]⟩

def update (cs : Classes) (name : String) (f : ClassInfo → ClassInfo) : Classes :=
  ⟨cs.infos.map fun c => if c.name = name then f c else c⟩

/-- Adds a member to a registered class. Its name must be new in the class. -/
def addMember (cs : Classes) (cls member : String) (loc : Location) :
    Except Fault (Except Diagnostic Classes) :=
  match cs.find? cls with
  | none => .error (.unknownClass cls)
  | some info =>
    if info.members.contains member then
      .ok (.error (.of loc (.redeclared member .member)))
    else
      .ok (.ok (cs.update cls fun c => { c with members := c.members ++ [member] }))

def setInitArity (cs : Classes) (cls : String) (arity : Nat) : Classes :=
  cs.update cls fun c => { c with initArity := some arity }

end Classes

end Ember
