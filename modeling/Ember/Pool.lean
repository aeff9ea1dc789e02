import Ember.Table
import Ember.Diagnostic

/-!
# Ember — the constant pool

Every text that compiled code can mention is pooled before any code is emitted. Equal texts share
one number; emission only looks texts up.
-/

namespace Ember

/-- Distinct texts, numbered in the order in which they were first seen. -/
structure Pool where
  texts : Table String := {}
deriving Inhabited

namespace Pool

def find? (p : Pool) (text : String) : Option Nat :=
  p.texts.entries.findIdx? (· == text)

def intern (p : Pool) (text : String) : Pool :=
  match p.find? text with
  | some _ => p
  | none => ⟨p.texts.push text⟩

def internAll (p : Pool) (texts : List String) : Pool :=
  texts.foldl intern p

def lookup (p : Pool) (text : String) : Except Diagnostic Nat :=
  match p.find? text with
  | some i => .ok i
  | none => .error ⟨.missingConstant text, none⟩

def toList (p : Pool) : List String :=
  p.texts.toList

end Pool

end Ember
