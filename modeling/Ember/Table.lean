import Ember.Fault

/-!
# Ember — numbered tables

A table gives every entry the next free number. Entries are found by number, can be replaced, and
are never removed. A number taken from outside is cut to 32 bits before it is used.
-/

namespace Ember

/-- Entries numbered from zero. -/
structure Table (α : Type) where
  entries : Array α := #[]

namespace Table

variable {α : Type}

instance : Inhabited (Table α) := ⟨{}⟩

/-- The number of an entry that a caller names by `n`. -/
def id (n : Nat) : Nat :=
  n % 0x100000000

def idPlus (n m : Nat) : Except Fault Nat :=
  if id n + m < 0x10000000000000000 then .ok (id (id n + m)) else .error .overflow

/-- How many entries there are, which is the number of the next one. -/
def size (t : Table α) : Nat :=
  t.entries.size

def isEmpty (t : Table α) : Bool :=
  t.entries.isEmpty

def push (t : Table α) (a : α) : Table α :=
  ⟨t.entries.push a⟩

def get? (t : Table α) (i : Nat) : Option α :=
  t.entries[i]?

def get (t : Table α) (i : Nat) : Except Fault α :=
  match t.get? i with
  | some a => .ok a
  | none => .error (.outOfRange i)

/-- Replaces the entry of a number that must exist. -/
def set (t : Table α) (i : Nat) (a : α) : Except Fault (Table α) :=
  if i < t.size then .ok ⟨t.entries.setIfInBounds i a⟩ else .error (.outOfRange i)

def toList (t : Table α) : List α :=
  t.entries.toList

def numbered (t : Table α) : List (Nat × α) :=
  t.toList.zipIdx.map fun (a, i) => (i, a)

end Table

end Ember
