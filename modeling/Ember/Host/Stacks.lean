import Ember.Host.Config

/-!
# Ember — the two stacks

The root stack lists the slots that the collector takes as reachable. The machine stack is a run of
words without types, in which values that are held in the middle of an operation are found by
scanning.
-/

namespace Ember

/-- The registered slots, in the order of their registration. -/
structure RootStack where
  slots : Array Nat := #[]
  capacity : Nat
deriving DecidableEq

namespace RootStack

/-- A new stack, with room for all its slots at 4 bytes each. -/
def make (capacity : Nat) : Except Fault RootStack := do
  checkStorage capacity 4
  return { capacity }

def depth (r : RootStack) : Nat :=
  r.slots.size

def push (r : RootStack) (slot : Nat) : Except FatalError RootStack :=
  if r.depth = r.capacity then .error (.rootOverflow r.capacity)
  else .ok { r with slots := r.slots.push slot }

def truncate (r : RootStack) (depth : Nat) : RootStack :=
  { r with slots := r.slots.take depth }

def pop (r : RootStack) (count : Nat) : Except FatalError RootStack :=
  if r.depth < count then .error (.rootUnderflow count r.depth)
  else .ok (r.truncate (r.depth - count))

end RootStack

/-- The words of the machine stack. Those above the bottom are scanned. -/
structure Stack where
  words : Array UInt64 := #[]
  bottom : Nat := 0
deriving DecidableEq

namespace Stack

def depth (s : Stack) : Nat :=
  s.words.size

def pushWord (s : Stack) (w : UInt64) : Stack :=
  { s with words := s.words.push w }

def pushValue (s : Stack) (v : Value) : Stack :=
  (s.pushWord v.tagWord).pushWord v.word

def pushValues (s : Stack) (vs : List Value) : Stack :=
  vs.foldl pushValue s

def reserve (s : Stack) (count : Nat) : Stack :=
  { s with words := s.words ++ Array.replicate count 0 }

def truncate (s : Stack) (depth : Nat) : Stack :=
  { s with words := s.words.take depth }

def word (s : Stack) (depth : Nat) : Except Fault UInt64 :=
  match s.words[depth]? with
  | some w => .ok w
  | none => .error (.outOfRange depth)

def setWord (s : Stack) (depth : Nat) (w : UInt64) : Except Fault Stack :=
  if depth < s.depth then .ok { s with words := s.words.setIfInBounds depth w }
  else .error (.outOfRange depth)

/-- The stack with the words of a value at a depth and the next one. -/
def putValue (s : Stack) (depth : Nat) (v : Value) : Stack :=
  { s with words := (s.words.setIfInBounds depth v.tagWord).setIfInBounds (depth + 1) v.word }

/-- Replaces the two words from a depth on by those of a value. -/
def setValue (s : Stack) (depth : Nat) (v : Value) : Except Fault Stack :=
  if depth + 1 < s.depth then .ok (s.putValue depth v) else .error (.outOfRange (depth + 1))

/-- The words above the bottom. There is none if the bottom is above the top. -/
def scan (s : Stack) : List UInt64 :=
  s.words.toList.drop s.bottom

end Stack

end Ember
