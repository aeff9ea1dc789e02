import Ember.Value
import Ember.Fault
import Std.Data.TreeMap

/-!
# Ember — the links between objects

The header of an object leads to the next older object, and to the next older one of those that start
in the same region. The links are changed in place. Where links are followed, the number of live
objects bounds the walk.
-/

namespace Ember

abbrev NatMap (α : Type) := Std.TreeMap Nat α

/-- The links in the headers, and where to start. -/
structure Links where
  /-- The newest object. -/
  head : Option Address := none
  /-- The next older object, by address. The oldest object has none. -/
  next : NatMap Address := ∅
  /-- The newest object of each region. -/
  heads : NatMap Address := ∅
  /-- The next older object of the same region, by address. -/
  nextInRegion : NatMap Address := ∅

namespace Links

/-- The first object with a property that links lead to. -/
def search (p : Address → Bool) (next : NatMap Address) : Nat → Option Address → Option Address
  | n + 1, some a => if p a then some a else search p next n next[a]?
  | _, _ => none

def push (l : Links) (a : Address) (region : Nat) : Links where
  head := some a
  next := l.next.alter a fun _ => l.head
  heads := l.heads.insert region a
  nextInRegion := l.nextInRegion.alter a fun _ => l.heads[region]?

/-- Makes what leads to an object, `previous` or the start, lead past it. -/
def unlink (l : Links) (previous : Option Address) (a : Address) : Links :=
  match previous with
  | some b => { l with next := l.next.alter b fun _ => l.next[a]? }
  | none => { l with head := l.next[a]? }

/-- Searches a chain for the object that leads to `a`, and makes it lead past `a`. Every object on
the way must exist. -/
def bypass (known : Address → Bool) (next : NatMap Address) (a : Address) :
    Nat → Option Address → Except Fault (NatMap Address)
  | _, none => .ok next
  | 0, some b => .error (.dangling b)
  | n + 1, some b =>
    if !known b then .error (.dangling b)
    else if next[b]? = some a then .ok (next.alter b fun _ => next[a]?)
    else bypass known next a n next[b]?

/-- Takes an object out of the chain of its region. -/
def unchain (l : Links) (known : Address → Bool) (count : Nat) (a : Address) (region : Nat) :
    Except Fault Links :=
  if l.heads[region]? = some a then
    .ok { l with heads := l.heads.alter region fun _ => l.nextInRegion[a]? }
  else do
    return { l with nextInRegion := ← bypass known l.nextInRegion a count l.heads[region]? }

/-- Drops the links of an object that nothing leads to. -/
def drop (l : Links) (a : Address) : Links :=
  { l with next := l.next.erase a, nextInRegion := l.nextInRegion.erase a }

end Links

end Ember
