import Ember.Heap.Basic

/-!
# Ember — from words to objects

A word of the machine stack may or may not refer to an object. The owner of a word is the object
whose header or payload contains that byte. No object is wider than `widest`, so only the regions
that far below the word are searched.

* `Heap.ownerOf` — the owner of a word.
-/

namespace Ember.Heap

/-- Whether the object at an address contains a byte. -/
def covers (h : Heap) (byte : Nat) (a : Address) : Bool :=
  (h.cells[a]?).any fun c => startOf a ≤ byte && byte < endOf a c

/-- Whether a byte lies between the first and the last object ever placed. -/
def inEnvelope (h : Heap) (byte : Nat) : Bool :=
  h.envelope.any fun (low, high) => low ≤ byte && byte < high

def findInRegion (h : Heap) (byte region : Nat) : Option Address :=
  Links.search (h.covers byte) h.links.nextInRegion h.liveObjects h.links.heads[region]?

/-- Searches `count + 1` regions downwards from a region. -/
def searchDown (h : Heap) (byte region : Nat) : Nat → Option Address
  | 0 => h.findInRegion byte region
  | count + 1 => (h.findInRegion byte region).or (h.searchDown byte (region - 1) count)

/-- The object whose header or payload contains a byte. -/
def ownerOf (h : Heap) (byte : Nat) : Option Address :=
  if byte = 0 ∨ ¬ h.inEnvelope byte then none
  else h.searchDown byte (regionOf byte) (regionOf byte - regionOf (byte - h.widest))

end Ember.Heap
