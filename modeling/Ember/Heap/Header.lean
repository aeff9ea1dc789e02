import Ember.Heap.Basic

/-!
# Ember — headers

What the header of an object says: the kind, the marks and the size of the object, and the objects
that it links to.
-/

namespace Ember

/-- The header of an object. -/
structure Header where
  kind : String
  marked : Bool
  pinned : Bool
  size : Nat
  footprint : Nat
  /-- The next older object. -/
  next : Option Address
  /-- The next older object of the same region. -/
  nextInRegion : Option Address
deriving DecidableEq

namespace Heap

def header? (h : Heap) (a : Address) : Option Header :=
  h.cells[a]?.map fun c =>
    { kind := c.object.kindName
      marked := c.marked
      pinned := c.pinned
      size := c.size
      footprint := c.footprint
      next := h.links.next[a]?
      nextInRegion := h.links.nextInRegion[a]? }

end Heap

end Ember
