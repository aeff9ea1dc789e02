import Ember.Heap.Owner

/-!
# Ember — collections

A collection marks and sweeps. Roots are queued with `mark` and `markWord`; `trace` marks everything
that can be reached from them; `sweep` frees what is neither marked nor pinned.

Marking works on the objects that are not yet marked, called white. Each step drops the queued
addresses that are not white and takes one object out of the white ones, so it ends.
-/

namespace Ember.Heap

def mark (h : Heap) (a : Address) : Heap :=
  { h with pending := a :: h.pending }

def markWord (h : Heap) (word : Nat) : Heap :=
  match h.ownerOf word with
  | some a => h.mark a
  | none => h

/-- Takes everything that can be reached from the queue out of the white objects. -/
def blacken (white : NatMap Cell) (queue : List Address) : NatMap Cell :=
  match hq : queue.dropWhile fun a => !white.contains a with
  | [] => white
  | a :: rest =>
    have hm : a ∈ white := by
      have hfirst := List.head?_dropWhile_not (fun a => !white.contains a) queue
      rw [hq] at hfirst
      simpa using hfirst
    blacken (white.erase a) (white[a].object.references ++ rest)
termination_by white.size
decreasing_by
  have hpos : 0 < white.size := by
    rcases Nat.eq_zero_or_pos white.size with h0 | h0
    · have hempty : white.isEmpty = true := by
        simp [Std.TreeMap.isEmpty_eq_size_eq_zero, h0]
      exact absurd hm (Std.TreeMap.not_mem_of_isEmpty hempty)
    · exact h0
  rw [Std.TreeMap.size_erase, if_pos (Std.TreeMap.mem_iff_contains.mp hm)]
  omega

/-- The objects that are not marked. -/
def white (h : Heap) : NatMap Cell :=
  h.cells.filter fun _ c => !c.marked

/-- Marks everything that can be reached from the queue, which is empty afterwards. -/
def trace (h : Heap) : Heap :=
  let left := blacken h.white h.pending
  { h with
    cells := h.cells.map fun a c => { c with marked := !left.contains a }
    pending := [] }

/-- Frees the object at an address, which `previous` leads to. -/
def release (h : Heap) (previous : Option Address) (a : Address) (c : Cell) : Except Fault Heap := do
  let links ← (h.links.unlink previous a).unchain h.contains h.liveObjects a (regionOf (startOf a))
  return { h with
    cells := h.cells.erase a
    links := links.drop a
    liveObjects := h.liveObjects - 1
    liveBytes := h.liveBytes - c.footprint
    stats := { h.stats with
      freedObjects := h.stats.freedObjects + 1
      freedBytes := h.stats.freedBytes + c.footprint } }

/-- Follows the links from an object on, frees what is neither marked nor pinned and clears the marks
of the others: the heap, the bytes of the widest object kept and the number of objects freed.
`previous` is the last object kept so far. -/
def sweepFrom (h : Heap) (previous : Option Address) (widest freed : Nat) :
    Nat → Option Address → Except Fault (Heap × Nat × Nat)
  | _, none => .ok (h, widest, freed)
  | 0, some a => .error (.dangling a)
  | n + 1, some a =>
    match h.cells[a]? with
    | none => .error (.dangling a)
    | some c =>
      let next := h.links.next[a]?
      if c.marked || c.pinned then
        let cells := h.cells.insert a { c with marked := false }
        sweepFrom { h with cells } (some a) (max widest c.footprint) freed n next
      else do
        sweepFrom (← h.release previous a c) previous widest (freed + 1) n next

/-- A swept heap whose widest object has so many bytes. The next collection is due at twice the
number of survivors. -/
def settle (h : Heap) (widest : Nat) : Heap :=
  { h with
    widest
    threshold := max (h.liveObjects * 2) h.minThreshold
    stats := { h.stats with collections := h.stats.collections + 1 } }

/-- Visits every object once: the number of objects freed. -/
def sweepAll (h : Heap) : Except Fault (Nat × Heap) := do
  let (h, widest, freed) ← h.sweepFrom none 0 0 h.liveObjects h.links.head
  return (freed, h.settle widest)

def sweep (h : Heap) : Nat × Heap :=
  match h.sweepAll with
  | .ok r => r
  | .error _ => (0, h)

end Ember.Heap
