import Ember.Heap.Object
import Ember.Heap.Links

/-!
# Ember — the heap

Objects are placed one after the other and never move. An object is a header of 32 bytes followed by
its payload, and its address is that of the payload. Addresses are not used again. The headers link all
objects, newest first, and those that start in the same region of 4096 bytes.

* `Heap.insert` — places an object.
* `Heap.get?`   — the object at an address.
* `Heap.modify` — changes the object at an address.
-/

namespace Ember

def headerSize : Nat := 32

/-- The first multiple of sixteen that is not below a size. -/
def align (size : Nat) : Nat :=
  (size + 15) / 16 * 16

/-- The first byte of the header of the object at an address. -/
def startOf (a : Address) : Nat :=
  a - headerSize

def regionOf (byte : Nat) : Nat :=
  byte / 4096

/-- An object in the heap. -/
structure Cell where
  object : Object
  /-- The payload bytes when the object was placed. -/
  size : Nat
  /-- Whether a sweep keeps the object in any case. -/
  pinned : Bool
  /-- Whether the present collection has found the object. -/
  marked : Bool := false

def Cell.footprint (c : Cell) : Nat :=
  headerSize + align c.size

/-- What the heap counts. -/
structure HeapStats where
  collections : Nat := 0
  allocatedObjects : Nat := 0
  allocatedBytes : Nat := 0
  freedObjects : Nat := 0
  freedBytes : Nat := 0
deriving DecidableEq

/-- The heap. -/
structure Heap where
  cells : NatMap Cell := ∅
  links : Links := {}
  /-- No object is wider than this. -/
  widest : Nat := 0
  /-- The bytes between the first and the last object ever placed. -/
  envelope : Option (Nat × Nat) := none
  /-- Where the next header goes. -/
  nextFree : Nat := 0x100000
  /-- Objects that were found and not yet looked at. -/
  pending : List Address := []
  liveObjects : Nat := 0
  liveBytes : Nat := 0
  /-- More objects than this ask for a collection. -/
  threshold : Nat
  minThreshold : Nat
  stats : HeapStats := {}

namespace Heap

def empty (initialThreshold minThreshold : Nat) : Heap :=
  { threshold := max initialThreshold minThreshold, minThreshold }

def sum64 (a b : Nat) : Except Fault Nat :=
  if a + b < 0x10000000000000000 then .ok (a + b) else .error .overflow

/-- The bytes that an object of a payload size takes in all. -/
def footprint (size : Nat) : Except Fault Nat :=
  sum64 headerSize (align size)

/-- Whether so many more objects would pass the threshold. -/
def shouldCollect (h : Heap) (incoming : Nat) : Except Fault Bool := do
  return (← sum64 h.liveObjects incoming) > h.threshold

def get? (h : Heap) (a : Address) : Option Object :=
  h.cells[a]?.map Cell.object

def contains (h : Heap) (a : Address) : Bool :=
  h.cells.contains a

/-- One past the last byte of a cell at an address. -/
def endOf (a : Address) (c : Cell) : Nat :=
  a + align c.size

def nextAddress (h : Heap) : Address :=
  h.nextFree + headerSize

/-- An envelope that also holds the bytes from `low` to `high`. -/
def widen (low high : Nat) : Option (Nat × Nat) → Nat × Nat
  | some (l, u) => (min l low, max u high)
  | none => (low, high)

def place (h : Heap) (c : Cell) : Heap :=
  let a := h.nextAddress
  { h with
    cells := h.cells.insert a c
    links := h.links.push a (regionOf h.nextFree)
    widest := max h.widest c.footprint
    envelope := some (widen h.nextFree (endOf a c) h.envelope)
    nextFree := h.nextFree + c.footprint
    liveObjects := h.liveObjects + 1
    liveBytes := h.liveBytes + c.footprint
    stats := { h.stats with
      allocatedObjects := h.stats.allocatedObjects + 1
      allocatedBytes := h.stats.allocatedBytes + c.footprint } }

def insert (h : Heap) (object : Object) (pinned : Bool) : Except Fault (Address × Heap) :=
  let c : Cell := { object, size := object.size, pinned }
  if h.nextFree + c.footprint < 0x10000000000000000 then .ok (h.nextAddress, h.place c) else .error .overflow

def modify (h : Heap) (a : Address) (f : Object → Object) : Heap :=
  { h with cells := h.cells.modify a fun c => { c with object := f c.object } }

/-! ## Typed views -/

def object (h : Heap) (a : Address) : Except Fault Object :=
  match h.get? a with
  | some o => .ok o
  | none => .error (.dangling a)

def arrayAt (h : Heap) (a : Address) : Except Fault ArrayObject := do
  match ← h.object a with
  | .array o => .ok o
  | _ => .error (.wrongKind a)

def dictAt (h : Heap) (a : Address) : Except Fault Dict := do
  match ← h.object a with
  | .dict d => .ok d
  | _ => .error (.wrongKind a)

def classAt (h : Heap) (a : Address) : Except Fault ClassObject := do
  match ← h.object a with
  | .cls c => .ok c
  | _ => .error (.wrongKind a)

def instanceAt (h : Heap) (a : Address) : Except Fault InstanceObject := do
  match ← h.object a with
  | .inst i => .ok i
  | _ => .error (.wrongKind a)

/-- The text of a string value. Other values have none, nor does a string value that refers to an
object of another kind. -/
def text? (h : Heap) : Value → Except Fault (Option String)
  | .str a => do
    match ← h.object a with
    | .str s => .ok (some s)
    | _ => .ok none
  | _ => .ok none

def text (h : Heap) (v : Value) : Except Fault String := do
  return (← h.text? v).getD ""

def elements (h : Heap) (a : Address) : Except Fault (Array Value) := do
  let o ← h.arrayAt a
  match o.buffer with
  | none => .ok #[]
  | some b =>
    match ← h.object b with
    | .buffer buf =>
      if o.len ≤ buf.elements.size then .ok (buf.elements.extract 0 o.len)
      else .error (.outOfRange o.len)
    | _ => .ok #[]

/-- The address of an element inside the buffer of an array. -/
def elementAddress (h : Heap) (a : Address) (index : Nat) : Except Fault (Option Nat) := do
  let o ← h.arrayAt a
  match o.buffer with
  | none => .ok none
  | some b =>
    if 16 * index < 0x10000000000000000 then return some (← sum64 b (16 * index)) else .error .overflow

end Heap

end Ember
