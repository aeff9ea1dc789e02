import Ember.Host.Basic

/-!
# Ember — allocation

Collections happen inside allocation only. Room is made for everything that an operation is about to
place, and the placing itself never collects.

* `collect`  — one full collection.
* `reserve`  — makes room.
* `string`, `newArray`, `newDict`, `pushElement` — strings, arrays and dicts.
-/

namespace Ember.Host

def rootAddress (slots : Array Value) (slot : Nat) : Except Fault (Option Address) :=
  match slots[slot]? with
  | some v => .ok v.address?
  | none => .error (.outOfRange slot)

/-- Queues what the machine stack may refer to, the registered slots and the exception. -/
def markRoots (h : Host) : Except Fault Heap := do
  let heap := h.stack.scan.foldl (fun heap w => heap.markWord w.toNat) h.heap
  let roots ← h.roots.slots.toList.mapM (rootAddress h.slots)
  return (roots ++ [h.exception.bind Value.address?]).foldl
    (fun heap a => a.elim heap heap.mark) heap

/-- A full collection: the number of objects freed. -/
def collect : Act Nat := fun h =>
  match h.markRoots >>= fun heap => heap.trace.sweepAll with
  | .error f => .error (.fault f) h
  | .ok (freed, heap) => .ok freed { h with heap }

/-- Whether so many more bytes would exceed the memory. -/
def exceeds (bytes : Nat) : Act Bool := do
  let h ← get
  return (← sound (Heap.sum64 h.heap.liveBytes bytes)) > h.config.memoryLimit

/-- Makes room for objects of so many bytes in all. -/
def reserve (objects bytes : Nat) : Act Unit := do
  if ← inspect fun heap => heap.shouldCollect objects then
    let _ ← collect
  if ← exceeds bytes then
    let _ ← collect
    if ← exceeds bytes then
      let h ← get
      fatal (.outOfMemory bytes h.heap.liveBytes h.config.memoryLimit)

def insert (object : Object) (pinned : Bool := false) : Act Address := fun h =>
  match h.heap.insert object pinned with
  | .ok (a, heap) => .ok a { h with heap }
  | .error f => .error (.fault f) h

def allocate (object : Object) (pinned : Bool := false) : Act Address := do
  reserve 1 (← sound (Heap.footprint object.size))
  insert object pinned

def string (text : String) : Act Value := do
  return .str (← allocate (.str text))

def display (v : Value) : Act String :=
  inspect fun heap => heap.display v

/-! ## Arrays -/

def minCapacity : Nat := 4

def storage (elements : Array Value) (capacity : Nat) : Array Value :=
  elements ++ Array.replicate (capacity - elements.size) default

def changeArray (a : Address) (f : ArrayObject → ArrayObject) : Act Unit := do
  let _ ← inspect fun heap => heap.arrayAt a
  change a fun
    | .array o => .array (f o)
    | o => o

def allocateArray (elements : Array Value) : Act Address :=
  let capacity := max elements.size minCapacity
  withFrame elements.toList do
    let array ← sound (Heap.footprint 24)
    let buffer ← sound (Heap.footprint (16 * capacity))
    reserve 2 (array + buffer)
    let a ← insert (.array { len := 0, capacity := 0, buffer := none })
    let b ← insert (.buffer { owner := a, elements := storage elements capacity })
    changeArray a fun _ => { len := elements.size, capacity, buffer := some b }
    return a

def newArray (elements : Array Value) : Act Value := do
  return .array (← allocateArray elements)

def storeElement (a : Address) (index : Nat) (v : Value) : Act Unit := do
  let o ← inspect fun heap => heap.arrayAt a
  match o.buffer with
  | none => return ()
  | some b =>
    match ← inspect fun heap => heap.object b with
    | .buffer buf =>
      if index < buf.elements.size then
        change b fun
          | .buffer buf => .buffer { buf with elements := buf.elements.setIfInBounds index v }
          | o => o
      else fault (.outOfRange index)
    | _ => return ()

/-- Gives an array a buffer of twice the capacity. The old one is left to the collector. -/
def grow (a : Address) (o : ArrayObject) (v : Value) : Act Unit := do
  let elements ← inspect fun heap => heap.elements a
  let capacity := max (o.capacity * 2) minCapacity
  withFrame [.array a, v] do
    let b ← allocate (.buffer { owner := a, elements := storage elements capacity })
    changeArray a fun o => { o with buffer := some b, capacity }

def pushElement (a : Address) (v : Value) : Act Unit := do
  let o ← inspect fun heap => heap.arrayAt a
  if o.len = o.capacity then grow a o v
  storeElement a o.len v
  changeArray a fun o => { o with len := o.len + 1 }

def pushStrings (a : Address) : List String → Act Unit
  | [] => return ()
  | s :: rest => do
    pushElement a (← string s)
    pushStrings a rest

/-! ## Dicts -/

def allocateDict : Act Address := do
  allocate (.dict (← sound (Dict.make (← get).config.dictBuckets)))

def newDict : Act Value := do
  return .dict (← allocateDict)

def setEntry (a : Address) (key : String) (v : Value) : Act Unit := do
  let _ ← inspect fun heap => heap.dictAt a
  change a fun
    | .dict d => .dict (d.insert key v)
    | o => o

end Ember.Host
