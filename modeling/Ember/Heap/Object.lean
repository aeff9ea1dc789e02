import Ember.Heap.Dict

/-!
# Ember — objects

What lives in the heap. An array keeps its elements in a buffer, which is an object of its own and
is replaced by a larger one when it is full. An instance keeps its fields in a dict.

* `Object.size`       — the bytes that an object takes.
* `Object.references` — the addresses that it holds.
-/

namespace Ember

/-- An array: its length, and the buffer that holds its elements. -/
structure ArrayObject where
  len : Nat
  capacity : Nat
  buffer : Option Address
deriving DecidableEq

/-- The element storage of one array. -/
structure Buffer where
  owner : Address
  elements : Array Value
deriving DecidableEq

/-- A field of a class. Its initializer is named by a symbol. -/
structure Field where
  name : String
  initializer : String
  isPrivate : Bool
deriving DecidableEq

/-- A method of a class. Its code is named by a symbol. -/
structure Method where
  name : String
  code : String
  arity : Nat
  isPrivate : Bool
deriving DecidableEq

/-- A class: its members in the order in which they were added. -/
structure ClassObject where
  name : String
  fields : List Field := []
  methods : List Method := []
deriving DecidableEq

namespace ClassObject

def field? (c : ClassObject) (name : String) : Option Field :=
  c.fields.find? fun f => f.name == name

def method? (c : ClassObject) (name : String) : Option Method :=
  c.methods.find? fun m => m.name == name

end ClassObject

/-- An instance: its class, and the dict that holds its fields. -/
structure InstanceObject where
  cls : Address
  fields : Address
deriving DecidableEq

/-- Objects. -/
inductive Object
  | str (s : String)
  | array (a : ArrayObject)
  | buffer (b : Buffer)
  | dict (d : Dict)
  | cls (c : ClassObject)
  | inst (i : InstanceObject)
deriving DecidableEq

namespace Object

def kindName : Object → String
  | str _ => "string"
  | array _ => "array"
  | buffer _ => "buffer"
  | dict _ => "dict"
  | cls _ => "class"
  | inst _ => "instance"

/-- The bytes that an object takes behind its header. A text ends with a zero byte, an element takes
sixteen bytes, and a bucket takes eight. -/
def size : Object → Nat
  | str s => s.utf8ByteSize + 1
  | array _ => 24
  | buffer b => 16 * b.elements.size
  | dict d => 8 * d.buckets.size + 8
  | cls _ => 48
  | inst _ => 16

def references : Object → List Address
  | str _ | cls _ => []
  | array a => a.buffer.toList
  | buffer b => b.owner :: b.elements.toList.filterMap Value.address?
  | dict d => d.values.filterMap Value.address?
  | inst i => [i.cls, i.fields]

end Object

end Ember
