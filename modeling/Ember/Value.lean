import Ember.Number.Double

/-!
# Ember — values

A value is a tag and a payload of 64 bits. Strings, arrays, dicts, classes and instances live in the
heap, and their values hold an address. A double is kept by its bits, so that every payload of a NaN
survives.

* `Value.word`   — the payload.
* `Value.ofRaw?` — the value of a tag number and a payload.
-/

namespace Ember

/-- The kinds of values. -/
inductive Tag
  | int | float | string | array | dict | cls | inst | null | bool
deriving DecidableEq

namespace Tag

def all : List Tag :=
  [int, float, string, array, dict, cls, inst, null, bool]

def number : Tag → Nat
  | int => 0
  | float => 1
  | string => 2
  | array => 3
  | dict => 4
  | cls => 5
  | inst => 6
  | null => 7
  | bool => 8

def ofNumber? (n : Int) : Option Tag :=
  if n < 0 then none else all[n.toNat]?

/-- The name of a tag in messages and for programs. -/
def name : Tag → String
  | int => "int"
  | float => "float"
  | string => "string"
  | array => "array"
  | dict => "dict"
  | cls => "class"
  | inst => "instance"
  | null => "null"
  | bool => "bool"

def isHeap : Tag → Bool
  | string | array | dict | cls | inst => true
  | _ => false

end Tag

abbrev Address := Nat

/-- Values. -/
inductive Value
  | int (n : Int64)
  | float (x : Number.Double)
  | str (a : Address)
  | array (a : Address)
  | dict (a : Address)
  | cls (a : Address)
  | inst (a : Address)
  | null
  | bool (b : Bool)
deriving DecidableEq

instance : Inhabited Value := ⟨.int 0⟩

namespace Value

def tag : Value → Tag
  | int _ => .int
  | float _ => .float
  | str _ => .string
  | array _ => .array
  | dict _ => .dict
  | cls _ => .cls
  | inst _ => .inst
  | null => .null
  | bool _ => .bool

def address? : Value → Option Address
  | str a | array a | dict a | cls a | inst a => some a
  | _ => none

def word : Value → UInt64
  | int n => n.toUInt64
  | float x => x.bits
  | str a | array a | dict a | cls a | inst a => UInt64.ofNat a
  | null => 0
  | bool b => if b then 1 else 0

def tagWord (v : Value) : UInt64 :=
  UInt64.ofNat v.tag.number

def ofWord (t : Tag) (w : UInt64) : Value :=
  match t with
  | .int => int w.toInt64
  | .float => float ⟨w⟩
  | .string => str w.toNat
  | .array => array w.toNat
  | .dict => dict w.toNat
  | .cls => cls w.toNat
  | .inst => inst w.toNat
  | .null => null
  | .bool => bool (w != 0)

def ofRaw? (tag : Int) (w : UInt64) : Option Value :=
  (Tag.ofNumber? tag).map fun t => ofWord t w

end Value

end Ember
