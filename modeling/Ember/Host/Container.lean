import Ember.Host.Operators
import Ember.Number.Reading

/-!
# Ember — containers at run time

Strings are sequences of characters, arrays are sequences of values, and dicts map texts to values;
an integer stands for its decimal text as a key.

* `contains`             — membership.
* `indexGet`, `indexSet` — reading and writing at a position or key.
* `slice`                — a part of a string or an array.
* `length`, `dictKeys`   — sizes and keys.
-/

namespace Ember.Host

def dictKey (key : Value) (site : Location) : Act String :=
  match key with
  | .int n => return Number.writeInt n
  | .str _ => inspect fun heap => heap.text key
  | _ => failure site ("dict keys must be strings or integers, not " ++ key.tag.name)

def anyEqual (heap : Heap) (item : Value) : List Value → Except Fault Bool
  | [] => .ok false
  | v :: rest => do if ← equal heap v item then return true else anyEqual heap item rest

def contains (container item : Value) (site : Location) : Act Value :=
  match container with
  | .str _ => do
    match ← inspect fun heap => heap.text? container, ← inspect fun heap => heap.text? item with
    | some hay, some needle => return .bool (Text.occursIn needle.toList hay.toList)
    | _, _ => failure site ("'in <string>' requires a string, not " ++ item.tag.name)
  | .array a => do
    let elements ← inspect fun heap => heap.elements a
    return .bool (← inspect fun heap => anyEqual heap item elements.toList)
  | .dict a => do
    let key ← dictKey item site
    return .bool ((← inspect fun heap => heap.dictAt a).contains key)
  | _ => failure site ("'in' is not supported on " ++ container.tag.name)

/-- The position that a value denotes in a sequence. -/
def position (index : Value) (length : Nat) (site : Location) : Act Nat :=
  match index with
  | .int n =>
    if 0 ≤ n.toInt ∧ n.toInt < length then return n.toInt.toNat
    else failure site ("index " ++ Number.writeInt n ++ " out of range for length " ++ toString length)
  | _ => failure site ("indices must be integers, not " ++ index.tag.name)

/-- The element of a sequence at a position that is within it. -/
def elementOf {α : Type} (elements : Array α) (i : Nat) : Act α :=
  match elements[i]? with
  | some a => return a
  | none => fault (.outOfRange i)

def indexGet (container index : Value) (site : Location) : Act Value :=
  match container with
  | .array a => do
    let o ← inspect fun heap => heap.arrayAt a
    let i ← position index o.len site
    elementOf (← inspect fun heap => heap.elements a) i
  | .str _ => do
    let chars := (← inspect fun heap => heap.text container).toList.toArray
    let i ← position index chars.size site
    string (← elementOf chars i).toString
  | .dict a => do
    let key ← dictKey index site
    match (← inspect fun heap => heap.dictAt a).get? key with
    | some v => return v
    | none => failure site ("key " ++ Text.quoted key ++ " not found")
  | _ => failure site (container.tag.name ++ " is not indexable")

def indexSet (container index v : Value) (site : Location) : Act Unit :=
  match container with
  | .array a => do
    let o ← inspect fun heap => heap.arrayAt a
    let i ← position index o.len site
    storeElement a i v
  | .dict a => do
    let key ← dictKey index site
    setEntry a key v
  | _ => failure site (container.tag.name ++ " does not support item assignment")

/-- A bound of a slice: an integer, or null for none. -/
def sliceBound (v : Value) (site : Location) : Act (Option Int) :=
  match v with
  | .null => return none
  | .int n => return some n.toInt
  | _ => failure site ("slice bounds must be integers or null, not " ++ v.tag.name)

/-- The position that a bound denotes: one below zero counts from the end, and all are cut to the
length. -/
def clampBound (bound : Option Int) (length default : Nat) : Nat :=
  match bound with
  | none => default
  | some n => if n < 0 then length - n.natAbs else min n.toNat length

def sliceOf {α : Type} (elements : Array α) (start stop : Option Int) : Array α :=
  let low := clampBound start elements.size 0
  let high := max (clampBound stop elements.size elements.size) low
  elements.extract low high

def slice (container start stop : Value) (site : Location) : Act Value := do
  let low ← sliceBound start site
  let high ← sliceBound stop site
  withFrame [container] do
    match container with
    | .str _ =>
      let chars := (← inspect fun heap => heap.text container).toList.toArray
      string (String.ofList (sliceOf chars low high).toList)
    | .array a =>
      newArray (sliceOf (← inspect fun heap => heap.elements a) low high)
    | _ => failure site (container.tag.name ++ " cannot be sliced")

/-- The characters of a string, the elements of an array, the entries of a dict. -/
def length (v : Value) (site : Location) : Act Nat :=
  match v with
  | .str _ => do return (← inspect fun heap => heap.text v).length
  | .array a => do return (← inspect fun heap => heap.arrayAt a).len
  | .dict a => do return (← inspect fun heap => heap.dictAt a).size
  | _ => failure site (v.tag.name ++ " has no length")

def dictKeys (v : Value) (site : Location) : Act Value :=
  match v with
  | .dict a => do
    let d ← inspect fun heap => heap.dictAt a
    withFrame [v] do
      let array ← allocateArray #[]
      withFrame [.array array] do
        pushStrings array d.keys
        return .array array
  | _ => failure site ("keys expects a dict, not " ++ v.tag.name)

def toInt (v : Value) (site : Location) : Act Int64 :=
  match Quantity.of? v with
  | some (.int n) => return n
  | some (.float x) => return x.toInt64
  | none => failure site ("expected a number, not " ++ v.tag.name)

def toFloat (v : Value) (site : Location) : Act Number.Double :=
  match Quantity.of? v with
  | some q => return q.toDouble
  | none => failure site ("expected a number, not " ++ v.tag.name)

end Ember.Host
