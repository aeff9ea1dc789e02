import Ember.Heap.Basic
import Ember.Number.Written
import Ember.Text.Quoted

/-!
# Ember — the text of a value

A container is written with its elements inside brackets or braces, and strings inside containers
are quoted. A container that is already being written is abbreviated, so that cycles end.

* `Heap.display` — the text of a value.
-/

namespace Ember.Heap

/-- The text of a value inside the containers `enclosing`, with room for `depth` levels. -/
def displayWithin (h : Heap) : (depth : Nat) → (inner : Bool) → (enclosing : List Address) →
    Value → Except Fault String
  | 0, _, _, _ => .error .tooDeep
  | depth + 1, inner, enclosing, v =>
    match v with
    | .int n => .ok (Number.writeInt n)
    | .float x => .ok (Number.writeDouble x)
    | .bool b => .ok (if b then "true" else "false")
    | .null => .ok "null"
    | .str _ => do
      let s ← h.text v
      return if inner then Text.quoted s else s
    | .cls a => do
      return "<class " ++ (← h.classAt a).name ++ ">"
    | .inst a => do
      let i ← h.instanceAt a
      return "<" ++ (← h.classAt i.cls).name ++ " instance>"
    | .array a =>
      if enclosing.contains a then .ok "[...]"
      else do
        let elements ← h.elements a
        let texts ← elements.toList.mapM (h.displayWithin depth true (a :: enclosing))
        return "[" ++ String.intercalate ", " texts ++ "]"
    | .dict a =>
      if enclosing.contains a then .ok "\x7b...\x7d"
      else do
        let d ← h.dictAt a
        let texts ← d.entries.mapM fun (key, w) => do
          return Text.quoted key ++ ": " ++ (← h.displayWithin depth true (a :: enclosing) w)
        return "\x7b" ++ String.intercalate ", " texts ++ "\x7d"

/-- The text of a value. Enclosing containers are distinct objects, so there is room for all. -/
def display (h : Heap) (v : Value) : Except Fault String :=
  h.displayWithin (h.cells.size + 1) false [] v

/-- The name of a class and the names of its fields and methods, for a reader of traces. -/
def classOutline (c : ClassObject) : String :=
  "ClassObject \x7b name: " ++ Text.quoted c.name ++ ", fields: " ++
    Text.quotedList (c.fields.map Field.name) ++ ", methods: " ++
    Text.quotedList (c.methods.map Method.name) ++ " \x7d"

end Ember.Heap
