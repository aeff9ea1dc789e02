import Ember.Host.Container
import Ember.Diagnostic
import Ember.Ir.EntryPoint

/-!
# Ember — builtin functions at run time

* `builtin` — a builtin function on its arguments.
-/

namespace Ember.Host

open Ir (Builtin)

def printLine (text : String) : Act Unit := fun h =>
  match h.console.printLine text with
  | (none, console) => .ok () { h with console }
  | (some reason, console) => .error (.fatal (.console reason)) { h with console }

def readLine : Act (Option String) := fun h =>
  match h.console.readLine with
  | (.line s, console) => .ok (some s) { h with console }
  | (.ended, console) => .ok none { h with console }
  | (.failed reason, console) => .error (.fatal (.console reason)) { h with console }

/-- Prints the texts of values with blanks between them. -/
def print (arguments : List Value) : Act Value := do
  let texts ← arguments.mapM display
  printLine (String.intercalate " " texts)
  return .null

/-- The integer that a text denotes, possibly as a double. -/
def readInteger (text : List Char) : Option Int64 :=
  match Number.readInt text with
  | some n => some n
  | none => (Number.readDouble text).map Number.Double.toInt64

def intOf (v : Value) (site : Location) : Act Value := do
  match ← inspect fun heap => heap.text? v with
  | none => return .int (← toInt v site)
  | some s =>
    let trimmed := Text.trim s.toList
    match readInteger trimmed with
    | some n => return .int n
    | none =>
      failure site ("cannot convert " ++ Text.quoted (String.ofList trimmed) ++ " to int")

def floatOf (v : Value) (site : Location) : Act Value := do
  match ← inspect fun heap => heap.text? v with
  | none => return .float (← toFloat v site)
  | some s =>
    match Number.readDouble (Text.trim s.toList) with
    | some x => return .float x
    | none => failure site ("cannot convert " ++ Text.quoted s ++ " to float")

def strOf (v : Value) : Act Value :=
  match v with
  | .str _ => return v
  | _ => do string (← display v)

def append (array v : Value) (site : Location) : Act Value :=
  match array with
  | .array a => do
    pushElement a v
    return .null
  | _ => failure site ("append expects an array, not " ++ array.tag.name)

def hasKey (dict key : Value) (site : Location) : Act Value :=
  match dict with
  | .dict a => do
    let key ← dictKey key site
    return .bool ((← inspect fun heap => heap.dictAt a).contains key)
  | _ => failure site ("has_key expects a dict, not " ++ dict.tag.name)

def input : Act Value := do
  match ← readLine with
  | some s => string s
  | none => return .null

def programArguments : Act Value := do
  let a ← allocateArray #[]
  withFrame [.array a] do
    pushStrings a (← get).arguments
    return .array a

def builtin (b : Builtin) (arguments : List Value) (site : Location) : Act Value :=
  match b, arguments with
  | .print, vs => print vs
  | .len, [v] => do return .int (Int64.ofNat (← length v site))
  | .str, [v] => strOf v
  | .int, [v] => intOf v site
  | .float, [v] => floatOf v site
  | .type, [v] => string v.tag.name
  | .keys, [v] => dictKeys v site
  | .append, [array, v] => append array v site
  | .hasKey, [dict, key] => hasKey dict key site
  | .input, [] => input
  | .args, [] => programArguments
  | b, vs => failure site (arityMessage b.name (b.arity?.getD 0) vs.length)

end Ember.Host
