import Ember.Ir.Listing
import Ember.Text.Terminal

/-!
# Ember — assembly files

A module is written as one assembly file: a header, the type of values, the pooled texts, the global
slots, declarations of exactly the outside functions that the module calls, and its functions.

* `constantLiteral`  — the bytes of a text inside a constant.
* `Module.assembly`  — the whole file.
-/

namespace Ember.Ir

/-- What a compilation can be asked for. -/
structure Options where
  /-- The name of the source in the header. -/
  sourceName : String := "main.em"
  targetTriple : Option String := none
  /-- Whether every statement is preceded by a comment with its location. -/
  annotate : Bool := false
deriving Inhabited

/-- Whether a byte stands for itself in a constant: printable ASCII other than quote and backslash. -/
def isPlainByte (b : UInt8) : Bool :=
  0x20 ≤ b && b ≤ 0x7e && b != 0x22 && b != 0x5c

/-- A byte of a constant: itself, or a backslash and two digits to base sixteen. -/
def constantByte (b : UInt8) : String :=
  if isPlainByte b then (Char.ofNat b.toNat).toString else "\\" ++ paddedHex 2 b.toNat

/-- The bytes of a text as they stand in a constant. -/
def constantLiteral (text : String) : String :=
  String.join (text.toUTF8.toList.map constantByte)

/-- The definition of a pooled text, which ends with a zero byte. -/
def constantLine (id : Nat) (text : String) : String :=
  "@" ++ textSymbol id ++ " = private unnamed_addr constant [" ++ toString (text.utf8ByteSize + 1) ++
    " x i8] c\"" ++ constantLiteral text ++ "\\00\""

def globalLine (symbol : String) : String :=
  "@" ++ symbol ++ " = global %Value zeroinitializer"

def declarationLine (result : Ty) (symbol : String) (parameters : List Ty) (mark : String) :
    String :=
  "declare " ++ result.text ++ " @" ++ symbol ++ "(" ++
    String.intercalate ", " (parameters.map Ty.text) ++ ")" ++ mark

def EntryPoint.declaration (e : EntryPoint) : String :=
  declarationLine e.result e.symbol e.parameters (if e.isNoReturn then " noreturn" else "")

def Intrinsic.declaration (i : Intrinsic) : String :=
  declarationLine i.result i.symbol i.parameters (if i = .setjmp then " returns_twice" else "")

namespace Module

/-- The entry points that a module calls, in their own order. -/
def entryPoints (m : Module) : List EntryPoint :=
  let callees := m.callees
  EntryPoint.all.filter fun e => callees.contains (.entry e)

/-- The intrinsics that a module calls, in their own order. -/
def intrinsics (m : Module) : List Intrinsic :=
  let callees := m.callees
  Intrinsic.all.filter fun i => callees.contains (.intrinsic i)

def declarations (m : Module) : List String :=
  m.entryPoints.map EntryPoint.declaration ++ m.intrinsics.map Intrinsic.declaration

def header (options : Options) : String :=
  "; ModuleID = '" ++ options.sourceName ++ "'\nsource_filename = \"" ++ options.sourceName ++ "\"" ++
    match options.targetTriple with
    | some triple => "\ntarget triple = \"" ++ triple ++ "\""
    | none => ""

/-- The text of a function in a file: its coloured listing without terminal sequences and controls. -/
def functionTextWith (paint : Text.Style → String → String) (strip : String → String) (f : Function) :
    Except Fault String := do
  return strip ((← f.listing).coloredWith paint)

/-- The codes of the colours matter where a name or a comment ends inside a sequence: the next code
closes it. -/
def functionText (f : Function) : Except Fault String :=
  functionTextWith Text.Style.paint Text.strip f

def assembly (m : Module) (options : Options) : Except Fault String := do
  let functions ← m.functions.mapM functionText
  let lines := String.intercalate "\n"
  return header options ++ "\n\n%Value = type \x7b i32, i64 \x7d\n\n; constants\n" ++
    lines (m.texts.numbered.map fun (i, text) => constantLine i text) ++ "\n\n; globals\n" ++
    lines (m.globals.map globalLine) ++ "\n\n; runtime\n" ++ lines m.declarations ++
    "\n\n; program\n" ++ String.intercalate "\n\n" functions ++ "\n"

end Module

end Ember.Ir
