import Ember.Ir.Basic
import Ember.Text.Styled

/-!
# Ember — listings of functions

A function is listed in assembly syntax: a head, then every block under its label with one
instruction a line. Colours mark registers, labels, constants and operations. A listing exists only
if every register and every block that the function mentions does.

* `Function.listing` — the styled listing of a function.
-/

namespace Ember.Ir

open Text (Styled Style raw styled)

/-- A number in upper-case digits to base sixteen, padded to a width. -/
def paddedHex (width n : Nat) : String :=
  let digits := (Nat.toDigits 16 n).map Char.toUpper
  String.ofList (List.replicate (width - digits.length) '0' ++ digits)

/-- The spelling of a constant. A double is written by its bits, which suits every double. -/
def Immediate.text : Immediate → String
  | .int n => toString n.toInt
  | .float x => "0x" ++ paddedHex 16 x.bits.toNat
  | .bool b => if b then "true" else "false"
  | .zero => "zeroinitializer"

def textSymbol (id : Nat) : String :=
  ".str." ++ toString id

def GlobalRef.spelling : GlobalRef → String
  | .slot symbol => "@" ++ symbol
  | .text id => "@" ++ textSymbol id
  | .function symbol => "@" ++ symbol

def Callee.symbol : Callee → String
  | .entry e => e.symbol
  | .intrinsic i => i.symbol
  | .function symbol => symbol

namespace Function

/-- The name of a register: its own, or one made of its number. -/
def registerName (f : Function) (r : Nat) : Except Fault String := do
  let reg ← f.registers.get r
  return match reg.name with
    | some name => name
    | none => "t" ++ toString r

/-- The name of a block: its label followed by its number. -/
def blockName (f : Function) (b : Nat) : Except Fault String := do
  let blk ← f.blocks.get b
  return blk.label ++ toString b

def listRegister (f : Function) (r : Nat) : Except Fault Styled := do
  return styled .yellow ("%" ++ (← f.registerName r))

def listTarget (f : Function) (b : Nat) : Except Fault Styled := do
  return styled .blue ("%" ++ (← f.blockName b))

def listOperand (f : Function) : Operand → Except Fault Styled
  | .reg r => f.listRegister r
  | .imm i => .ok (styled .magenta i.text)
  | .global g => .ok (styled .green g.spelling)

def listTyped (f : Function) (t : Typed) : Except Fault Styled := do
  return raw (t.ty.text ++ " ") ++ (← f.listOperand t.operand)

def listOpcode (s : String) : Styled :=
  styled .cyan s

def listAssignment (f : Function) (dest : Nat) (operation : Styled) : Except Fault Styled := do
  return (← f.listRegister dest) ++ raw " " ++ styled .white "=" ++ raw " " ++ operation

def listInstr (f : Function) : Instr → Except Fault Styled
  | .alloca dest ty count =>
    f.listAssignment dest <| listOpcode "alloca" ++ raw (" " ++ ty.text) ++
      if count = 1 then [] else raw (", i32 " ++ toString count)
  | .load dest ty source => do
    f.listAssignment dest <| listOpcode "load" ++ raw (" " ++ ty.text ++ ", ptr ") ++
      (← f.listOperand source)
  | .store value dest => do
    return listOpcode "store" ++ raw " " ++ (← f.listTyped value) ++ raw ", ptr " ++
      (← f.listOperand dest)
  | .call dest result callee arguments => do
    let arguments ← arguments.mapM f.listTyped
    let call := listOpcode "call" ++ raw (" " ++ result.text ++ " ") ++
      styled .blue ("@" ++ callee.symbol) ++ raw "(" ++ Styled.join (raw ", ") arguments ++ raw ")"
    match dest with
    | some dest => f.listAssignment dest call
    | none => return call
  | .extract dest aggregate index => do
    f.listAssignment dest <| listOpcode "extractvalue" ++ raw (" " ++ Ty.value.text ++ " ") ++
      (← f.listOperand aggregate) ++ raw (", " ++ toString index)
  | .element dest ty base index => do
    f.listAssignment dest <| listOpcode "getelementptr" ++ raw (" " ++ ty.text ++ ", ptr ") ++
      (← f.listOperand base) ++ raw ", " ++ (← f.listTyped index)
  | .compare dest predicate lhs rhs => do
    f.listAssignment dest <| listOpcode "icmp" ++ raw (" " ++ predicate.text ++ " ") ++
      (← f.listTyped lhs) ++ raw ", " ++ (← f.listOperand rhs)
  | .arith dest op lhs rhs => do
    f.listAssignment dest <| listOpcode op.text ++ raw " " ++ (← f.listTyped lhs) ++ raw ", " ++
      (← f.listOperand rhs)
  | .branch condition positive negative => do
    return listOpcode "br" ++ raw " i1 " ++ (← f.listOperand condition) ++ raw ", label " ++
      (← f.listTarget positive) ++ raw ", label " ++ (← f.listTarget negative)
  | .jump dest => do
    return listOpcode "br" ++ raw " label " ++ (← f.listTarget dest)
  | .ret (some value) => do
    return listOpcode "ret" ++ raw " " ++ (← f.listTyped value)
  | .ret none => .ok (listOpcode "ret" ++ raw " void")
  | .unreachable => .ok (listOpcode "unreachable")
  | .comment text => .ok (styled .gray ("; " ++ text))

def listLine (f : Function) (i : Instr) : Except Fault Styled := do
  return raw "  " ++ (← f.listInstr i) ++ raw "\n"

def listBlock (f : Function) (number : Nat) (b : Block) : Except Fault Styled := do
  let lines ← b.instrs.toList.mapM f.listLine
  return styled .brightRed (b.label ++ toString number ++ ":") ++ raw "\n" ++ lines.flatten

def listParameter (f : Function) (r : Nat) : Except Fault Styled := do
  let reg ← f.registers.get r
  return raw (reg.ty.text ++ " ") ++ (← f.listRegister r)

def listing (f : Function) : Except Fault Styled := do
  let parameters ← f.parameters.mapM f.listParameter
  let blocks ← f.blocks.numbered.mapM fun (i, b) => f.listBlock i b
  return styled .magenta "define" ++ raw (" " ++ f.result.text ++ " ") ++
    styled .blue ("@" ++ f.symbol) ++ raw "(" ++ Styled.join (raw ", ") parameters ++
    raw ") \x7b\n" ++ blocks.flatten ++ raw "\x7d"

end Function

end Ember.Ir
