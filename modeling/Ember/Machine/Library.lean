import Ember.Machine.Activation
import Ember.Host.Builtins

/-!
# Ember — calls of entry points

Each entry point is bound to the operation of the host that it stands for. The arguments of a call
must fit the declaration of the entry point; a call that does not fit is a fault.

* `Effect`    — what an instruction asks of the function that runs it.
* `callEntry` — a call of an entry point.
-/

namespace Ember.Machine

open Host (sound fault inspect)

/-- What an instruction asks of the function that runs it. -/
inductive Effect
  /-- Go on with the next instruction. -/
  | next
  /-- The result of a call or computation. -/
  | answer (s : Scalar)
  /-- So many slots for the frame. -/
  | slots (count : Nat)
  /-- A checkpoint was dropped. -/
  | closed
  /-- Record a resume point for the checkpoint of a depth. -/
  | checkpoint (depth : Nat)
  | jump (block : Nat)
  | ret (s : Scalar)
  /-- Call a function of the module. -/
  | enter (symbol : String) (arguments : List Scalar)
  /-- Run a method. -/
  | invoke (m : Method) (target : Value) (arguments : List Value)
  /-- Make an instance. -/
  | construct (c : Host.Construction)

def textAt (image : Image) : Scalar → Except Fault String
  | .ptr (.text id) => image.texts.get id
  | _ => .error .badCall

/-- The place that a call reports. A line has 32 bits. -/
def siteAt (image : Image) (line : Int64) (file : Scalar) : Except Fault Location := do
  return ⟨← textAt image file, countOf line % 0x100000000⟩

def slotAt : Pointer → Except Fault Nat
  | .values slots offset =>
    match slots[offset]? with
    | some slot => .ok slot
    | none => .error (.outOfRange offset)
  | _ => .error .badCall

def valuesAt (p : Pointer) (count : Int64) : Act (List Value) :=
  match p with
  | .values slots offset =>
    let stop := offset + countOf count
    if stop ≤ slots.size then (slots.extract offset stop).toList.mapM Host.load
    else fault (.outOfRange stop)
  | _ => fault .badCall

def answerValue (x : Act Value) : Act Effect := do
  return .answer (.value (← x))

def answerVoid (x : Act Unit) : Act Effect := do
  x
  return .answer .void

/-- A call of an entry point that reports its place. -/
def callSited (e : Ir.EntryPoint) (arguments : List Scalar) (text : Scalar → Except Fault String)
    (site : Location) : Act Effect :=
  match e, arguments with
  | .toInt, [.value v] => do return .answer (.int (← Host.toInt v site))
  | .toFloat, [.value v] => do return .answer (.float (← Host.toFloat v site))
  | .binary, [.int code, .value l, .value r] =>
    match Operator.ofCode? code.toInt with
    | some op => answerValue (Host.operate op l r site)
    | none => fault .unknownOperator
  | .contains, [.value c, .value i] => answerValue (Host.contains c i site)
  | .indexGet, [.value c, .value i] => answerValue (Host.indexGet c i site)
  | .indexSet, [.value c, .value i, .value v] => answerVoid (Host.indexSet c i v site)
  | .slice, [.value c, .value a, .value b] => answerValue (Host.slice c a b site)
  | .length, [.value v] => do return .answer (.int (Int64.ofNat (← Host.length v site)))
  | .dictKeys, [.value v] => answerValue (Host.dictKeys v site)
  | .memberGet, [.value t, name, .int inside] => do
    let name ← sound (text name)
    answerValue (Host.memberGet t name (inside != 0) site)
  | .memberSet, [.value t, name, .value v, .int inside] => do
    let name ← sound (text name)
    answerVoid (Host.memberSet t name v (inside != 0) site)
  | .callMethod, [.value t, name, .ptr p, .int count, .int inside] => do
    let name ← sound (text name)
    let arguments ← valuesAt p count
    let m ← Host.methodFor t name arguments.length (inside != 0) site
    return .invoke m t arguments
  | .instantiate, [.value c, .ptr p, .int count] => do
    let arguments ← valuesAt p count
    return .construct (← Host.begin c arguments site)
  | .raise, [.value v] => Host.raise v site
  | .builtin b, [.ptr p, .int count] => do
    let arguments ← valuesAt p count
    answerValue (Host.builtin b arguments site)
  | _, _ => fault .badCall

/-- A call of an entry point that reports no place. -/
def callPlain (image : Image) (e : Ir.EntryPoint) (arguments : List Scalar) : Act Effect :=
  match e, arguments with
  | .gcInit, [] => return .answer .void
  | .setStackBottom, [.ptr (.word depth)] =>
    answerVoid (Host.onStack fun s => { s with bottom := depth })
  | .pushRoot, [.ptr p] => do
    let slot ← sound (slotAt p)
    answerVoid (Host.pushRoot slot)
  | .popRoots, [.int count] => answerVoid (Host.popRoots (countOf count))
  | .setArgs, [.int count, .ptr .arguments] =>
    if count = Int64.ofNat image.arguments.length then
      answerVoid (modify fun h => { h with arguments := image.arguments })
    else fault .badCall
  | .int, [.int n] => return .answer (.value (.int n))
  | .float, [.float x] => return .answer (.value (.float x))
  | .bool, [.int n] => return .answer (.value (.bool (n != 0)))
  | .null, [] => return .answer (.value .null)
  | .string, [t] => do
    let s ← sound (textAt image t)
    answerValue (Host.string s)
  | .truthy, [.value v] => do
    return .answer (.ofBool (← inspect fun heap => Host.truthy heap v))
  | .arrayNew, [.ptr p, .int count] => do
    let elements ← valuesAt p count
    answerValue (Host.newArray elements.toArray)
  | .dictNew, [] => answerValue Host.newDict
  | .classNew, [t] => do
    let name ← sound (textAt image t)
    answerValue (Host.newClass name)
  | .classAddField, [.value c, t, .ptr (.function symbol), .int hidden] => do
    let name ← sound (textAt image t)
    answerVoid (Host.addField c ⟨name, symbol, hidden != 0⟩)
  | .classAddMethod, [.value c, t, .ptr (.function symbol), .int arity, .int hidden] => do
    let name ← sound (textAt image t)
    answerVoid (Host.addMethod c ⟨name, symbol, countOf arity, hidden != 0⟩)
  | .tryPush, [] => do
    Host.tryPush
    return .answer (.ptr (.checkpoint (← get).tryDepth))
  | .tryPop, [] => do
    Host.tryPop
    return .closed
  | .currentException, [] => do return .answer (.value (← get).currentException)
  | _, _ => fault .badCall

/-- Whether arguments agree with the parameters of an entry point, in number and in type. -/
def accepts (e : Ir.EntryPoint) (arguments : List Scalar) : Bool :=
  arguments.length == e.parameters.length &&
    (arguments.zip e.parameters).all fun p => p.1.hasType p.2

/-- The effect of an entry point, whose answer must have the declared type. -/
def answered (e : Ir.EntryPoint) : Effect → Act Effect
  | .answer s => if s.hasType e.result then return .answer s else fault .resultMismatch
  | effect => return effect

/-- What an entry point does. Where it reports its place, that is in the last two arguments. -/
def callBody (image : Image) (e : Ir.EntryPoint) (arguments : List Scalar) : Act Effect :=
  if e.reportsSite then
    match arguments.reverse with
    | file :: .int line :: own => do
      let site ← sound (siteAt image line file)
      callSited e own.reverse (textAt image) site
    | _ => fault .badCall
  else callPlain image e arguments

def callEntry (image : Image) (e : Ir.EntryPoint) (arguments : List Scalar) : Act Effect := do
  if accepts e arguments then
    answered e (← callBody image e arguments)
  else fault .badCall

end Ember.Machine
