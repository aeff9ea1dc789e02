import Ember.Number.Double

/-!
# Ember — the interface of the support library

Compiled code is a thin layer over a library of entry points. This module names them, and says what
each takes and returns. An entry point that can raise an exception takes the calling line and file
as its last two arguments.
-/

namespace Ember.Ir

/-- The types of registers, arguments and results. -/
inductive Ty
  /-- A tagged value: tag and payload. -/
  | value
  | i1 | i32 | i64 | f64
  | ptr
  | void
deriving DecidableEq, Inhabited

def Ty.text : Ty → String
  | .value => "%Value"
  | .i1 => "i1"
  | .i32 => "i32"
  | .i64 => "i64"
  | .f64 => "double"
  | .ptr => "ptr"
  | .void => "void"

def Ty.all : List Ty :=
  [.value, .i1, .i32, .i64, .f64, .ptr, .void]

def Ty.ofText? (s : String) : Option Ty :=
  Ty.all.find? fun t => t.text == s

/-! ## Builtin functions -/

/-- Functions that every program can call by name. -/
inductive Builtin
  | print | len | str | int | float | type | keys | append | hasKey | input | args
deriving DecidableEq

namespace Builtin

def all : List Builtin :=
  [print, len, str, int, float, type, keys, append, hasKey, input, args]

def name : Builtin → String
  | print => "print"
  | len => "len"
  | str => "str"
  | int => "int"
  | float => "float"
  | type => "type"
  | keys => "keys"
  | append => "append"
  | hasKey => "has_key"
  | input => "input"
  | args => "args"

def arity? : Builtin → Option Nat
  | print => none
  | len | str | int | float | type | keys => some 1
  | append | hasKey => some 2
  | input | args => some 0

def ofName? (name : String) : Option Builtin :=
  all.find? fun b => b.name == name

end Builtin

/-! ## Entry points -/

/-- The entry points of the library. -/
inductive EntryPoint
  | gcInit | setStackBottom | pushRoot | popRoots | setArgs
  | int | float | bool | null | string
  | toInt | toFloat | truthy | binary | contains
  | arrayNew | dictNew | indexGet | indexSet | slice | length | dictKeys
  | memberGet | memberSet | callMethod
  | classNew | classAddField | classAddMethod | instantiate
  | tryPush | tryPop | currentException | raise
  | builtin (b : Builtin)
deriving DecidableEq

namespace EntryPoint

/-- All entry points, in the order in which they are declared. -/
def all : List EntryPoint :=
  [gcInit, setStackBottom, pushRoot, popRoots, setArgs, int, float, bool, null, string, toInt,
   toFloat, truthy, binary, contains, arrayNew, dictNew, indexGet, indexSet, slice, length,
   dictKeys, memberGet, memberSet, callMethod, classNew, classAddField, classAddMethod,
   instantiate, tryPush, tryPop, currentException, raise] ++ Builtin.all.map builtin

def symbol : EntryPoint → String
  | gcInit => "ember_gc_init"
  | setStackBottom => "ember_gc_set_stack_bottom"
  | pushRoot => "ember_gc_push_root"
  | popRoots => "ember_gc_pop_roots"
  | setArgs => "ember_set_args"
  | int => "ember_int"
  | float => "ember_float"
  | bool => "ember_bool"
  | null => "ember_null"
  | string => "ember_string"
  | toInt => "ember_to_int"
  | toFloat => "ember_to_float"
  | truthy => "ember_truthy"
  | binary => "ember_binary_op"
  | contains => "ember_contains"
  | arrayNew => "ember_array_new"
  | dictNew => "ember_dict_new"
  | indexGet => "ember_index_get"
  | indexSet => "ember_index_set"
  | slice => "ember_slice"
  | length => "ember_length"
  | dictKeys => "ember_dict_keys"
  | memberGet => "ember_member_get"
  | memberSet => "ember_member_set"
  | callMethod => "ember_call_method"
  | classNew => "ember_class_new"
  | classAddField => "ember_class_add_field"
  | classAddMethod => "ember_class_add_method"
  | instantiate => "ember_instantiate"
  | tryPush => "ember_try_push"
  | tryPop => "ember_try_pop"
  | currentException => "ember_current_exception"
  | raise => "ember_raise"
  | builtin b => "ember_builtin_" ++ b.name

def ofSymbol? (s : String) : Option EntryPoint :=
  all.find? fun e => e.symbol == s

def result : EntryPoint → Ty
  | gcInit | setStackBottom | pushRoot | popRoots | setArgs | indexSet | memberSet
  | classAddField | classAddMethod | tryPop | raise => .void
  | toInt | length => .i64
  | toFloat => .f64
  | truthy => .i1
  | tryPush => .ptr
  | _ => .value

/-- Whether a call passes the line and the file that it stands in. -/
def reportsSite : EntryPoint → Bool
  | toInt | toFloat | length | dictKeys | binary | contains | indexGet | indexSet | slice
  | memberGet | memberSet | callMethod | instantiate | raise | builtin _ => true
  | _ => false

def ownParameters : EntryPoint → List Ty
  | gcInit | null | dictNew | tryPush | tryPop | currentException => []
  | setStackBottom | pushRoot | string | classNew => [.ptr]
  | popRoots => [.i32]
  | setArgs => [.i32, .ptr]
  | int => [.i64]
  | float => [.f64]
  | bool => [.i1]
  | truthy | length | dictKeys | toInt | toFloat | raise => [.value]
  | binary => [.i32, .value, .value]
  | contains | indexGet => [.value, .value]
  | indexSet | slice => [.value, .value, .value]
  | arrayNew => [.ptr, .i32]
  | memberGet => [.value, .ptr, .i1]
  | memberSet => [.value, .ptr, .value, .i1]
  | callMethod => [.value, .ptr, .ptr, .i32, .i1]
  | classAddField => [.value, .ptr, .ptr, .i1]
  | classAddMethod => [.value, .ptr, .ptr, .i32, .i1]
  | instantiate => [.value, .ptr, .i32]
  | builtin _ => [.ptr, .i32]

def parameters (e : EntryPoint) : List Ty :=
  e.ownParameters ++ if e.reportsSite then [.i32, .ptr] else []

def isNoReturn (e : EntryPoint) : Bool :=
  e = raise

end EntryPoint

/-! ## Native operations -/

/-- Operations on doubles that need no call of the library. -/
inductive MathOp
  | sqrt | sin | cos | exp | log | floor | ceil | abs
deriving DecidableEq

namespace MathOp

def all : List MathOp :=
  [sqrt, sin, cos, exp, log, floor, ceil, abs]

def name : MathOp → String
  | sqrt => "sqrt"
  | sin => "sin"
  | cos => "cos"
  | exp => "exp"
  | log => "log"
  | floor => "floor"
  | ceil => "ceil"
  | abs => "abs"

def ofName? (name : String) : Option MathOp :=
  all.find? fun op => op.name == name

def apply : MathOp → Number.Double → Number.Double
  | sqrt => Number.Double.lift Float.sqrt
  | sin => Number.Double.lift Float.sin
  | cos => Number.Double.lift Float.cos
  | exp => Number.Double.lift Float.exp
  | log => Number.Double.lift Float.log
  | floor => Number.Double.lift Float.floor
  | ceil => Number.Double.lift Float.ceil
  | abs => Number.Double.abs

end MathOp

/-- Functions that the target provides itself. -/
inductive Intrinsic
  | math (op : MathOp)
  /-- Records a resume point; a raise makes it return a second time. -/
  | setjmp
deriving DecidableEq

namespace Intrinsic

/-- All intrinsics, in the order in which they are declared. -/
def all : List Intrinsic :=
  MathOp.all.map math ++ [setjmp]

def symbol : Intrinsic → String
  | math .abs => "llvm.fabs.f64"
  | math op => "llvm." ++ op.name ++ ".f64"
  | setjmp => "_setjmp"

def ofSymbol? (s : String) : Option Intrinsic :=
  all.find? fun i => i.symbol == s

def result : Intrinsic → Ty
  | math _ => .f64
  | setjmp => .i32

def parameters : Intrinsic → List Ty
  | math _ => [.f64]
  | setjmp => [.ptr]

end Intrinsic

end Ember.Ir
