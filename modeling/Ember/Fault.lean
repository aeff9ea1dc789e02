/-!
# Ember — faults

A fault is a broken promise between two parts of the system: an operation was used outside the
conditions it relies on. Faults are not errors of the source program. They are kept apart from
diagnostics (which reject a program) and from exceptions (which a program may catch), so that
"this never happens" can be stated about each of them.
-/

namespace Ember

/-- The ways in which an operation can be used outside its conditions. -/
inductive Fault
  /-- The heap was read at an address where no object lives. -/
  | dangling (address : Nat)
  /-- The object at an address is not of the kind that the reader asked for. -/
  | wrongKind (address : Nat)
  /-- Arithmetic on sizes or addresses left the 64-bit range. -/
  | overflow
  /-- A position lies outside the table, stack or buffer that it indexes. -/
  | outOfRange (position : Nat)
  /-- Rendering went deeper than the number of objects allows. -/
  | tooDeep
  /-- A scope was closed while only the global one was open. -/
  | noOpenScope
  /-- A member was added to a class that was never registered. -/
  | unknownClass (name : String)
  /-- An instruction was added to a block that already ended. -/
  | blockEnded
  /-- A block was ended by an instruction that does not end blocks. -/
  | notATerminator
  /-- A call was expected to yield a result and does not, or the other way round. -/
  | resultMismatch
  /-- A protected region was closed while none was open. -/
  | noOpenTry
  /-- A register was read before it was written. -/
  | undefinedRegister (register : Nat)
  /-- An operand is not of the kind that its use requires. -/
  | operandKind
  /-- A call of an entry point does not fit the declaration of that entry point. -/
  | badCall
  /-- An operator code denotes no operator. -/
  | unknownOperator
  /-- A function was called that the module does not define. -/
  | unknownFunction (symbol : String)
  /-- A global was used that the module does not define. -/
  | unknownGlobal (symbol : String)
  /-- A function was called with a number of arguments other than that of its parameters. -/
  | argumentCount
  /-- Control reached an instruction that marks unreachable code. -/
  | unreachable
deriving DecidableEq, Inhabited

/-- Storage for so many items of a size in bytes has to lie below half the address space. -/
def checkStorage (count size : Nat) : Except Fault Unit :=
  if count * size < 0x8000000000000000 then .ok () else .error .overflow

end Ember
