import Ember.Value
import Ember.Fault
import Ember.Location

/-!
# Ember — settings of a host, and how its actions end early

* `Config`     — limits of the collector and the memory.
* `FatalError` — conditions that end the program.
* `Interrupt`  — everything that can end an action early.
-/

namespace Ember

/-- The settings of a host. -/
structure Config where
  /-- Live objects before the first collection. -/
  initialThreshold : Nat := 256
  /-- The least value of the adapted threshold. -/
  minThreshold : Nat := 64
  rootCapacity : Nat := 1024
  /-- No more live bytes than this. -/
  memoryLimit : Nat := 256 * 1024 * 1024
  /-- The number of buckets of every dict. -/
  dictBuckets : Nat := 16
deriving DecidableEq

/-- Why reading or writing failed. -/
inductive IoFailure
  | sinkClosed | flushFailed | invalidUtf8
deriving DecidableEq

def IoFailure.message : IoFailure → String
  | .sinkClosed => "sink closed"
  | .flushFailed => "flush failed"
  | .invalidUtf8 => "stream did not contain valid UTF-8"

/-- Conditions that end the program. -/
inductive FatalError
  | outOfMemory (requested live limit : Nat)
  | rootOverflow (capacity : Nat)
  | rootUnderflow (count depth : Nat)
  | uncaught (site message : String)
  | console (reason : IoFailure)
deriving DecidableEq

def FatalError.message : FatalError → String
  | .outOfMemory requested live limit =>
    "out of memory: " ++ toString requested ++ " bytes requested with " ++ toString live ++
      " bytes live (limit " ++ toString limit ++ ")"
  | .rootOverflow capacity => "root stack overflow (" ++ toString capacity ++ " slots)"
  | .rootUnderflow count depth =>
    "root stack underflow: popping " ++ toString count ++ " of " ++ toString depth ++ " roots"
  | .uncaught site message => "uncaught exception at " ++ site ++ ": " ++ message
  | .console reason => "i/o error: " ++ reason.message

/-- What ends an action early. -/
inductive Interrupt
  /-- An exception on its way to the innermost checkpoint. -/
  | raise (v : Value)
  | fatal (e : FatalError)
  | fault (f : Fault)
deriving DecidableEq, Inhabited

end Ember
