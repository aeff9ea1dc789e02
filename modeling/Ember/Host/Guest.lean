import Ember.Host.Builtins
import Ember.Host.Class

/-!
# Ember — guests

A guest is code outside the compiled program that uses a host and has a state of its own. It supplies
the code of class members by symbol, and it can protect itself against raises.

* `Guest`       — actions of a guest.
* `frame`       — with values on the machine stack.
* `tryCatch`    — with a handler for what is raised.
* `callMethod`, `instantiate` — with the code of members.
-/

namespace Ember

abbrev Guest (σ : Type) := EStateM Interrupt (Host × σ)

namespace Guest

variable {σ α : Type}

def act (x : Act α) : Guest σ α := fun (h, s) =>
  match x h with
  | .ok a h => .ok a (h, s)
  | .error e h => .error e (h, s)

/-- Cuts the machine stack to a depth, however an action ends. -/
def cutting (depth : Nat) (x : Guest σ α) : Guest σ α := fun p =>
  let cut (p : Host × σ) : Host × σ := ({ p.1 with stack := p.1.stack.truncate depth }, p.2)
  match x p with
  | .ok a p => .ok a (cut p)
  | .error e p => .error e (cut p)

/-- Runs an action with values on the machine stack. -/
def frame (values : List Value) (x : Guest σ α) : Guest σ α := do
  let depth := (← get).1.stack.depth
  cutting depth do
    act (Host.onStack fun s => s.pushValues values)
    x

/-- Runs an action under a checkpoint. What it raises goes to the handler, behind the mark of the
place. -/
def tryCatch (site : Location) (body : Guest σ α) (handler : Value → Guest σ α) : Guest σ α :=
  fun p =>
    match (do act Host.tryPush; body) p with
    | .ok a p => (do act Host.tryPop; return a) p
    | .error (.raise v) p => (do handler (← act (Host.caught v site))) p
    | .error e p => .error e p

/-- The code of class members. -/
structure Code (σ : Type) where
  initializer : (symbol : String) → (receiver : Value) → Guest σ Value
  method : (symbol : String) → (receiver : Value) → (arguments : List Value) → Guest σ Value

def invoke (code : Code σ) (m : Method) (target : Value) (arguments : List Value) :
    Guest σ Value :=
  frame (target :: arguments) (code.method m.code target arguments)

def callMethod (code : Code σ) (target : Value) (name : String) (arguments : List Value)
    (inside : Bool) (site : Location) : Guest σ Value := do
  let m ← act (Host.methodFor target name arguments.length inside site)
  invoke code m target arguments

def runInitializers (code : Code σ) (c : Host.Construction) : List Field → Guest σ Unit
  | [] => return ()
  | f :: rest => do
    let v ← code.initializer f.initializer c.receiver
    act (Host.assign c f v)
    runInitializers code c rest

/-- Makes an instance: all initializers, then the method `init` if there is one. -/
def instantiate (code : Code σ) (cls : Value) (arguments : List Value) (site : Location) :
    Guest σ Value := do
  let c ← act (Host.begin cls arguments site)
  cutting c.depth do
    runInitializers code c c.remaining
    if let some m ← act (Host.conclude c) then
      let _ ← invoke code m c.receiver c.arguments
    return c.receiver

end Guest

end Ember
