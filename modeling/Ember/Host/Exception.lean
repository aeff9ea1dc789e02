import Ember.Host.Allocation

/-!
# Ember — exceptions

A raise takes the innermost checkpoint, restores the two stacks to the depths that it recorded, and
travels as an interrupt to the code that opened it. Without a checkpoint it ends the program.

* `raise`   — raises a value.
* `failure` — raises a message with its place.
-/

namespace Ember.Host

def tryPush : Act Unit :=
  modify fun h => { h with checkpoints := ⟨h.roots.depth, h.stack.depth⟩ :: h.checkpoints }

def tryPop : Act Unit :=
  modify fun h => { h with checkpoints := h.checkpoints.tail }

def raise {α : Type} (v : Value) (site : Location) : Act α := do
  match (← get).checkpoints with
  | c :: rest =>
    modify fun h =>
      { h with
        checkpoints := rest
        roots := h.roots.truncate c.roots
        stack := h.stack.truncate c.stack
        exception := some v }
    throw (.raise v)
  | [] => fatal (.uncaught site.text (← display v))

def failure {α : Type} (site : Location) (message : String) : Act α := do
  raise (← string (site.text ++ ": " ++ message)) site

end Ember.Host
