import Ember.Machine.Step

/-!
# Ember — runs

A program is started by entering `main` with the number of its arguments and the argument vector. A
run is bounded by a number of steps.

* `start`  — a machine at the first instruction of `main`.
* `runFor` — at most so many steps.
-/

namespace Ember.Machine

def runFor (image : Image) : Nat → Machine → Progress
  | 0, m => .running m
  | n + 1, m =>
    match step image m with
    | .running m => runFor image n m
    | p => p

def start (m : Ir.Module) (arguments : List String) (host : Host) :
    Except Fault Image × Progress :=
  match Image.load m arguments host with
  | .ok image host =>
    (.ok image, enter image "main"
      [.int (Int64.ofNat arguments.length), .ptr .arguments] host [] [])
  | .error e host => (.error .unreachable, failed host e)

def run (fuel : Nat) (m : Ir.Module) (arguments : List String) (host : Host) : Progress :=
  match start m arguments host with
  | (.ok image, .running machine) => runFor image fuel machine
  | (_, p) => p

end Ember.Machine
