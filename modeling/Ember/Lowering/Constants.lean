import Ember.Program.Nodes
import Ember.Pool

/-!
# Ember — the constants of a program

Compiled code mentions texts by their number in the pool: literals, names of members and classes,
fixed messages, and the file of every node. All of them are pooled before any code is emitted.

* `Program.constants` — the texts in reading order, with repetitions.
* `Program.pool`      — the pool made of them.
-/

namespace Ember

/-- The message of an assertion that has none of its own. -/
def assertionMessage : String :=
  "assertion failed"

/-- The message of a walk over something that has no elements. -/
def eachMessage : String :=
  "foreach expects an array or a dict"

/-- The texts that the code of a statement mentions beside its file. -/
def Stmt.ownConstants : Stmt → List String
  | .guarded loc _ _ _ => [loc.catchMark]
  | .assert _ _ none => [assertionMessage]
  | .each _ _ _ _ _ => [eachMessage]
  | _ => []

/-- The texts that the code of an expression mentions beside its file. -/
def Expr.ownConstants : Expr → List String
  | .member _ _ name => [name]
  | .methodCall _ _ name _ => [name]
  | .literal _ (.str s) => [s]
  | _ => []

def Node.constants : Node → List String
  | .stmt s => s.loc.file :: s.ownConstants
  | .function f => [f.loc.file, f.name]
  | .classDef c => [c.loc.file, c.name]
  | .field f => [f.loc.file, f.name]
  | .expr e => e.loc.file :: e.ownConstants

def Program.constants (p : Program) : List String :=
  p.nodes.flatMap Node.constants

def Program.pool (p : Program) : Pool :=
  Pool.internAll {} p.constants

end Ember
