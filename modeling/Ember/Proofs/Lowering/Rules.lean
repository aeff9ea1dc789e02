import Mathlib
import Ember.Ir.EntryPoint
import Ember.Program.Basic

/-!
# Ember — the static rules

Which programs are accepted, said of the program tree alone. A name is used where a declaration of it
is in scope and stands before, no scope declares a name twice, calls have as many arguments as their
callees take, and some statements stand only in their places. The value of a `return` outside every
definition is never looked at.

Main result: `Program.Accepted`.
-/

namespace Ember

open Ir (Builtin MathOp)

/-- Neither the name of a builtin nor that of a mathematical operation. -/
def Unreserved (name : String) : Prop :=
  (∀ b : Builtin, b.name ≠ name) ∧ ∀ op : MathOp, op.name ≠ name

/-- What stands around a place of a program. -/
structure Surroundings where
  /-- The functions of the program and the numbers of their parameters. -/
  functions : List (String × Nat)
  /-- The classes of the program and the numbers of arguments that make an instance. -/
  classes : List (String × Nat)
  /-- The variables outside every scope that are declared before, the latest one first. -/
  globals : List String := []
  /-- The variables of each enclosing scope that are declared before, innermost scope first. -/
  locals : List (List String) := []
  /-- Inside a function, a method or a field initializer. -/
  inDefinition : Bool := false
  /-- Inside a method or a field initializer. -/
  hasReceiver : Bool := false
  /-- Inside a loop of the same function. -/
  inLoop : Bool := false

namespace Surroundings

variable (Γ : Surroundings)

/-- A variable of this name is in scope and declared before. -/
def Sees (name : String) : Prop :=
  (∃ names ∈ Γ.locals, name ∈ names) ∨ name ∈ Γ.globals

/-- The variable of this name is one outside every scope. -/
def SeesGlobal (name : String) : Prop :=
  (∀ names ∈ Γ.locals, name ∉ names) ∧ name ∈ Γ.globals

/-- Outside every definition and every scope. -/
def AtTop : Prop :=
  Γ.inDefinition = false ∧ Γ.locals = []

/-- A call of this name with so many arguments. -/
def Calls (name : String) (supplied : Nat) : Prop :=
  (∃ op : MathOp, op.name = name ∧ supplied = 1) ∨
    (∃ b : Builtin, b.name = name ∧ ∀ arity, b.arity? = some arity → supplied = arity) ∨
    (name, supplied) ∈ Γ.functions

/-- The making of an instance with so many arguments, if the name is that of a class. -/
def Constructs (name : String) (supplied : Nat) : Prop :=
  Γ.SeesGlobal name → ∀ arity, (name, arity) ∈ Γ.classes → supplied = arity

/-- Behind a declaration. -/
def declare (name : String) : Surroundings :=
  match Γ.locals with
  | [] => { Γ with globals := name :: Γ.globals }
  | names :: rest => { Γ with locals := (name :: names) :: rest }

/-- Behind several declarations. -/
def declareAll (names : List String) : Surroundings :=
  names.foldl declare Γ

/-- Inside a scope. -/
def enter : Surroundings :=
  { Γ with locals := [] :: Γ.locals }

/-- Inside a loop. -/
def loop : Surroundings :=
  { Γ with inLoop := true }

/-- Inside a definition, which has a scope of its own. -/
def define (hasReceiver : Bool) : Surroundings :=
  { Γ with locals := [[]], inDefinition := true, hasReceiver, inLoop := false }

end Surroundings

/-! ## Expressions -/

mutual

/-- Expressions that keep the rules. -/
def Expr.Valid (Γ : Surroundings) : Expr → Prop
  | .literal _ _ => True
  | .ident _ name => Γ.Sees name
  | .this _ => Γ.hasReceiver = true
  | .array _ elements => Expr.ValidAll Γ elements
  | .dict _ entries => Expr.ValidEntries Γ entries
  | .binary _ _ lhs rhs => lhs.Valid Γ ∧ rhs.Valid Γ
  | .unary _ _ operand => operand.Valid Γ
  | .index _ target position => target.Valid Γ ∧ position.Valid Γ
  | .slice _ target start stop =>
    target.Valid Γ ∧ Expr.ValidOption Γ start ∧ Expr.ValidOption Γ stop
  | .member _ target _ => target.Valid Γ
  | .call _ name arguments => Γ.Calls name arguments.length ∧ Expr.ValidAll Γ arguments
  | .methodCall _ target _ arguments => target.Valid Γ ∧ Expr.ValidAll Γ arguments
  | .construct _ cls arguments =>
    (∀ loc name, cls = .ident loc name → Γ.Constructs name arguments.length) ∧
      cls.Valid Γ ∧ Expr.ValidAll Γ arguments

/-- Several expressions that keep the rules. -/
def Expr.ValidAll (Γ : Surroundings) : List Expr → Prop
  | [] => True
  | e :: rest => e.Valid Γ ∧ Expr.ValidAll Γ rest

/-- Entries of a dict that keep the rules. -/
def Expr.ValidEntries (Γ : Surroundings) : List (Expr × Expr) → Prop
  | [] => True
  | (key, value) :: rest => key.Valid Γ ∧ value.Valid Γ ∧ Expr.ValidEntries Γ rest

/-- An expression that may be absent. -/
def Expr.ValidOption (Γ : Surroundings) : Option Expr → Prop
  | none => True
  | some e => e.Valid Γ

end

/-- What can be assigned to: variables, elements and members. -/
def Expr.ValidTarget (Γ : Surroundings) : Expr → Prop
  | .ident _ name => Γ.Sees name
  | .index _ container position => container.Valid Γ ∧ position.Valid Γ
  | .member _ object _ => object.Valid Γ
  | _ => False

/-! ## Statements -/

/-- The variable that a statement declares in its scope. -/
def Stmt.declared? : Stmt → Option String
  | .var _ name _ => some name
  | .classDef _ c => some c.name
  | _ => none

/-- The variables that statements declare in their scope. -/
def Stmt.declared (body : List Stmt) : List String :=
  body.filterMap Stmt.declared?

mutual

/-- Statements that keep the rules. No scope declares a name twice: parameters belong to the scope of
the body, the name of a caught exception to that of its handler, and the names of a walk over a
container to a scope of their own. -/
def Stmt.Valid (Γ : Surroundings) : Stmt → Prop
  | .var _ _ init => Expr.ValidOption Γ init
  | .assign _ target value => target.ValidTarget Γ ∧ value.Valid Γ
  | .expr _ e => e.Valid Γ
  | .block _ body => (Stmt.declared body).Nodup ∧ Stmt.ValidAll Γ.enter body
  | .branch _ condition positive negative =>
    condition.Valid Γ ∧ ((Stmt.declared positive).Nodup ∧ Stmt.ValidAll Γ.enter positive) ∧
      (Stmt.declared negative).Nodup ∧ Stmt.ValidAll Γ.enter negative
  | .loop _ condition body =>
    condition.Valid Γ ∧ (Stmt.declared body).Nodup ∧ Stmt.ValidAll Γ.loop.enter body
  | .range _ name start stop body =>
    (start.Valid Γ ∧ stop.Valid Γ) ∧ (Stmt.declared body).Nodup ∧
      Stmt.ValidAll (Γ.enter.declare name).loop.enter body
  | .each _ key value iterable body =>
    iterable.Valid Γ ∧ (key.toList ++ [value]).Nodup ∧ (Stmt.declared body).Nodup ∧
      Stmt.ValidAll (Γ.enter.declareAll (key.toList ++ [value])).loop.enter body
  | .leave _ => Γ.inLoop = true
  | .next _ => Γ.inLoop = true
  | .ret _ value => Γ.inDefinition = true → Expr.ValidOption Γ value
  | .guarded _ body name handler =>
    ((Stmt.declared body).Nodup ∧ Stmt.ValidAll Γ.enter body) ∧
      (name :: Stmt.declared handler).Nodup ∧ Stmt.ValidAll (Γ.enter.declare name) handler
  | .raise _ value => value.Valid Γ
  | .assert _ condition message => condition.Valid Γ ∧ Expr.ValidOption Γ message
  | .function _ f =>
    Γ.AtTop ∧ (f.params ++ Stmt.declared f.body).Nodup ∧
      Stmt.ValidAll ((Γ.define false).declareAll f.params) f.body
  | .classDef _ c =>
    Γ.AtTop ∧ (∀ f ∈ c.fields, Expr.ValidOption ((Γ.declare c.name).define true) f.init) ∧
      Stmt.ValidMethods (Γ.declare c.name) c.methods

/-- Statements that keep the rules, each behind the declarations before it. -/
def Stmt.ValidAll (Γ : Surroundings) : List Stmt → Prop
  | [] => True
  | st :: rest => st.Valid Γ ∧ Stmt.ValidAll (Γ.declareAll st.declared?.toList) rest

/-- Methods that keep the rules. -/
def Stmt.ValidMethods (Γ : Surroundings) : List (FunctionDef (List Stmt)) → Prop
  | [] => True
  | f :: rest => ((f.params ++ Stmt.declared f.body).Nodup ∧
      Stmt.ValidAll ((Γ.define true).declareAll f.params) f.body) ∧ Stmt.ValidMethods Γ rest

end

/-! ## Programs -/

/-- The number of arguments that make an instance: those of the method `init`. -/
def ClassDef.initArity (c : ClassDef (List Stmt)) : Nat :=
  match c.methods.find? fun f => f.name == "init" with
  | some f => f.params.length
  | none => 0

namespace Program

/-- The functions of a program. -/
def functions (p : Program) : List (FunctionDef (List Stmt)) :=
  p.filterMap fun
    | .function _ f => some f
    | _ => none

/-- The classes of a program. -/
def classes (p : Program) : List (ClassDef (List Stmt)) :=
  p.filterMap fun
    | .classDef _ c => some c
    | _ => none

/-- What stands around the first statement of a program. Calls may stand before definitions. -/
def surroundings (p : Program) : Surroundings where
  functions := p.functions.map fun f => (f.name, f.params.length)
  classes := p.classes.map fun c => (c.name, c.initArity)

/-- Programs that keep the rules. -/
structure Accepted (p : Program) : Prop where
  unreserved : ∀ f ∈ p.functions, Unreserved f.name
  /-- Functions, classes and the variables outside every scope have names of their own. -/
  distinct : (p.functions.map (·.name) ++ Stmt.declared p).Nodup
  /-- So have the members of a class. -/
  members : ∀ c ∈ p.classes, (c.fields.map (·.name) ++ c.methods.map (·.name)).Nodup
  body : Stmt.ValidAll p.surroundings p

end Program

end Ember
