import Ember.Program.Basic

/-!
# Ember — the nodes of a program in reading order

`nodes` lists every node of a program, each before its parts and the parts from left to right. What
can be said of a program node by node is said with this list.

* `Expr.subterms`    — an expression and everything in it.
* `Stmt.nodes`       — a statement and everything in it.
* `Program.literals` — the constants in reading order.
-/

namespace Ember

mutual

def Expr.subterms : Expr → List Expr
  | e@(.literal _ _) => [e]
  | e@(.ident _ _) => [e]
  | e@(.this _) => [e]
  | e@(.array _ elements) => e :: Expr.subtermsAll elements
  | e@(.dict _ entries) => e :: Expr.subtermsEntries entries
  | e@(.binary _ _ lhs rhs) => e :: (lhs.subterms ++ rhs.subterms)
  | e@(.unary _ _ operand) => e :: operand.subterms
  | e@(.index _ target position) => e :: (target.subterms ++ position.subterms)
  | e@(.slice _ target start stop) =>
    e :: (target.subterms ++ Expr.subtermsOption start ++ Expr.subtermsOption stop)
  | e@(.member _ target _) => e :: target.subterms
  | e@(.call _ _ arguments) => e :: Expr.subtermsAll arguments
  | e@(.methodCall _ target _ arguments) => e :: (target.subterms ++ Expr.subtermsAll arguments)
  | e@(.construct _ cls arguments) => e :: (cls.subterms ++ Expr.subtermsAll arguments)

def Expr.subtermsAll : List Expr → List Expr
  | [] => []
  | e :: rest => e.subterms ++ Expr.subtermsAll rest

/-- The subterms of the entries of a dict, each key before its value. -/
def Expr.subtermsEntries : List (Expr × Expr) → List Expr
  | [] => []
  | (k, v) :: rest => k.subterms ++ v.subterms ++ Expr.subtermsEntries rest

/-- The subterms of an expression that may be absent. -/
def Expr.subtermsOption : Option Expr → List Expr
  | none => []
  | some e => e.subterms

end

/-- The nodes of a program. -/
inductive Node
  | stmt (s : Stmt)
  | function (f : FunctionDef (List Stmt))
  | classDef (c : ClassDef (List Stmt))
  | field (f : FieldDef)
  | expr (e : Expr)

def Expr.nodes (e : Expr) : List Node :=
  e.subterms.map .expr

def Expr.nodesOption (e : Option Expr) : List Node :=
  (Expr.subtermsOption e).map .expr

def FieldDef.nodes (f : FieldDef) : List Node :=
  .field f :: Expr.nodesOption f.init

mutual

def Stmt.nodes : Stmt → List Node
  | s@(.var _ _ init) => .stmt s :: Expr.nodesOption init
  | s@(.assign _ target value) => .stmt s :: (target.nodes ++ value.nodes)
  | s@(.expr _ e) => .stmt s :: e.nodes
  | s@(.block _ body) => .stmt s :: Stmt.nodesAll body
  | s@(.branch _ condition positive negative) =>
    .stmt s :: (condition.nodes ++ Stmt.nodesAll positive ++ Stmt.nodesAll negative)
  | s@(.loop _ condition body) => .stmt s :: (condition.nodes ++ Stmt.nodesAll body)
  | s@(.range _ _ start stop body) =>
    .stmt s :: (start.nodes ++ stop.nodes ++ Stmt.nodesAll body)
  | s@(.each _ _ _ iterable body) => .stmt s :: (iterable.nodes ++ Stmt.nodesAll body)
  | s@(.leave _) => [.stmt s]
  | s@(.next _) => [.stmt s]
  | s@(.ret _ value) => .stmt s :: Expr.nodesOption value
  | s@(.guarded _ body _ handler) => .stmt s :: (Stmt.nodesAll body ++ Stmt.nodesAll handler)
  | s@(.raise _ value) => .stmt s :: value.nodes
  | s@(.assert _ condition message) =>
    .stmt s :: (condition.nodes ++ Expr.nodesOption message)
  | s@(.function _ f) => .stmt s :: .function f :: Stmt.nodesAll f.body
  | s@(.classDef _ c) =>
    .stmt s :: .classDef c :: (c.fields.flatMap FieldDef.nodes ++ Stmt.nodesMethods c.methods)

def Stmt.nodesAll : List Stmt → List Node
  | [] => []
  | s :: rest => s.nodes ++ Stmt.nodesAll rest

def Stmt.nodesMethods : List (FunctionDef (List Stmt)) → List Node
  | [] => []
  | f :: rest => .function f :: (Stmt.nodesAll f.body ++ Stmt.nodesMethods rest)

end

def Program.nodes (p : Program) : List Node :=
  Stmt.nodesAll p

def Expr.literal? : Expr → Option Literal
  | .literal _ l => some l
  | _ => none

def Program.literals (p : Program) : List Literal :=
  p.nodes.filterMap fun
    | .expr e => e.literal?
    | _ => none

end Ember
