import Ember.Location
import Ember.Number.Double
import Ember.Operator

/-!
# Ember — program trees

A program is a list of statements. Definitions of functions and classes are statements too and stand
in source order among the others. Every node carries its location.
-/

namespace Ember

/-- Constants as they are written in a program. -/
inductive Literal
  | int (n : Int64)
  | float (x : Number.Double)
  | str (s : String)
  | bool (b : Bool)
  | null
deriving DecidableEq, Inhabited

/-- What stands between two operands: an operator, or a membership test. -/
inductive BinaryOp
  | apply (op : Operator)
  | isIn
  | notIn
deriving DecidableEq

/-- What stands before one operand. -/
inductive UnaryOp
  | not
  | negate
deriving DecidableEq

/-- Expressions. -/
inductive Expr
  | literal (loc : Location) (value : Literal)
  | ident (loc : Location) (name : String)
  /-- The receiver inside a method or a field initializer. -/
  | this (loc : Location)
  | array (loc : Location) (elements : List Expr)
  | dict (loc : Location) (entries : List (Expr × Expr))
  | binary (loc : Location) (op : BinaryOp) (lhs rhs : Expr)
  | unary (loc : Location) (op : UnaryOp) (operand : Expr)
  | index (loc : Location) (target position : Expr)
  | slice (loc : Location) (target : Expr) (start stop : Option Expr)
  | member (loc : Location) (target : Expr) (name : String)
  | call (loc : Location) (name : String) (arguments : List Expr)
  | methodCall (loc : Location) (target : Expr) (name : String) (arguments : List Expr)
  | construct (loc : Location) (cls : Expr) (arguments : List Expr)
deriving Inhabited

def Expr.loc : Expr → Location
  | .literal loc _ | .ident loc _ | .this loc | .array loc _ | .dict loc _ | .binary loc _ _ _
  | .unary loc _ _ | .index loc _ _ | .slice loc _ _ _ | .member loc _ _ | .call loc _ _
  | .methodCall loc _ _ _ | .construct loc _ _ => loc

/-- Whether an expression is the receiver itself, through which private members are visible. -/
def Expr.isThis : Expr → Bool
  | .this _ => true
  | _ => false

/-- The definition of a function or a method. -/
structure FunctionDef (Body : Type) where
  loc : Location
  name : String
  params : List String
  body : Body
deriving Inhabited

/-- The definition of a field. A field without an initializer starts as null. -/
structure FieldDef where
  loc : Location
  name : String
  init : Option Expr
deriving Inhabited

/-- The definition of a class. -/
structure ClassDef (Body : Type) where
  loc : Location
  name : String
  fields : List FieldDef
  methods : List (FunctionDef Body)
deriving Inhabited

/-- Statements. -/
inductive Stmt
  | var (loc : Location) (name : String) (init : Option Expr)
  | assign (loc : Location) (target value : Expr)
  | expr (loc : Location) (e : Expr)
  | block (loc : Location) (body : List Stmt)
  /-- An absent alternative is an empty one. -/
  | branch (loc : Location) (condition : Expr) (positive negative : List Stmt)
  | loop (loc : Location) (condition : Expr) (body : List Stmt)
  /-- An inclusive range of integers, walked upwards or downwards. -/
  | range (loc : Location) (name : String) (start stop : Expr) (body : List Stmt)
  | each (loc : Location) (key : Option String) (value : String) (iterable : Expr) (body : List Stmt)
  | leave (loc : Location)
  | next (loc : Location)
  | ret (loc : Location) (value : Option Expr)
  | guarded (loc : Location) (body : List Stmt) (name : String) (handler : List Stmt)
  | raise (loc : Location) (value : Expr)
  | assert (loc : Location) (condition : Expr) (message : Option Expr)
  | function (loc : Location) (f : FunctionDef (List Stmt))
  | classDef (loc : Location) (c : ClassDef (List Stmt))
deriving Inhabited

/-- The location of a statement. That of a definition inside it may be another one. -/
def Stmt.loc : Stmt → Location
  | .var loc _ _ | .assign loc _ _ | .expr loc _ | .block loc _ | .branch loc _ _ _
  | .loop loc _ _ | .range loc _ _ _ _ | .each loc _ _ _ _ | .leave loc | .next loc | .ret loc _
  | .guarded loc _ _ _ | .raise loc _ | .assert loc _ _ | .function loc _ | .classDef loc _ => loc

/-- A program is the list of its top-level statements. -/
abbrev Program := List Stmt

/-- Members whose name starts with an underscore are visible only through the receiver. -/
def isPrivateMember (name : String) : Bool :=
  name.toList.head? == some '_'

end Ember
