import Ember.Proofs.Ir.Composition
import Ember.Proofs.Lowering.Program
import Ember.Proofs.Lowering.Verdict

/-!
# Ember — the steps that programs are compiled by

Expressions, tests and jumps are compiled by steps that write to the current function and look at
what is known of the program. Statements are put together from such steps, scopes and declarations.
What all of these keep, the compilation of statements keeps.

Main result: `nested_code`.
-/

namespace Ember

/-- The names that a node declares: variables, parameters, functions, classes and members. -/
def Node.names : Node → List String
  | .stmt (.var _ name _) => [name]
  | .stmt (.range _ name ..) => [name]
  | .stmt (.each _ key value ..) => key.toList ++ [value]
  | .stmt (.guarded _ _ name _) => [name]
  | .function f => f.name :: f.params
  | .classDef c => [c.name]
  | .field f => [f.name]
  | _ => []

/-- A session without the comments of its code. -/
def Session.plain (s : Session) : Session :=
  { s with
    annotate := false
    finished := s.finished.map Ir.Function.strip
    body := { s.body with draft := s.body.draft.strip } }

namespace Lowering

open Ir (Draft Drafting Typed Operand)

variable {α β : Type}

/-- Compilation that writes by steps without names and comments, and that looks at what comments do
not change. -/
class inductive Composed : {α : Type} → Lowering α → Prop
  | pure {α : Type} (a : α) : Composed (Pure.pure a)
  | throw {α : Type} (r : Rejection) : Composed (MonadExcept.throw r : Lowering α)
  | look {α : Type} {f : Session → Lowering α} (same : ∀ s, f s.plain = f s)
      (next : ∀ s, Composed (f s)) : Composed (get >>= f)
  | bind {α β : Type} {x : Lowering α} {f : α → Lowering β} (first : Composed x)
      (next : ∀ a, Composed (f a)) : Composed (x >>= f)
  | drafting {α : Type} {x : Drafting α} (steps : Draft.Composed x) : Composed (drafting x)

attribute [instance] Composed.pure Composed.throw

instance (x : Lowering α) (f : α → Lowering β) [hx : Composed x] [hf : ∀ a, Composed (f a)] :
    Composed (x >>= f) :=
  .bind hx hf

instance (x : Drafting α) [hx : Draft.Composed x] : Composed (drafting x) :=
  .drafting hx

theorem Composed.block {label : String} (hlab : label ∈ Ir.labels) :
    Composed (Lowering.drafting (Draft.block label)) :=
  .drafting (.block hlab)

instance (loc : Location) (problem : Problem) : Composed (reject loc problem : Lowering α) :=
  .throw _

instance (r : Except Diagnostic α) : Composed (check r) := by
  cases r with
  | ok a => exact .pure a
  | error d => exact .throw _

instance (r : Except Fault α) : Composed (sound r) := by
  cases r with
  | ok a => exact .pure a
  | error f => exact .throw _

/-! ## Parts of expressions -/

instance (text : String) (loc : Location) : Composed (constant text loc) := by
  refine .look (fun _ => rfl) fun s => ?_
  split <;> infer_instance

instance (loc : Location) : Composed (site loc) := by
  unfold site
  infer_instance

instance (e : Ir.EntryPoint) (arguments : List Typed) : Composed (invoke e arguments) :=
  .drafting inferInstance

instance (loc : Location) (e : Ir.EntryPoint) (arguments : List Typed) :
    Composed (invokeAt loc e arguments) := by
  unfold invokeAt
  infer_instance

instance (e : Ir.EntryPoint) (arguments : List Typed) : Composed (perform e arguments) :=
  .drafting inferInstance

instance (loc : Location) (e : Ir.EntryPoint) (arguments : List Typed) :
    Composed (performAt loc e arguments) := by
  unfold performAt
  infer_instance

instance : Composed null :=
  .drafting inferInstance

instance (r : Nat) : Composed (boxInt r) :=
  .drafting inferInstance

instance (r : Nat) : Composed (truthy r) :=
  .drafting inferInstance

instance (loc : Location) (op : Operator) (lhs rhs : Nat) : Composed (operate loc op lhs rhs) :=
  inferInstanceAs (Composed (invokeAt loc _ _))

instance (loc : Location) (container position : Nat) :
    Composed (elementAt loc container position) :=
  inferInstanceAs (Composed (invokeAt loc _ _))

instance (loc : Location) (container item : Nat) : Composed (contains loc container item) :=
  inferInstanceAs (Composed (invokeAt loc _ _))

instance (text : String) (loc : Location) : Composed (string text loc) := by
  unfold string
  infer_instance

instance (id : Nat) (loc : Location) : Composed (storage id loc) := by
  refine .look (fun _ => rfl) fun s => .bind inferInstance fun binding => ?_
  split
  · infer_instance
  · split <;> infer_instance

instance (name : String) (loc : Location) : Composed (resolve name loc) :=
  .look (fun _ => rfl) inferInstance

instance (loc : Location) (l : Literal) : Composed (constantValue loc l) := by
  cases l <;> unfold constantValue <;> infer_instance

instance (truth : Nat) : Composed (invert truth) := by
  have hflip : ∀ r, Draft.Composed (Draft.push (.arith r .xor ⟨.i1, .reg truth⟩ (.imm (.bool true)))) :=
    fun _ => .push rfl
  unfold invert
  infer_instance

instance (loc : Location) (op : BinaryOp) (lhs rhs : Nat) : Composed (binaryOp loc op lhs rhs) := by
  cases op <;> unfold binaryOp <;> infer_instance

instance (loc : Location) (op : UnaryOp) (operand : Nat) : Composed (unaryOp loc op operand) := by
  cases op <;> unfold unaryOp <;> infer_instance

instance (buffer i : Nat) (values : List Nat) : Composed (fill buffer i values) := by
  induction values generalizing i with
  | nil => exact .pure ()
  | cons r rest ih =>
    unfold fill
    infer_instance

instance (values : List Nat) : Composed (marshal values) :=
  .bind (.drafting (inferInstanceAs (Draft.Composed (Draft.cells _)))) inferInstance

instance (loc : Location) (op : Ir.MathOp) (r : Nat) : Composed (math loc op r) := by
  unfold math
  infer_instance

instance (loc : Location) (name : String) (supplied : Nat) : Composed (target loc name supplied) := by
  unfold target
  split
  · split <;> infer_instance
  · split
    · split <;> infer_instance
    · infer_instance
  · exact .look (fun _ => rfl) inferInstance

instance (loc : Location) (target : Target) (arguments : List Nat) :
    Composed (callTarget loc target arguments) := by
  unfold callTarget
  split <;> infer_instance

instance (loc : Location) (cls : Expr) (supplied : Nat) :
    Composed (checkConstruction loc cls supplied) := by
  unfold checkConstruction
  split
  · refine .look (fun _ => rfl) fun s => ?_
    split
    · refine .bind inferInstance fun binding => ?_
      split
      · split
        · infer_instance
        · dsimp only
          split <;> infer_instance
      · infer_instance
    · infer_instance
  · infer_instance

/-! ## Expressions -/

mutual

theorem composed_lower (e : Expr) : Composed e.lower :=
  match e with
  | .literal loc l => by
    rw [Expr.lower]
    infer_instance
  | .ident loc name => by
    rw [Expr.lower]
    infer_instance
  | .this loc => by
    rw [Expr.lower]
    refine .look (fun _ => rfl) fun s => ?_
    split <;> infer_instance
  | .array _ elements => by
    rw [Expr.lower]
    exact .bind (composed_lowerAll elements) inferInstance
  | .dict loc entries => by
    rw [Expr.lower]
    exact .bind inferInstance fun dict => .bind (composed_lowerEntries loc dict entries) inferInstance
  | .binary loc op lhs rhs => by
    rw [Expr.lower]
    exact .bind (composed_lower lhs) fun _ => .bind (composed_lower rhs) inferInstance
  | .unary loc op operand => by
    rw [Expr.lower]
    exact .bind (composed_lower operand) inferInstance
  | .index loc target position => by
    rw [Expr.lower]
    exact .bind (composed_lower target) fun _ => .bind (composed_lower position) inferInstance
  | .slice loc target start stop => by
    rw [Expr.lower]
    exact .bind (composed_lower target) fun _ => .bind (composed_lowerOption start) fun _ =>
      .bind (composed_lowerOption stop) inferInstance
  | .member loc target name => by
    rw [Expr.lower]
    exact .bind (composed_lower target) inferInstance
  | .call loc name arguments => by
    rw [Expr.lower]
    exact .bind inferInstance fun _ => .bind (composed_lowerAll arguments) inferInstance
  | .methodCall loc target name arguments => by
    rw [Expr.lower]
    exact .bind (composed_lower target) fun _ => .bind (composed_lowerAll arguments) inferInstance
  | .construct loc cls arguments => by
    rw [Expr.lower]
    exact .bind inferInstance fun _ => .bind (composed_lower cls) fun _ =>
      .bind (composed_lowerAll arguments) inferInstance

theorem composed_lowerAll (es : List Expr) : Composed (Expr.lowerAll es) :=
  match es with
  | [] => by
    rw [Expr.lowerAll]
    infer_instance
  | e :: rest => by
    rw [Expr.lowerAll]
    exact .bind (composed_lower e) fun _ => .bind (composed_lowerAll rest) inferInstance

theorem composed_lowerEntries (loc : Location) (dict : Nat) (entries : List (Expr × Expr)) :
    Composed (Expr.lowerEntries loc dict entries) :=
  match entries with
  | [] => by
    rw [Expr.lowerEntries]
    infer_instance
  | (key, value) :: rest => by
    rw [Expr.lowerEntries]
    exact .bind (composed_lower key) fun _ => .bind (composed_lower value) fun _ =>
      .bind inferInstance fun _ => composed_lowerEntries loc dict rest

theorem composed_lowerOption (e : Option Expr) : Composed (Expr.lowerOption e) :=
  match e with
  | none => by
    rw [Expr.lowerOption]
    infer_instance
  | some e => by
    rw [Expr.lowerOption]
    exact composed_lower e

end

attribute [instance] composed_lower composed_lowerOption

/-! ## Statements that open no scope -/

instance (loc : Location) (target value : Expr) : Composed (assignment loc target value) := by
  cases target <;> unfold assignment <;> infer_instance

instance (loc : Location) (receiver : Nat) (keys : Option Nat) (position : Nat) :
    Composed (entryAt loc receiver keys position) := by
  cases keys <;> unfold entryAt <;> infer_instance

instance (loc : Location) (r : Nat) : Composed (raiseValue loc r) := by
  unfold raiseValue
  infer_instance

instance (loc : Location) (problem : Problem) (dest : Ir.LoopTargets → Nat) :
    Composed (leaveLoop loc problem dest) := by
  refine .bind inferInstance fun targets => ?_
  cases targets <;> infer_instance

instance (value : Option Expr) : Composed (returnFrom value) := by
  refine .look (fun _ => rfl) fun s => ?_
  split <;> infer_instance

instance (loc : Location) (condition : Expr) (message : Option Expr) :
    Composed (assertion loc condition message) := by
  cases message <;> unfold assertion
  all_goals
    repeat' first
      | with_reducible refine .bind ?_ fun _ => ?_
      | infer_instance
      | exact .block (by decide)

instance (construct : String) (loc : Location) : Composed (requireTopLevel construct loc) := by
  refine .look (fun _ => rfl) fun s => ?_
  split <;> infer_instance

instance (slot : Operand) (symbol : String) (loc : Location) (name : String) (arity : Nat) :
    Composed (addMethod slot symbol loc name arity) := by
  unfold addMethod
  infer_instance

/-! ## Scopes and declarations -/

/-- Compilation with scopes and with declarations inside of them. The names that are declared are
such as `N` allows, and definitions are of functions and classes of which `K` is known. -/
inductive Nested (N : String → Prop) (K : Lowering Unit → Prop) :
    Bool → {α : Type} → Lowering α → Prop
  | step {inside : Bool} {α : Type} {x : Lowering α} (steps : Composed x) : Nested N K inside x
  | bind {inside : Bool} {α β : Type} {x : Lowering α} {f : α → Lowering β}
      (first : Nested N K inside x) (next : ∀ a, Nested N K inside (f a)) : Nested N K inside (x >>= f)
  | inScope {inside : Bool} {α : Type} {x : Lowering α} (inner : Nested N K true x) :
      Nested N K inside (inScope x)
  | declare {name : String} {loc : Location} {value : Lowering Nat} (allowed : N name)
      (steps : Composed value) : Nested N K true (declareVariable name loc value)
  | comment {inside : Bool} (loc : Location) : Nested N K inside (statementComment loc)
  | definition {construct : String} {loc : Location} {x : Lowering Unit} (known : K x) :
      Nested N K true (do requireTopLevel construct loc; x)

section

variable {N : String → Prop} {K : Lowering Unit → Prop} {inside : Bool} {name value : String}
  {body handler : Lowering Unit}

theorem Nested.block {label : String} (hlab : label ∈ Ir.labels) :
    Nested N K inside (drafting (Draft.block label)) :=
  .step (.block hlab)

theorem Nested.inLoop (leave next : Nat) (hbody : Nested N K inside body) :
    Nested N K inside (inLoop leave next body) :=
  .bind (.step inferInstance) fun _ => .bind hbody fun _ => .step inferInstance

theorem nested_conditional (condition : Expr) (hbody : Nested N K true body)
    (hoth : Nested N K true handler) : Nested N K inside (conditional condition body handler) := by
  unfold conditional
  repeat' first
    | with_reducible refine .bind ?_ fun _ => ?_
    | exact .step inferInstance
    | exact .block (by decide)
    | exact .inScope ‹_›

theorem nested_whileLoop (condition : Expr) (hbody : Nested N K true body) :
    Nested N K inside (whileLoop condition body) := by
  unfold whileLoop
  repeat' first
    | with_reducible refine .bind ?_ fun _ => ?_
    | exact .step inferInstance
    | exact .block (by decide)
    | exact .inLoop _ _ (.inScope hbody)

theorem nested_rangeLoop (loc : Location) (hname : N name) (start stop : Expr)
    (hbody : Nested N K true body) : Nested N K inside (rangeLoop loc name start stop body) := by
  unfold rangeLoop
  repeat' first
    | with_reducible refine .bind ?_ fun _ => ?_
    | exact .step inferInstance
    | exact .block (by decide)
    | exact .inScope (.bind (.declare hname inferInstance) fun _ => .inLoop _ _ (.inScope hbody))

theorem nested_walk (loc : Location) (receiver : Nat) (keys : Option Nat) {key : Option String}
    (hnms : ∀ name ∈ key.toList ++ [value], N name) (done : Nat) (hbody : Nested N K true body) :
    Nested N K inside (walk loc receiver keys key value done body) := by
  have hval : ∀ r next, Nested N K true (do
      let _ ← declareVariable value loc (pure r)
      inLoop done next (inScope body)) := fun _ _ =>
    .bind (.declare (hnms value (by simp)) inferInstance) fun _ => .inLoop _ _ (.inScope hbody)
  have hkey : ∀ name ∈ key, ∀ r, Nested N K true (declareVariable name loc (pure r)) :=
    fun name hname _ => .declare (hnms name (by simp_all)) inferInstance
  unfold walk
  repeat' first
    | with_reducible refine .bind ?_ fun _ => ?_
    | exact .step inferInstance
    | exact .block (by decide)
  refine .inScope (.bind (.step inferInstance) fun _ => .bind (.step inferInstance) fun _ => ?_)
  cases key with
  | none => exact hval _ _
  | some name => exact .bind (hkey name rfl _) fun _ => hval _ _

theorem nested_eachLoop (loc : Location) {key : Option String}
    (hnms : ∀ name ∈ key.toList ++ [value], N name) (iterable : Expr)
    (hbody : Nested N K true body) : Nested N K inside (eachLoop loc key value iterable body) := by
  have htag : ∀ tag r, Draft.Composed (Draft.push (.extract tag (.reg r) 0)) := fun _ _ => .push rfl
  unfold eachLoop
  repeat' first
    | with_reducible refine .bind ?_ fun _ => ?_
    | exact .step inferInstance
    | exact .block (by decide)
    | exact nested_walk loc _ _ hnms _ hbody

theorem nested_protect (loc : Location) (hname : N name) (hbody : Nested N K true body)
    (hhandler : Nested N K true handler) : Nested N K inside (protect loc body name handler) := by
  unfold protect
  repeat' first
    | with_reducible refine .bind ?_ fun _ => ?_
    | exact .step inferInstance
    | exact .block (by decide)
    | exact .inScope hbody
    | exact .inScope (.bind (.declare hname inferInstance) fun _ => hhandler)

theorem Inside.sizeOf_lt {st : Stmt} {C : Lowering Unit → Lowering Unit} {body : List Stmt} {e : Nat}
    (h : Inside st C body e) : sizeOf body < sizeOf st := by
  cases h <;> simp +arith

theorem nested_code {st : Stmt} (hst : st.declared? = none) (hfn : ∀ loc f, st ≠ .function loc f)
    (hnms : ∀ name ∈ (Node.stmt st).names, N name)
    (hbodies : ∀ C body e, Inside st C body e → Nested N K true (Stmt.lowerAll body)) :
    Nested N K inside (code st) := by
  cases st with
  | var loc name init => cases hst
  | expr loc e => exact .bind (.step inferInstance) fun _ => .step inferInstance
  | block loc body => exact .inScope (hbodies _ _ _ .block)
  | branch loc condition positive negative =>
    exact nested_conditional condition (hbodies _ _ _ .positive) (hbodies _ _ _ .negative)
  | loop loc condition body => exact nested_whileLoop condition (hbodies _ _ _ .loop)
  | range loc name start stop body =>
    exact nested_rangeLoop loc (hnms name (.head _)) start stop (hbodies _ _ _ .range)
  | each loc key value iterable body =>
    exact nested_eachLoop loc hnms iterable (hbodies _ _ _ .first)
  | guarded loc body name handler =>
    exact nested_protect loc (hnms name (.head _)) (hbodies _ _ _ .guarded)
      (hbodies _ _ _ .handler)
  | raise loc value => exact .bind (.step inferInstance) fun _ => .step inferInstance
  | function loc f => exact absurd rfl (hfn loc f)
  | classDef loc c => cases hst
  | assign | leave | next | ret | assert => exact .step (by unfold code; infer_instance)

end

end Lowering

end Ember
