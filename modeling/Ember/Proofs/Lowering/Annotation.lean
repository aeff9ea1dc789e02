import Ember.Proofs.Ir.Ssa
import Ember.Proofs.Lowering.Composition

/-!
# Ember — annotation in compiled code

A compilation with comments and one without go through the same steps. They differ only before a
statement, where a comment is added, and nothing that is decided later depends on it. So both end
with the same diagnostic, or with the same code but for the comments.

Main result: `Program.lower_plain`.
-/

namespace Ember

open Ir (Draft Drafting carry)

namespace Lowering

variable {α β : Type}

/-- Compilation that does the same in a session without comments. Where the session with comments is
misused nothing is said, since a comment, too, may be added where it must not stand. -/
class Inert (x : Lowering α) : Prop where
  plain : ∀ s, (∃ f s', x s = .error (.fault f) s') ∨ x s.plain = carry Session.plain (x s)

namespace Inert

variable {x : Lowering α} {f : α → Lowering β}

instance pure (a : α) : Inert (Pure.pure a) :=
  ⟨fun _ => .inr rfl⟩

instance throw (r : Rejection) : Inert (MonadExcept.throw r : Lowering α) :=
  ⟨fun _ => .inr rfl⟩

instance bind [hx : Inert x] [hf : ∀ a, Inert (f a)] : Inert (x >>= f) where
  plain s := by
    simp only [Bind.bind, EStateM.bind]
    rcases hx.plain s with ⟨e, s', heq⟩ | heq
    · exact .inl ⟨e, s', by rw [heq]⟩
    · rw [heq]
      cases x s with
      | ok a s' => exact (hf a).plain s'
      | error e s' => exact .inr rfl

theorem andThen [Inert x] (hf : ∀ a, Inert (f a)) : Inert (x >>= f) :=
  inferInstance

theorem look {f : Session → Lowering β} (hsame : ∀ s, f s.plain = f s)
    (hf : ∀ s, Inert (f s) := by infer_instance) : Inert (get >>= f) where
  plain s := by
    show (∃ e s', f s s = .error (.fault e) s') ∨ f s.plain s.plain = carry Session.plain (f s s)
    rw [hsame]
    exact (hf s).plain s

theorem modify {g : Session → Session} (hg : ∀ s, (g s).plain = g s.plain) :
    Inert (modify g : Lowering PUnit) :=
  ⟨fun s => .inr (congrArg (EStateM.Result.ok PUnit.unit) (hg s).symm)⟩

theorem drafting {x : Drafting α} (hx : Draft.Inert x) : Inert (drafting x) where
  plain s := by
    have heq : x s.plain.body.draft = carry Draft.strip (x s.body.draft) := hx s.body.draft
    unfold Lowering.drafting
    rw [heq]
    cases x s.body.draft with
    | ok a d => exact .inr rfl
    | error e d => exact .inl ⟨e, _, rfl⟩

end Inert

/-- The steps that expressions are compiled by add no comments. -/
instance (priority := low) Composed.indifferent {x : Lowering α} [hx : Composed x] :
    Inert x := by
  induction hx with
  | pure a => exact .pure a
  | throw r => exact .throw r
  | look same _ hf => exact .look same hf
  | bind _ _ hx hf => exact @Inert.bind _ _ _ _ hx hf
  | drafting steps => exact .drafting steps.indifferent

/-! ## Scopes and variables -/

instance (scope : Scope) : Inert (modify fun s : Session => { s with scope }) :=
  .modify fun _ => rfl

instance inert_inScope (x : Lowering α) [Inert x] : Inert (inScope x) := by
  have henter : Inert (modify fun s : Session => { s with scope := s.scope.enter }) :=
    .modify fun _ => rfl
  have hexit : ∀ a : α, Inert (do
      let scope ← sound (← get).scope.exit
      modify fun s : Session => { s with scope }
      return a) := fun _ => .look fun _ => rfl
  unfold inScope
  infer_instance

instance (id : Nat) : Inert (allocate id) := by
  have hglob : ∀ symbol, Inert (modify fun s : Session =>
      { s with globals := s.globals ++ [symbol] }) := fun _ => .modify fun _ => rfl
  have hlocal : ∀ slot, Inert (modify fun s : Session =>
      { s with body := { s.body with slots := (id, slot) :: s.body.slots } }) :=
    fun _ => .modify fun _ => rfl
  have hslot : ∀ name, Inert (drafting (Draft.localSlot name)) := fun name =>
    .drafting (Draft.inert_localSlot name)
  refine .look (fun _ => rfl) fun s => @Inert.bind _ _ _ _ _ fun binding => ?_
  dsimp only
  split <;> infer_instance

instance (name : String) (loc : Location) (value : Lowering Nat) [Inert value] :
    Inert (declareVariable name loc value) := by
  have hbind : ∀ id, Inert (do
      let scope ← sound ((← get).scope.bind id)
      modify fun s : Session => { s with scope }
      return id) := fun _ => .look fun _ => rfl
  exact .look fun _ => rfl

/-- The comment is added, or not, and seen in neither case. -/
instance (loc : Location) : Inert (statementComment loc) where
  plain s := by
    have hplain : statementComment loc s.plain = .ok () s.plain := rfl
    rw [hplain]
    simp only [statementComment, bind, EStateM.bind, get, getThe, MonadStateOf.get, EStateM.get]
    split
    · unfold drafting
      cases hr : Draft.push (.comment loc.text) s.body.draft with
      | ok _ d =>
        refine .inr ?_
        simp only [carry, Session.plain, Draft.strip_of_comment hr]
      | error e d => exact .inl ⟨e, _, rfl⟩
    · exact .inr rfl

theorem Nested.indifferent {N : String → Prop} {inside : Bool} {x : Lowering α}
    (hx : Nested N Inert inside x) : Inert x := by
  induction hx with
  | step steps => infer_instance
  | bind _ _ hx hf => exact @Inert.bind _ _ _ _ hx hf
  | inScope => infer_instance
  | declare _ steps => infer_instance
  | comment loc => infer_instance
  | definition hx => infer_instance

/-! ## Definitions -/

section

variable (body : Lowering Unit) [Inert body]

instance : Inert finishBody where
  plain s := by
    have heq : Draft.finish s.plain.body.draft = _ := Draft.finish_strip s.body.draft
    simp only [finishBody, bind, EStateM.bind, drafting, heq]
    cases Draft.finish s.body.draft with
    | ok f d =>
      refine .inr ?_
      simp [modify, modifyGet, MonadStateOf.modifyGet, EStateM.modifyGet, carry, Session.plain]
    | error e d => exact .inl ⟨e, _, rfl⟩

/-- The function that was being written is put aside and taken up again. -/
instance (symbol : String) : Inert (define symbol body) where
  plain s := by
    let write : Lowering Unit := do
      modify fun s => { s with body := { draft := Draft.start symbol .value, kind := .definition } }
      inScope body
      finishBody
    have hbegin : Inert (modify fun s : Session =>
        { s with body := { draft := Draft.start symbol .value, kind := .definition } }) :=
      .modify fun s => by simp only [Session.plain, Draft.strip_start]
    have hwrite : Inert write := inferInstance
    have hassoc : define symbol body = get >>= fun s => write >>= fun _ =>
        modify fun s' => { s' with body := s.body } := by
      simp only [define, write, bind_assoc]
    have hdef : ∀ s, define symbol body s = match write s with
        | .ok _ s' => .ok () { s' with body := s.body }
        | .error e s' => .error e s' := by
      intro s
      rw [hassoc]
      simp only [bind, EStateM.bind, get, getThe, MonadStateOf.get, EStateM.get]
      cases write s <;> rfl
    rw [hdef, hdef]
    rcases hwrite.plain s with ⟨f, s', heq⟩ | heq
    · exact .inl ⟨f, s', by rw [heq]⟩
    · rw [heq]
      cases write s <;> exact .inr rfl

instance : Inert (returning body) := by
  unfold returning
  infer_instance

instance (loc : Location) (value : Nat → String → Lowering Nat)
    [hval : ∀ i name, Inert (value i name)] (i : Nat) (params : List String) :
    Inert (declareParameters loc value i params) := by
  induction params generalizing i with
  | nil => exact .pure ()
  | cons name rest ih =>
    unfold declareParameters
    infer_instance

instance (ty : Ir.Ty) (name : String) : Inert (drafting (Draft.parameter ty name)) :=
  .drafting (Draft.inert_parameter ty name)

instance : Inert receiverParameter := by
  have : ∀ this, Inert (modify fun s : Session =>
      { s with body := { s.body with receiver := some this } }) := fun _ => .modify fun _ => rfl
  unfold receiverParameter
  infer_instance

instance (loc : Location) (name : String) (params : List String) :
    Inert (functionBody loc name params body) := by
  unfold functionBody
  infer_instance

instance (symbol : String) (loc : Location) (params : List String) :
    Inert (methodBody symbol loc params body) := by
  unfold methodBody
  infer_instance

instance (cls : String) (slot : Ir.Operand) (l : List FieldDef) :
    Inert (fields cls slot l) := by
  induction l with
  | nil => exact .pure ()
  | cons f rest ih =>
    unfold fields initializer
    infer_instance

instance (loc : Location) (name : String) : Inert (newClass loc name) := by
  unfold newClass
  infer_instance

end

mutual

theorem nested_lower (st : Stmt) : Nested (fun _ => True) Inert true st.lower := by
  have hbodies : ∀ C body e, Inside st C body e →
      Nested (fun _ => True) Inert true (Stmt.lowerAll body) := by
    intro C body e h
    have := h.sizeOf_lt
    exact nested_lowerAnnotated body
  have hcode : Nested (fun _ => True) Inert true (code st) := by
    cases st with
    | var loc name init =>
      exact .bind (.declare trivial inferInstance) fun _ => .step inferInstance
    | function _ f =>
      have hsize : sizeOf f.body < sizeOf f := by
        cases f
        simp +arith
      have := (nested_lowerAnnotated f.body).indifferent
      exact .definition inferInstance
    | classDef _ c =>
      have hsize : sizeOf c.methods < sizeOf c := by
        cases c
        simp +arith
      have := fun slot => inert_lowerMethods c.name slot c.methods
      exact .definition inferInstance
    | _ => exact nested_code rfl (fun _ _ h => nomatch h) (fun _ _ => trivial) hbodies
  rw [lower_eq]
  exact .bind (.comment st.loc) fun _ => hcode
termination_by sizeOf st

theorem nested_lowerAnnotated (l : List Stmt) :
    Nested (fun _ => True) Inert true (Stmt.lowerAll l) := by
  cases l with
  | nil =>
    rw [Stmt.lowerAll]
    exact .step inferInstance
  | cons st rest =>
    rw [Stmt.lowerAll]
    exact .bind (nested_lower st) fun _ => nested_lowerAnnotated rest
termination_by sizeOf l

theorem inert_lowerMethods (cls : String) (slot : Ir.Operand)
    (l : List (FunctionDef (List Stmt))) : Inert (Stmt.lowerMethods cls slot l) := by
  cases l with
  | nil =>
    rw [Stmt.lowerMethods]
    infer_instance
  | cons f rest =>
    have := (nested_lowerAnnotated f.body).indifferent
    have := inert_lowerMethods cls slot rest
    rw [Stmt.lowerMethods]
    infer_instance
termination_by sizeOf l
decreasing_by
  all_goals
    cases f
    simp +arith

end

/-! ## Programs -/

instance {x : α → Lowering PUnit} [∀ a, Inert (x a)] (l : List α) :
    Inert (l.forM x) := by
  induction l with
  | nil => exact .pure ()
  | cons a rest ih => exact .andThen fun _ => ih

instance (classes : Classes) : Inert (modify fun s : Session => { s with classes }) :=
  .modify fun _ => rfl

instance (cls name : String) (loc : Location) : Inert (registerMember cls name loc) :=
  .look fun _ => rfl

instance (f : FunctionDef (List Stmt)) : Inert (registerFunction f) := by
  have hrest : Inert (do
      let s ← get
      let functions ← check (s.functions.register f.name f.params.length f.loc)
      let scope ← check (s.scope.declareFunction f.name f.loc)
      set { s with functions, scope }) := by
    refine ⟨fun s => .inr ?_⟩
    simp only [bind, EStateM.bind, get, getThe, MonadStateOf.get, EStateM.get]
    have hfns : s.plain.functions = s.functions := rfl
    have hsc : s.plain.scope = s.scope := rfl
    rw [hfns, hsc]
    cases s.functions.register f.name f.params.length f.loc with
    | error d => rfl
    | ok functions => cases s.scope.declareFunction f.name f.loc <;> simp [check] <;> rfl
  unfold registerFunction
  split <;> infer_instance

instance (c : ClassDef (List Stmt)) : Inert (registerClass c) := by
  have harity : ∀ arity, Inert (modify fun s : Session =>
      { s with classes := s.classes.setInitArity c.name arity }) := fun _ => .modify fun _ => rfl
  have hmeth : ∀ f : FunctionDef (List Stmt), Inert (do
      registerMember c.name f.name f.loc
      if f.name = "init" then
        modify fun s => { s with classes := s.classes.setInitArity c.name f.params.length }) := by
    intro f
    split <;> infer_instance
  exact .look fun _ => rfl

instance (st : Stmt) : Inert (registerItem st) := by
  cases st <;> unfold registerItem <;> infer_instance

theorem inert_program (p : Program) : Inert (program p) := by
  have hpool : Inert (modify fun s : Session => { s with pool := p.pool }) :=
    .modify fun _ => rfl
  have hcalls (argc argv bottom : Nat) : Draft.Inert (do
      Draft.pushPrologue (.alloca bottom .i64 1)
      Draft.pushPrologue (.call none .void (.entry .setStackBottom) [.ptr bottom])
      Draft.pushPrologue (.call none .void (.entry .setArgs) [⟨.i32, .reg argc⟩, .ptr argv])) :=
    (Draft.Composed.bind (.pushPrologue rfl) fun _ => .bind (.pushPrologue rfl) fun _ =>
      .pushPrologue rfl).indifferent
  have hopen : Inert (drafting openMain) :=
    .drafting (.bind (Draft.inert_parameter _ _) fun _ =>
      .bind (Draft.inert_parameter _ _) fun _ =>
      .bind (Draft.inert_pushPrologue rfl) fun _ =>
      .bind (Draft.inert_register _ _) fun _ => hcalls _ _ _)
  have hstmts := (nested_lowerAnnotated p).indifferent
  unfold program
  infer_instance

end Lowering

theorem Ir.Function.WellFormed.strip_eq_plain {f : Ir.Function} (hf : f.WellFormed) :
    f.strip = f.plain := by
  have hblks : f.blocks.entries.map Ir.Block.strip = f.blocks.entries.map Ir.Block.plain := by
    refine Array.map_congr_left fun b hb => ?_
    obtain ⟨before, last, hcode, hlast, hbef⟩ := hf.ends b (Array.mem_def.mp hb)
    exact b.strip_eq_plain hcode hlast hbef
  unfold strip plain
  rw [hblks]

open Lowering

namespace Program

theorem start_plain : (start true).plain = start false := by
  simp only [start, Session.plain, Draft.strip_start]
  rfl

/-- A compiled program without its comments is the program compiled without comments, and what is
refused is refused in the same way. -/
theorem lower_plain (p : Program) : p.lower false = (p.lower true).map Ir.Module.plain := by
  have hplain := (inert_program p).plain (start true)
  rw [start_plain] at hplain
  have hflt : ∀ f s, program p (start true) ≠ .error (.fault f) s := by
    intro f s heq
    have hlow : p.lower true = .error (.fault f) := by
      unfold lower
      rw [heq]
    rcases p.lower_cases true with ⟨-, m, hm, -⟩ | ⟨-, d, hd, -⟩
    · cases hm.symm.trans hlow
    · cases hd.symm.trans hlow
  have hsame := hplain.resolve_left fun ⟨f, s, heq⟩ => hflt f s heq
  unfold lower
  rw [hsame]
  cases hr : program p (start true) with
  | error e s => rfl
  | ok _ s =>
    have hm : p.lower true = .ok s.module := by
      unfold lower
      rw [hr]
    obtain ⟨-, κ, hκ⟩ := certified_of_lower hm
    have hstrip : ∀ f ∈ s.finished, f.strip = f.plain := fun f hf =>
      (hκ.functions f hf).wellFormed.strip_eq_plain
    show Except.ok s.plain.module = .ok s.module.plain
    simp only [Session.module, Session.plain, Ir.Module.plain, List.map_congr_left hstrip]

end Program

end Ember
