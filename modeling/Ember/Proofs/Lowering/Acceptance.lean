import Ember.Proofs.Lowering.Scoping
import Ember.Proofs.Lowering.Stmt

/-!
# Ember — which statements are accepted

A statement is compiled exactly if it keeps the static rules, and its declarations are in scope
behind it. There is a lemma for each kind of statement, and one induction over the program tree.

Main result: `steps_lowerAll`.
-/

namespace Ember

open Ir (Draft LoopTargets Operand Typed)

variable {condition : Expr} {params : List String} {body x : Lowering Unit} {st : Stmt}
  {name : String}

namespace Lowering

variable {Γ : Surroundings} {π : Pool} {R : List Nat} {t : Nat} {l : List LoopTargets}
  {P P1 P2 : Prop} {names names1 names2 : List String} {loc : Location}

/-- Code that goes on exactly if a rule is kept, and declares these names. -/
def Fills (π : Pool) (Γ : Surroundings) (x : Lowering Unit) (P : Prop) (names : List String) : Prop :=
  ∀ R t l, Steps π ⟨Γ, R, t, l⟩ x P fun _ => ⟨Γ.declareAll names, R, t, l⟩

theorem tests_terminate {i : Ir.Instr} (hi : i.isTerminator = true) :
    Tests Γ π (drafting (Draft.terminate i)) True :=
  tests_drafting fun _ _ _ _ hd => hd.terminate hi

theorem tests_jump (dest : Nat) : Tests Γ π (drafting (Draft.jump dest)) True :=
  tests_terminate rfl

theorem tests_branch (condition positive negative : Nat) :
    Tests Γ π (drafting (Draft.branch condition positive negative)) True :=
  tests_terminate rfl

theorem tests_store (value : Typed) (dest : Operand) :
    Tests Γ π (drafting (Draft.store value dest)) True :=
  tests_drafting fun _ _ _ _ hd => hd.push rfl

theorem tests_load (ty : Ir.Ty) (source : Operand) :
    Tests Γ π (drafting (Draft.load ty source)) True :=
  tests_drafting fun _ _ _ _ hd => hd.fresh _ _ fun _ => rfl

theorem tests_compare (predicate : Ir.Predicate) (lhs : Typed) (rhs : Operand) :
    Tests Γ π (drafting (Draft.compare predicate lhs rhs)) True :=
  tests_drafting fun _ _ _ _ hd => hd.fresh _ _ fun _ => rfl

theorem tests_arith (op : Ir.IntOp) (lhs : Nat) (rhs : Operand) :
    Tests Γ π (drafting (Draft.arith op lhs rhs)) True :=
  tests_drafting fun _ _ _ _ hd => hd.fresh _ _ fun _ => rfl

theorem tests_counter (initial : Operand) : Tests Γ π (drafting (Draft.counter initial)) True :=
  tests_drafting fun _ _ _ _ hd => hd.counter initial

theorem tests_advance (counter : Nat) (amount : Operand) :
    Tests Γ π (drafting (Draft.advance counter amount)) True :=
  tests_drafting fun _ _ _ _ hd => hd.advance counter amount

theorem tests_hiddenSlot : Tests Γ π (drafting Draft.hiddenSlot) True :=
  tests_drafting fun _ _ _ _ hd => hd.slot none

theorem tests_emitReturn (value : Option Nat) : Tests Γ π (drafting (Draft.emitReturn value)) True :=
  tests_drafting fun _ _ _ _ hd => hd.emitReturn value

theorem tests_raiseValue (hloc : loc.file ∈ π) (r : Nat) : Tests Γ π (raiseValue loc r) True :=
  (tests_performAt hloc rfl _).after fun _ _ => tests_terminate rfl

/-! ## Branches and loops -/

theorem steps_conditional (hcond : Tests Γ π condition.lower P)
    {positive negative : Lowering Unit} (hpositive : Fills π Γ.enter positive P1 names1)
    (hnegative : Fills π Γ.enter negative P2 names2) :
    Steps π ⟨Γ, R, t, l⟩ (conditional condition positive negative) (P ∧ P1 ∧ P2) fun _ =>
      ⟨Γ, R, t, l⟩ := by
  refine hcond.steps.bind fun r => ?_
  refine (tests_truthy r).steps.after fun truth => ?_
  refine (steps_block _).after fun yes => (steps_block _).after fun no => (steps_block _).after fun done => ?_
  refine (tests_branch truth yes no).steps.after fun _ => ?_
  refine (steps_moveTo [done, no] yes R).after fun _ => ?_
  refine (steps_inScope (hpositive _ _ _)).bind fun _ => ?_
  refine (tests_jump done).steps.after fun _ => (steps_moveTo [done] no R).after fun _ => ?_
  refine (steps_inScope (hnegative _ _ _)).before fun _ => ?_
  exact (tests_jump done).steps.after fun _ => steps_moveTo [] done R

theorem steps_whileLoop (hcond : Tests Γ π condition.lower P)
    (hbody : Fills π Γ.loop.enter body P1 names) :
    Steps π ⟨Γ, R, t, l⟩ (whileLoop condition body) (P ∧ P1) fun _ => ⟨Γ, R, t, l⟩ := by
  refine (steps_block _).after fun test => (steps_block _).after fun inside =>
    (steps_block _).after fun done => ?_
  refine (tests_jump test).steps.after fun _ => (steps_moveTo [done, inside] test R).after fun _ => ?_
  refine hcond.steps.bind fun r => ?_
  refine (tests_truthy r).steps.after fun truth => ?_
  refine (tests_branch truth inside done).steps.after fun _ => ?_
  refine (steps_moveTo [done] inside R).after fun _ => ?_
  refine (steps_inLoop done test (steps_inScope (hbody _ _ _))).before fun _ => ?_
  exact (tests_jump test).steps.after fun _ => steps_moveTo [] done R

theorem fresh_enter (name : String) : Γ.enter.Fresh name := by
  simp [Surroundings.Fresh, Surroundings.enter]

theorem steps_rangeLoop (hloc : loc.file ∈ π) (name : String) {start stop : Expr}
    (hstart : Tests Γ π start.lower P1) (hstop : Tests Γ π stop.lower P2)
    (hbody : Fills π (Γ.enter.declare name).loop.enter body P names) :
    Steps π ⟨Γ, R, t, l⟩ (rangeLoop loc name start stop body) ((P1 ∧ P2) ∧ P) fun _ =>
      ⟨Γ, R, t, l⟩ := by
  refine Steps.congr ?_ and_assoc.symm
  refine hstart.steps.bind fun _ => hstop.steps.bind fun _ => ?_
  refine (tests_invokeAt hloc (by decide) _).steps.after fun start => ?_
  refine (tests_invokeAt hloc (by decide) _).steps.after fun stop => ?_
  refine (tests_counter _).steps.after fun index => (tests_counter _).steps.after fun limit =>
    (tests_counter _).steps.after fun step => ?_
  refine (steps_block _).after fun down => (steps_block _).after fun test =>
    (steps_block _).after fun inside => (steps_block _).after fun next =>
    (steps_block _).after fun done => ?_
  refine (tests_compare _ _ _).steps.after fun ascending => ?_
  refine (tests_branch ascending test down).steps.after fun _ => ?_
  refine (steps_moveTo [done, next, inside, test] down R).after fun _ => ?_
  refine (tests_store _ _).steps.after fun _ => (tests_jump test).steps.after fun _ => ?_
  refine (steps_moveTo [done, next, inside] test R).after fun _ => ?_
  refine (tests_load _ _).steps.after fun current => (tests_load _ _).steps.after fun last =>
    (tests_load _ _).steps.after fun direction => ?_
  refine (tests_arith _ _ _).steps.after fun distance => (tests_arith _ _ _).steps.after fun signed =>
    (tests_compare _ _ _).steps.after fun inRange => ?_
  refine (tests_branch inRange inside done).steps.after fun _ => ?_
  refine (steps_moveTo [done, next] inside R).after fun _ => ?_
  have hround : Steps π ⟨Γ.enter, [done, next] ++ R, t, l⟩ (do
      let _ ← declareVariable name loc (boxInt current)
      inLoop done next (inScope body)) P fun _ => ⟨Γ.enter.declareAll [name], [done, next] ++ R, t, l⟩ := by
    refine ((steps_declareVariable name loc (tests_invoke (by decide) _)).bind fun _ =>
      steps_inLoop done next (steps_inScope (hbody _ _ _))).congr ?_
    exact and_iff_right ⟨fresh_enter name, trivial⟩
  refine (steps_inScope hround).before fun _ => ?_
  refine (tests_jump next).steps.after fun _ => (steps_moveTo [done] next R).after fun _ => ?_
  refine (tests_load _ _).steps.after fun direction => (tests_advance _ _).steps.after fun _ => ?_
  exact (tests_jump test).steps.after fun _ => steps_moveTo [] done R

theorem tests_entryAt (hloc : loc.file ∈ π) (receiver : Nat) (keys : Option Nat) (position : Nat) :
    Tests Γ π (entryAt loc receiver keys position) True := by
  cases keys with
  | none =>
    exact (tests_load _ _).after fun _ _ => Judges.after (tests_invokeAt hloc (by decide) _) fun _ _ =>
      .pure trivial
  | some keys =>
    exact (tests_load _ _).after fun _ _ => Judges.after (tests_invokeAt hloc (by decide) _) fun _ _ =>
      (tests_load _ _).after fun _ _ => Judges.after (tests_invokeAt hloc (by decide) _) fun _ _ =>
      .pure trivial

theorem steps_walk (hloc : loc.file ∈ π) (receiver : Nat) (keys : Option Nat) (key : Option String)
    (value : String) (done : Nat)
    (hbody : Fills π (Γ.enter.declareAll (key.toList ++ [value])).loop.enter body P names) :
    Steps π ⟨Γ, R, t, l⟩ (walk loc receiver keys key value done body)
      ((key.toList ++ [value]).Nodup ∧ P) fun _ => ⟨Γ, R, t, l⟩ := by
  refine (tests_counter _).steps.after fun index => (tests_load _ _).steps.after fun sequence => ?_
  refine (tests_invokeAt hloc (by decide) _).steps.after fun length => ?_
  refine (steps_block _).after fun test => (steps_block _).after fun inside =>
    (steps_block _).after fun next => ?_
  refine (tests_jump test).steps.after fun _ => (steps_moveTo [next, inside] test R).after fun _ => ?_
  refine (tests_load _ _).steps.after fun current => (tests_compare _ _ _).steps.after fun inRange => ?_
  refine (tests_branch inRange inside done).steps.after fun _ => ?_
  refine (steps_moveTo [next] inside R).after fun _ => ?_
  refine (steps_inScope (show Steps π ⟨Γ.enter, [next] ++ R, t, l⟩ _ _ fun _ =>
    ⟨Γ.enter.declareAll (key.toList ++ [value]), [next] ++ R, t, l⟩ from ?_)).before fun _ => ?_
  · rw [← Surroundings.accepts_enter (Γ := Γ)]
    refine Steps.after (Judges.steps (tests_invoke (by decide) _)) fun position => ?_
    refine (tests_entryAt hloc receiver keys position).steps.after fun entry => ?_
    have hloop := fun R => steps_inLoop (R := R) (t := t) (l := l) done next (steps_inScope (hbody _ _ _))
    cases key with
    | none =>
      refine ((steps_declareVariable value loc (.pure trivial)).bind fun _ => hloop _).congr ?_
      simp [Surroundings.accepts_singleton]
    | some name =>
      refine ((steps_declareVariable name loc (.pure trivial)).bind fun _ =>
        (steps_declareVariable value loc (.pure trivial)).bind fun _ => hloop _).congr ?_
      simp [Surroundings.accepts_cons, Surroundings.accepts_nil, and_assoc]
  · refine (tests_jump next).steps.after fun _ => (steps_moveTo [] next R).after fun _ => ?_
    exact (tests_advance _ _).steps.after fun _ => (tests_jump test).steps

theorem steps_eachLoop (hloc : loc.file ∈ π) (hmsg : eachMessage ∈ π) (key : Option String)
    (value : String) {iterable : Expr} (hiterable : Tests Γ π iterable.lower P1)
    (hbody : Fills π (Γ.enter.declareAll (key.toList ++ [value])).loop.enter body P names) :
    Steps π ⟨Γ, R, t, l⟩ (eachLoop loc key value iterable body)
      (P1 ∧ (key.toList ++ [value]).Nodup ∧ P) fun _ => ⟨Γ, R, t, l⟩ := by
  refine hiterable.steps.bind fun iterable => ?_
  refine tests_hiddenSlot.steps.after fun receiver => (tests_store _ _).steps.after fun _ => ?_
  refine Steps.after (Judges.steps (tests_drafting fun _ _ _ _ hd => hd.register _ _)) fun tag => ?_
  refine Steps.after (Judges.steps (tests_drafting fun _ _ _ _ hd => hd.push rfl)) fun _ => ?_
  refine (steps_block _).after fun array => (steps_block _).after fun notArray =>
    (steps_block _).after fun dict => (steps_block _).after fun invalid =>
    (steps_block _).after fun done => ?_
  refine (tests_compare _ _ _).steps.after fun isArray => ?_
  refine (tests_branch isArray array notArray).steps.after fun _ => ?_
  refine (steps_moveTo [done, invalid, dict] notArray (array :: R)).after fun _ => ?_
  refine (tests_compare _ _ _).steps.after fun isDict => ?_
  refine (tests_branch isDict dict invalid).steps.after fun _ => ?_
  refine (steps_moveTo [done] invalid (dict :: array :: R)).after fun _ => ?_
  refine (tests_string hmsg loc).steps.after fun message => ?_
  refine (tests_raiseValue hloc message).steps.after fun _ => ?_
  refine (steps_moveTo [done, dict] array R).after fun _ => ?_
  refine ((steps_walk hloc receiver none key value done hbody).bind fun _ => ?_).congr
    (iff_of_eq (and_self _))
  refine (steps_moveTo [done] dict R).after fun _ => ?_
  refine (tests_load _ _).steps.after fun whole => ?_
  refine (tests_invokeAt hloc (by decide) _).steps.after fun keys => ?_
  refine tests_hiddenSlot.steps.after fun keysSlot => (tests_store _ _).steps.after fun _ => ?_
  refine (steps_walk hloc receiver (some keysSlot) key value done hbody).before fun _ => ?_
  exact steps_moveTo [] done R

theorem steps_leaveLoop (loc : Location) (problem : Problem)
    (hproblem : ∀ text, problem ≠ .missingConstant text) (dest : LoopTargets → Nat) :
    Steps π ⟨Γ, R, t, l⟩ (leaveLoop loc problem dest) (Γ.inLoop = true) fun _ => ⟨Γ, R, t, l⟩ := by
  intro s hs
  have hinnermost : Succeeds (drafting Draft.innermostLoop) s fun targets s' =>
      targets = l.head? ∧ s'.Tracks π ⟨Γ, R, t, l⟩ :=
    ⟨_, _, rfl, congrArg List.head? hs.draft.loops, hs⟩
  refine .after hinnermost ?_
  rintro _ s1 ⟨rfl, hs1⟩
  refine Decides.congr ?_ hs.loops.symm
  cases l with
  | nil => exact .inr ⟨fun h => h rfl, _, _, rfl, hproblem⟩
  | cons targets rest =>
    refine .inl ⟨nofun, ?_⟩
    refine Succeeds.bind (succeeds_drafting (hs1.draft.unwindTriesTo _)) ?_
    rintro _ s2 ⟨hsame, hd⟩
    have hs2 := hs1.of_same hsame hd
    exact (succeeds_drafting (hd.terminate rfl)).mono fun _ _ h => hs2.of_same h.1 h.2

theorem steps_returnFrom {value : Option Expr} (hval : Tests Γ π (Expr.lowerOption value) P) :
    Steps π ⟨Γ, R, t, l⟩ (returnFrom value) (Γ.inDefinition = true → P) fun _ => ⟨Γ, R, t, l⟩ := by
  intro s hs
  refine .get_bind ?_
  have hkind := hs.kind
  cases hk : s.body.kind with
  | program =>
    have hout : Γ.inDefinition ≠ true := fun h => nomatch (hkind.mpr h).symm.trans hk
    exact ((tests_emitReturn none).steps s hs).congr (iff_of_true trivial fun h => absurd h hout)
  | definition =>
    have hin : Γ.inDefinition = true := hkind.mp hk
    refine Decides.congr ?_ (forall_prop_of_true hin).symm
    exact (hval.steps.before fun r => (tests_emitReturn (some r)).steps) s hs

/-! ## Exceptions and assignments -/

theorem steps_protect (hloc : loc.file ∈ π) (hmark : loc.catchMark ∈ π)
    (hbody : Fills π Γ.enter body P1 names1) (name : String) {handler : Lowering Unit}
    (hhandler : Fills π (Γ.enter.declare name) handler P2 names2) :
    Steps π ⟨Γ, R, t, l⟩ (protect loc body name handler) (P1 ∧ P2) fun _ => ⟨Γ, R, t, l⟩ := by
  refine Steps.after (Judges.steps (tests_invoke (by decide) _)) fun checkpoint => ?_
  refine Steps.after (Judges.steps (tests_drafting fun _ _ _ _ hd => hd.callFor (by decide) _))
    fun resumed => ?_
  refine (steps_block _).after fun inside => (steps_block _).after fun caught =>
    (steps_block _).after fun done => ?_
  refine (tests_compare _ _ _).steps.after fun first => ?_
  refine (tests_branch first inside caught).steps.after fun _ => ?_
  refine (steps_moveTo [done, caught] inside R).after fun _ => steps_enterTry.after fun _ => ?_
  refine (steps_inScope (hbody _ _ _)).bind fun _ => steps_exitTry.after fun _ => ?_
  refine Steps.after (Judges.steps (tests_perform rfl _)) fun _ => ?_
  refine (tests_jump done).steps.after fun _ => (steps_moveTo [done] caught R).after fun _ => ?_
  refine Steps.after (Judges.steps (tests_invoke (by decide) _)) fun exception => ?_
  refine (tests_string hmark loc).steps.after fun mark => ?_
  refine Steps.after (Judges.steps (tests_invokeAt hloc (by decide) _)) fun decorated => ?_
  have hcatch : Steps π ⟨Γ.enter, [done] ++ R, t, l⟩ (do
      let _ ← declareVariable name loc (pure decorated)
      handler) P2 fun _ => ⟨Γ.enter.declareAll (name :: names2), [done] ++ R, t, l⟩ :=
    ((steps_declareVariable name loc (.pure trivial)).bind fun _ => hhandler _ _ _).congr
      (and_iff_right ⟨fresh_enter name, trivial⟩)
  refine (steps_inScope hcatch).before fun _ => ?_
  exact (tests_jump done).steps.after fun _ => steps_moveTo [] done R

theorem steps_assertion (hloc : loc.file ∈ π) {message : Option Expr}
    (hmsg : message = none → assertionMessage ∈ π) (hcond : Tests Γ π condition.lower P1)
    (hlow : ∀ e, message = some e → Tests Γ π e.lower (e.Valid Γ)) :
    Steps π ⟨Γ, R, t, l⟩ (assertion loc condition message)
      (P1 ∧ Expr.ValidOption Γ message) fun _ => ⟨Γ, R, t, l⟩ := by
  refine hcond.steps.bind fun r => (tests_truthy r).steps.after fun truth => ?_
  refine (steps_block _).after fun fails => (steps_block _).after fun passes => ?_
  refine (tests_branch truth passes fails).steps.after fun _ => ?_
  refine (steps_moveTo [passes] fails R).after fun _ => ?_
  have hend : ∀ r, Steps π ⟨Γ, [passes] ++ R, t, l⟩ (do
      raiseValue loc r
      drafting (Draft.moveTo passes)) True fun _ => ⟨Γ, R, t, l⟩ := fun r =>
    (tests_raiseValue hloc r).steps.after fun _ => steps_moveTo [] passes R
  cases message with
  | none =>
    rw [Expr.ValidOption]
    exact (tests_string (hmsg rfl) loc).steps.after hend
  | some e =>
    rw [Expr.ValidOption]
    exact (hlow e rfl).steps.before hend

theorem tests_assignment (hloc : loc.file ∈ π) (target : Expr) {value : Expr}
    (htgt : CoversExprs π target.subterms) (hval : CoversExprs π value.subterms) :
    Tests Γ π (assignment loc target value) (target.ValidTarget Γ ∧ value.Valid Γ) := by
  unfold assignment
  split
  · next loc' name =>
    refine Judges.congr ?_ and_comm
    exact (tests_lower value hval).bind fun _ _ => (tests_resolve name loc).before fun _ _ =>
      tests_store _ _
  · next loc' container position =>
    rw [Expr.subterms, coversExprs_cons, coversExprs_append] at htgt
    refine Judges.congr ?_ and_assoc.symm
    exact (tests_lower container htgt.2.1).bind fun _ _ =>
      (tests_lower position htgt.2.2).bind fun _ _ => (tests_lower value hval).before fun _ _ =>
      tests_performAt hloc rfl _
  · next loc' object name =>
    rw [Expr.subterms, coversExprs_cons] at htgt
    have hname : name ∈ π := htgt.1.2 name (.head _)
    exact (tests_lower object htgt.2).bind fun _ _ => (tests_lower value hval).before fun _ _ =>
      (tests_constant hname loc).after fun _ _ => tests_performAt hloc rfl _
  · next h1 h2 h3 =>
    intro R t l s hs hd
    refine .inr ⟨?_, _, _, rfl, nofun⟩
    rintro ⟨htgt, -⟩
    cases target with
    | ident loc' name => exact h1 loc' name rfl
    | index loc' container position => exact h2 loc' container position rfl
    | member loc' object name => exact h3 loc' object name rfl
    | _ => exact htgt

/-! ## Definitions -/

theorem steps_requireTopLevel (construct : String) (loc : Location) {τ : Unit → Stage}
    (hx : Γ.AtTop → Steps π ⟨Γ, R, t, l⟩ x P τ) :
    Steps π ⟨Γ, R, t, l⟩ (do requireTopLevel construct loc; x) (Γ.AtTop ∧ P) τ := by
  intro s hs
  have hkind : s.body.kind = .program ↔ Γ.inDefinition = false := by
    have hkind := hs.kind
    cases hk : s.body.kind <;> simp_all
  have hdep : s.scope.depth = 0 ↔ Γ.locals = [] := by
    rw [← Scope.length_inner, hs.models.inner.length]
    exact List.length_eq_zero_iff
  have hrequire : Decides (requireTopLevel construct loc) s Γ.AtTop fun _ s' => s = s' := by
    refine .get_bind ?_
    by_cases htop : Γ.AtTop
    · rw [if_pos ⟨hkind.mpr htop.1, hdep.mpr htop.2⟩]
      exact .inl ⟨htop, Succeeds.pure rfl⟩
    · rw [if_neg fun h => htop ⟨hkind.mp h.1, hdep.mp h.2⟩]
      exact .inr ⟨htop, _, _, rfl, fun _ h => by cases h⟩
  refine hrequire.keep.bind ?_
  rintro _ _ ⟨htop, rfl⟩
  exact hx htop s hs

theorem fills_returning (hbody : Fills π Γ body P names) :
    Fills π Γ (returning body) P names := fun _ _ _ =>
  (hbody _ _ _).before fun _ => tests_null.steps.after fun r => (tests_emitReturn (some r)).steps

theorem accepts_params (Γ : Surroundings) (hasReceiver : Bool) :
    (Γ.define hasReceiver).Accepts params ∧
      ((Γ.define hasReceiver).declareAll params).Accepts names ∧ P ↔
    (params ++ names).Nodup ∧ P := by
  rw [← and_assoc, ← Surroundings.accepts_append, Surroundings.accepts_define]

theorem steps_functionBody (htop : Γ.locals = []) (loc : Location) (name : String)
    {params : List String} {body : Lowering Unit}
    (hbody : Fills π ((Γ.define false).declareAll params) body
      (((Γ.define false).declareAll params).Accepts names ∧ P) names) :
    Steps π ⟨Γ, R, t, l⟩ (functionBody loc name params body) ((params ++ names).Nodup ∧ P) fun _ =>
      ⟨Γ, R, t, l⟩ := by
  refine (steps_define htop _ false (params ++ names) ?_).congr (accepts_params Γ false)
  rw [Surroundings.declareAll_append]
  refine (steps_declareParameters loc ?_ params 0).bind fun _ => fills_returning hbody _ _ _
  exact fun _ _ _ => tests_drafting fun _ _ _ _ hd => hd.parameter _ _

theorem steps_methodBody (htop : Γ.locals = []) (symbol : String) (loc : Location)
    {params : List String} {body : Lowering Unit}
    (hbody : Fills π ((Γ.define true).declareAll params) body
      (((Γ.define true).declareAll params).Accepts names ∧ P) names) :
    Steps π ⟨Γ, R, t, l⟩ (methodBody symbol loc params body) ((params ++ names).Nodup ∧ P) fun _ =>
      ⟨Γ, R, t, l⟩ := by
  refine (steps_define htop _ true (params ++ names) ?_).congr (accepts_params Γ true)
  rw [Surroundings.declareAll_append]
  refine steps_receiverParameter.after fun _ => ?_
  have hparameter : ∀ ty name, Tests (Γ.define true) π (drafting (Draft.parameter ty name)) True :=
    fun ty name => tests_drafting fun _ _ _ _ hd => hd.parameter ty name
  refine (hparameter _ _).steps.after fun arguments => (hparameter _ _).steps.after fun _ => ?_
  refine (steps_declareParameters loc ?_ params 0).bind fun _ => fills_returning hbody _ _ _
  exact fun _ _ _ => tests_drafting fun _ _ _ _ hd =>
    (hd.fresh _ _ fun _ => rfl).bind fun _ _ hd => hd.fresh _ _ fun _ => rfl

theorem steps_initializer (htop : Γ.locals = []) (symbol : String) {init : Option Expr}
    (hinit : Tests (Γ.define true) π (Expr.lowerOption init) P) :
    Steps π ⟨Γ, R, t, l⟩ (initializer symbol init) P fun _ => ⟨Γ, R, t, l⟩ :=
  steps_define htop _ true [] (steps_receiverParameter.after fun _ =>
    hinit.steps.before fun r => (tests_emitReturn (some r)).steps)

theorem steps_fields (htop : Γ.locals = []) (cls : String) (slot : Operand) (fs : List FieldDef)
    (hfs : Covers π (fs.flatMap FieldDef.nodes)) :
    Steps π ⟨Γ, R, t, l⟩ (fields cls slot fs)
      (∀ f ∈ fs, Expr.ValidOption (Γ.define true) f.init) fun _ => ⟨Γ, R, t, l⟩ := by
  induction fs with
  | nil => exact (Steps.pure ()).congr (iff_of_true trivial nofun)
  | cons f rest ih =>
    rw [List.flatMap_cons, covers_append, FieldDef.nodes, covers_cons] at hfs
    have hname : f.name ∈ π := hfs.1.1 f.name (.tail _ (.head _))
    rw [List.forall_mem_cons]
    refine (steps_initializer htop _ (tests_lowerOption f.init hfs.1.2)).bind fun _ => ?_
    refine (tests_load _ _).steps.after fun descriptor => (tests_constant hname _).steps.after fun _ => ?_
    exact Steps.after (Judges.steps (tests_perform rfl _)) fun _ => ih hfs.2

theorem tests_addMethod (hname : name ∈ π) (slot : Operand) (symbol : String) (loc : Location)
    (arity : Nat) : Tests Γ π (addMethod slot symbol loc name arity) True :=
  (tests_load _ _).after fun _ _ => (tests_constant hname _).after fun _ _ => tests_perform rfl _

theorem steps_newClass (hname : name ∈ π) (loc : Location) :
    Steps π ⟨Γ, R, t, l⟩ (newClass loc name) (Γ.Fresh name) fun _ => ⟨Γ.declare name, R, t, l⟩ := by
  intro s hs
  have hval : Tests Γ π (do invoke .classNew [← constant name loc]) True :=
    (tests_constant hname loc).after fun _ _ => tests_invoke (by decide) _
  refine ((decides_declareVariable hs name loc hval).congr (iff_of_eq (and_true _))).before ?_
  rintro id s1 ⟨hs1, G, hid⟩
  refine (succeeds_storage hid loc).mono ?_
  rintro _ _ rfl
  exact hs1

/-! ## Statements -/

theorem tests_statementComment (loc : Location) : Tests Γ π (statementComment loc) True := by
  intro R t l s hs hd
  refine .get_bind ?_
  split
  · exact tests_drafting (fun _ _ _ _ hd => hd.push rfl) R t l s hs hd
  · exact .pure ⟨.refl s, hd, trivial⟩

theorem covers_nodes_head (hst : Covers π st.nodes) :
    st.loc.file ∈ π ∧ ∀ text ∈ st.ownConstants, text ∈ π := by
  have hhead : Node.stmt st ∈ st.nodes := by
    cases st <;> rw [Stmt.nodes] <;> exact .head _
  exact List.forall_mem_cons.mp (hst _ hhead)

theorem Fills.scoped {body : List Stmt} {x : Lowering Unit}
    (hx : Fills π Γ.enter x (Γ.enter.Accepts (Stmt.declared body) ∧ Stmt.ValidAll Γ.enter body)
      (Stmt.declared body)) :
    Fills π Γ.enter x ((Stmt.declared body).Nodup ∧ Stmt.ValidAll Γ.enter body)
      (Stmt.declared body) :=
  fun R t l => (hx R t l).congr (and_congr_left fun _ => Surroundings.accepts_enter)

theorem Fills.of_steps (hx : ∀ R t l, Steps π ⟨Γ, R, t, l⟩ x P fun _ => ⟨Γ, R, t, l⟩) :
    Fills π Γ x (Γ.Accepts [] ∧ P) [] :=
  fun R t l => (hx R t l).congr (and_iff_right Surroundings.accepts_nil).symm

theorem Fills.bind {y : Lowering Unit} (hx : Fills π Γ x (Γ.Accepts names1 ∧ P1) names1)
    (hy : Fills π (Γ.declareAll names1) y ((Γ.declareAll names1).Accepts names2 ∧ P2) names2) :
    Fills π Γ (do x; y) (Γ.Accepts (names1 ++ names2) ∧ P1 ∧ P2) (names1 ++ names2) := by
  intro R t l
  rw [Surroundings.declareAll_append, Surroundings.accepts_append]
  refine ((hx R t l).bind fun _ => hy R t l).congr ?_
  constructor
  · rintro ⟨⟨h1, h2⟩, h3, h4⟩
    exact ⟨⟨h1, h3⟩, h2, h4⟩
  · rintro ⟨⟨h1, h3⟩, h2, h4⟩
    exact ⟨⟨h1, h2⟩, h3, h4⟩

theorem fills_lower
    (hcode : Fills π Γ (code st) (Γ.Accepts st.declared?.toList ∧ st.Valid Γ) st.declared?.toList) :
    Fills π Γ st.lower (Γ.Accepts st.declared?.toList ∧ st.Valid Γ) st.declared?.toList := by
  intro R t l
  rw [lower_eq]
  exact (tests_statementComment st.loc).steps.after fun _ => hcode R t l

theorem locals_declare (htop : Γ.locals = []) (name : String) : (Γ.declare name).locals = [] := by
  unfold Surroundings.declare
  rw [htop]

mutual

theorem fills_code (st : Stmt) (hst : Covers π st.nodes) (Γ : Surroundings) :
    Fills π Γ (code st) (Γ.Accepts st.declared?.toList ∧ st.Valid Γ) st.declared?.toList :=
  have hown := covers_nodes_head hst
  match st with
  | .var loc name init => by
    rw [Stmt.nodes, covers_cons] at hst
    rw [Stmt.Valid]
    intro R t l
    refine (Steps.before (steps_declareVariable name loc (tests_lowerOption init hst.2)) fun _ =>
      .pure ()).congr ?_
    exact and_congr_left fun _ => Surroundings.accepts_singleton.symm
  | .assign loc target value => by
    rw [Stmt.nodes, covers_cons, covers_append] at hst
    rw [Stmt.Valid]
    exact .of_steps fun _ _ _ => (tests_assignment hown.1 target hst.2.1 hst.2.2).steps
  | .expr _ e => by
    rw [Stmt.nodes, covers_cons] at hst
    rw [Stmt.Valid]
    exact .of_steps fun _ _ _ => (tests_lower e hst.2).steps.before fun _ => .pure ()
  | .block _ body => by
    rw [Stmt.nodes, covers_cons] at hst
    rw [Stmt.Valid]
    exact .of_steps fun R t l => steps_inScope ((fills_lowerAll body hst.2 Γ.enter).scoped R t l)
  | .branch _ condition positive negative => by
    rw [Stmt.nodes, covers_cons, covers_append, covers_append] at hst
    rw [Stmt.Valid]
    exact .of_steps fun _ _ _ => steps_conditional (tests_lower condition hst.2.1.1)
      (fills_lowerAll positive hst.2.1.2 Γ.enter).scoped (fills_lowerAll negative hst.2.2 Γ.enter).scoped
  | .loop _ condition body => by
    rw [Stmt.nodes, covers_cons, covers_append] at hst
    rw [Stmt.Valid]
    exact .of_steps fun _ _ _ => steps_whileLoop (tests_lower condition hst.2.1)
      (fills_lowerAll body hst.2.2 Γ.loop.enter).scoped
  | .range loc name start stop body => by
    rw [Stmt.nodes, covers_cons, covers_append, covers_append] at hst
    rw [Stmt.Valid]
    exact .of_steps fun _ _ _ => steps_rangeLoop hown.1 name (tests_lower start hst.2.1.1)
      (tests_lower stop hst.2.1.2)
      (fills_lowerAll body hst.2.2 (Γ.enter.declare name).loop.enter).scoped
  | .each loc key value iterable body => by
    rw [Stmt.nodes, covers_cons, covers_append] at hst
    rw [Stmt.Valid]
    exact .of_steps fun _ _ _ => steps_eachLoop hown.1 (hown.2 _ (.head _)) key value
      (tests_lower iterable hst.2.1)
      (fills_lowerAll body hst.2.2 (Γ.enter.declareAll (key.toList ++ [value])).loop.enter).scoped
  | .leave loc => by
    rw [Stmt.Valid]
    exact .of_steps fun _ _ _ => steps_leaveLoop loc .breakOutsideLoop nofun LoopTargets.leave
  | .next loc => by
    rw [Stmt.Valid]
    exact .of_steps fun _ _ _ => steps_leaveLoop loc .continueOutsideLoop nofun LoopTargets.next
  | .ret _ value => by
    rw [Stmt.nodes, covers_cons] at hst
    rw [Stmt.Valid]
    exact .of_steps fun _ _ _ => steps_returnFrom (tests_lowerOption value hst.2)
  | .guarded loc body name handler => by
    rw [Stmt.nodes, covers_cons, covers_append] at hst
    rw [Stmt.Valid]
    -- the name of the exception is declared in the handler's scope, so it counts among its names
    have hhandler : Fills π (Γ.enter.declare name) (Stmt.lowerAll handler)
        ((name :: Stmt.declared handler).Nodup ∧ Stmt.ValidAll (Γ.enter.declare name) handler)
        (Stmt.declared handler) := by
      intro R t l
      refine (fills_lowerAll handler hst.2.2 (Γ.enter.declare name) R t l).congr ?_
      rw [← Surroundings.accepts_enter (Γ := Γ), Surroundings.accepts_cons]
      exact and_congr_left fun _ => (and_iff_right (fresh_enter name)).symm
    exact .of_steps fun _ _ _ => steps_protect hown.1 (hown.2 _ (.head _))
      (fills_lowerAll body hst.2.1 Γ.enter).scoped name hhandler
  | .raise loc value => by
    rw [Stmt.nodes, covers_cons] at hst
    rw [Stmt.Valid]
    exact .of_steps fun _ _ _ => (tests_lower value hst.2).steps.before fun r =>
      (tests_raiseValue hown.1 r).steps
  | .assert loc condition message => by
    rw [Stmt.nodes, covers_cons, covers_append] at hst
    rw [Stmt.Valid]
    refine .of_steps fun _ _ _ => steps_assertion hown.1 ?_ (tests_lower condition hst.2.1) ?_
    · rintro rfl
      exact hown.2 _ (.head _)
    · rintro e rfl
      exact tests_lower e hst.2.2
  | .function loc f => by
    rw [Stmt.nodes, covers_cons, covers_cons] at hst
    rw [Stmt.Valid]
    exact .of_steps fun _ _ _ => steps_requireTopLevel _ loc fun htop =>
      steps_functionBody htop.2 f.loc f.name (fills_lowerAll f.body hst.2.2 _)
  | .classDef loc c => by
    rw [Stmt.nodes, covers_cons, covers_cons, covers_append] at hst
    rw [Stmt.Valid]
    have hname : c.name ∈ π := hst.2.1 c.name (.tail _ (.head _))
    intro R t l
    refine Steps.congr (steps_requireTopLevel _ loc fun htop => (steps_newClass hname c.loc).bind
      fun slot => (steps_fields (locals_declare htop.2 c.name) c.name slot c.fields hst.2.2.1).bind
        fun _ => fills_lowerMethods c.name slot c.methods hst.2.2.2 (locals_declare htop.2 c.name) _ _ _) ?_
    show _ ↔ Γ.Accepts [c.name] ∧ _
    rw [Surroundings.accepts_singleton]
    exact and_left_comm

theorem fills_lowerAll (body : List Stmt) (hbody : Covers π (Stmt.nodesAll body)) (Γ : Surroundings) :
    Fills π Γ (Stmt.lowerAll body) (Γ.Accepts (Stmt.declared body) ∧ Stmt.ValidAll Γ body)
      (Stmt.declared body) :=
  match body with
  | [] => by
    rw [Stmt.lowerAll, Stmt.ValidAll]
    exact .of_steps fun _ _ _ => .pure ()
  | st :: rest => by
    rw [Stmt.nodesAll, covers_append] at hbody
    rw [Stmt.lowerAll, Stmt.ValidAll]
    have hdecld : Stmt.declared (st :: rest) = st.declared?.toList ++ Stmt.declared rest := by
      unfold Stmt.declared
      cases h : st.declared? <;> simp [h]
    rw [hdecld]
    exact (fills_lower (fills_code st hbody.1 Γ)).bind (fills_lowerAll rest hbody.2 _)

theorem fills_lowerMethods (cls : String) (slot : Operand)
    (methods : List (FunctionDef (List Stmt))) (hmeths : Covers π (Stmt.nodesMethods methods))
    {Γ : Surroundings} (htop : Γ.locals = []) (R : List Nat) (t : Nat) (l : List LoopTargets) :
    Steps π ⟨Γ, R, t, l⟩ (Stmt.lowerMethods cls slot methods) (Stmt.ValidMethods Γ methods) fun _ =>
      ⟨Γ, R, t, l⟩ :=
  match methods with
  | [] => by
    rw [Stmt.lowerMethods, Stmt.ValidMethods]
    exact .pure ()
  | f :: rest => by
    rw [Stmt.nodesMethods, covers_cons, covers_append] at hmeths
    rw [Stmt.lowerMethods, Stmt.ValidMethods]
    have hname : f.name ∈ π := hmeths.1 f.name (.tail _ (.head _))
    refine (steps_methodBody htop _ f.loc (fills_lowerAll f.body hmeths.2.1 _)).bind fun _ => ?_
    exact (tests_addMethod hname slot _ f.loc _).steps.after fun _ =>
      fills_lowerMethods cls slot rest hmeths.2.2 htop R t l

end

end Lowering

end Ember
