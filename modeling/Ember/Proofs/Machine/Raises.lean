import Ember.Machine.Step
import Ember.Proofs.Host.Tame

/-!
# Ember — what raises

Instructions raise only through the operations of the host, and these take the innermost checkpoint
and cut both stacks to what it recorded.

Main result: `fair_perform`.
-/

namespace Ember.Host

variable {α β : Type} {x : Act α} {f : α → Act β}

/-! ## Actions that never raise -/

/-- An action that never raises. -/
def Quiet (x : Act α) : Prop :=
  ∀ h v g, x h ≠ .error (.raise v) g

namespace Quiet

theorem pure (a : α) : Quiet (Pure.pure a : Act α) :=
  fun _ _ _ => nofun

theorem fault (f : Fault) : Quiet (Host.fault f : Act α) :=
  fun _ _ _ => nofun

theorem get : Quiet (MonadState.get : Act Host) :=
  fun _ _ _ => nofun

theorem onStack (f : Stack → Stack) : Quiet (Host.onStack f) :=
  fun _ _ _ => nofun

theorem bind (hx : Quiet x) (hf : ∀ a, Quiet (f a)) : Quiet (x >>= f) := by
  intro h v g heq
  rw [bind_apply] at heq
  split at heq
  · exact hf _ _ _ _ heq
  · next hx' =>
    cases heq
    exact hx _ _ _ hx'

theorem sound (r : Except Fault α) : Quiet (Host.sound r) := by
  cases r with
  | ok a => exact .pure a
  | error f => exact .fault f

theorem inspect (f : Heap → Except Fault α) : Quiet (Host.inspect f) := by
  intro h v g heq
  unfold Host.inspect at heq
  split at heq
  · cases heq
  · cases heq

theorem load (slot : Nat) : Quiet (Host.load slot) := by
  refine .bind .get fun h => ?_
  split
  · exact .pure _
  · exact .fault _

theorem store (slot : Nat) (v : Value) : Quiet (Host.store slot v) := by
  intro h w g heq
  unfold Host.store at heq
  split at heq
  · cases heq
  · cases heq

end Quiet

/-! ## Actions whose raises take a checkpoint -/

/-- An action whose raises take the innermost checkpoint. -/
def Fair (x : Act α) : Prop :=
  ∀ h v g, h.Orderly → x h = .error (.raise v) g → Raised v h g

namespace Fair

theorem of_tame (hx : Tame x) : Fair x := by
  intro h v g ho heq
  have hlvs := hx.leaves h ho
  rw [heq] at hlvs
  exact hlvs.2

theorem of_quiet (hx : Quiet x) : Fair x :=
  fun h v g _ heq => absurd heq (hx h v g)

theorem bind (hx : Tame x) (hf : ∀ a, Fair (f a)) : Fair (x >>= f) := by
  intro h v g ho heq
  have hlvs := hx.leaves h ho
  rw [bind_apply] at heq
  split at heq
  · next hx' =>
    rw [hx'] at hlvs
    exact hlvs.2.raised (hf _ _ _ _ hlvs.1 heq)
  · next hx' =>
    cases heq
    rw [hx'] at hlvs
    exact hlvs.2

theorem bind_quiet (hx : Fair x) (hf : ∀ a, Quiet (f a)) : Fair (x >>= f) := by
  intro h v g ho heq
  rw [bind_apply] at heq
  split at heq
  · exact absurd heq (hf _ _ _ _)
  · next hx' =>
    cases heq
    exact hx _ _ _ ho hx'

theorem restoring (vs : List Value) {f : Host → Act α} (hf : ∀ h, Fair (f h)) :
    Fair (do
      let h ← MonadState.get
      Host.restoring h.stack.depth do
        Host.onStack fun s => s.pushValues vs
        f h) := by
  intro h v g ho heq
  rw [get_bind] at heq
  unfold Host.restoring at heq
  split at heq
  · cases heq
  · next hx =>
    cases heq
    exact (hf _ (h.spilled vs) v _ (ho.withStack _) hx).unspilled

end Fair

theorem fair_begin (cls : Value) (arguments : List Value) (site : Location) :
    Fair (begin cls arguments site) := by
  cases cls with
  | cls a =>
    refine .restoring arguments fun h => .bind tame_allocateDict fun fields => ?_
    refine .bind (.withFrame _ (tame_allocateInst a fields)) fun i => .of_quiet ?_
    exact .bind (.onStack _) fun _ => .bind (.inspect _) fun _ => .pure _
  | int | float | null | bool | str | array | dict | inst => exact .of_tame (tame_failure _ _)

end Ember.Host

namespace Ember.Machine

open Host (Quiet Fair Tame)

variable {x : Act Unit}

theorem tame_load (slot : Nat) : Tame (Host.load slot) := by
  refine .bind .get fun h => ?_
  split
  · exact .pure _
  · exact .fault _

theorem tame_valuesAt (q : Pointer) (count : Int64) : Tame (valuesAt q count) := by
  unfold valuesAt
  split
  · exact .ite (.mapM tame_load _) (.fault _)
  · exact .fault _

theorem tame_answerValue {x : Act Value} (hx : Tame x) : Tame (answerValue x) :=
  hx.bind fun _ => .pure _

theorem tame_answerVoid (hx : Tame x) : Tame (answerVoid x) :=
  hx.bind fun _ => .pure _

theorem quiet_answerVoid (hx : Quiet x) : Quiet (answerVoid x) :=
  hx.bind fun _ => .pure _

theorem fair_callSited (e : Ir.EntryPoint) (arguments : List Scalar)
    (text : Scalar → Except Fault String) (site : Location) :
    Fair (callSited e arguments text site) := by
  unfold callSited
  split
  · exact .of_tame ((Host.tame_toInt _ _).bind fun _ => .pure _)
  · exact .of_tame ((Host.tame_toFloat _ _).bind fun _ => .pure _)
  · split
    · exact .of_tame (tame_answerValue (Host.tame_operate _ _ _ _))
    · exact .of_quiet (.fault _)
  · exact .of_tame (tame_answerValue (Host.tame_contains _ _ _))
  · exact .of_tame (tame_answerValue (Host.tame_indexGet _ _ _))
  · exact .of_tame (tame_answerVoid (Host.tame_indexSet _ _ _ _))
  · exact .of_tame (tame_answerValue (Host.tame_slice _ _ _ _))
  · exact .of_tame ((Host.tame_length _ _).bind fun _ => .pure _)
  · exact .of_tame (tame_answerValue (Host.tame_dictKeys _ _))
  · exact .of_tame (.bind (.sound _) fun _ => tame_answerValue (Host.tame_memberGet _ _ _ _))
  · exact .of_tame (.bind (.sound _) fun _ => tame_answerVoid (Host.tame_memberSet _ _ _ _ _))
  · refine .of_tame (.bind (.sound _) fun _ => .bind (tame_valuesAt _ _) fun _ => ?_)
    exact (Host.tame_methodFor _ _ _ _ _).bind fun _ => .pure _
  · exact .bind (tame_valuesAt _ _) fun _ => (Host.fair_begin _ _ _).bind_quiet fun _ => .pure _
  · exact .of_tame (Host.tame_raise _ _)
  · refine .of_tame (.bind (tame_valuesAt _ _) fun _ => ?_)
    exact tame_answerValue (Host.tame_builtin _ _ _)
  · exact .of_quiet (.fault _)

theorem fair_callPlain (image : Image) (e : Ir.EntryPoint) (arguments : List Scalar) :
    Fair (callPlain image e arguments) := by
  have hflt : Fair (Host.fault .badCall : Act Effect) := .of_quiet (.fault _)
  -- what is not called with arguments of its kind fails
  cases e with
  | gcInit | null =>
    cases arguments with
    | nil => exact .of_quiet (.pure _)
    | cons => exact hflt
  | dictNew =>
    cases arguments with
    | nil => exact .of_tame (tame_answerValue Host.tame_newDict)
    | cons => exact hflt
  | tryPush =>
    cases arguments with
    | nil => exact .of_quiet (.bind (fun _ _ _ => nofun) fun _ => .bind .get fun _ => .pure _)
    | cons => exact hflt
  | tryPop =>
    cases arguments with
    | nil => exact .of_quiet (.bind (fun _ _ _ => nofun) fun _ => .pure _)
    | cons => exact hflt
  | currentException =>
    cases arguments with
    | nil => exact .of_quiet (.bind .get fun _ => .pure _)
    | cons => exact hflt
  | setStackBottom =>
    rcases arguments with _ | ⟨_ | _ | _ | (_ | _ | _ | _ | _ | _) | _, _ | _⟩
    all_goals first | exact hflt | exact .of_quiet (quiet_answerVoid (.onStack _))
  | pushRoot =>
    rcases arguments with _ | ⟨_ | _ | _ | q | _, _ | _⟩
    all_goals try exact hflt
    refine .of_quiet (.bind (.sound _) fun _ => quiet_answerVoid (.bind .get fun h => ?_))
    split
    · exact fun _ _ _ => nofun
    · exact fun _ _ _ => nofun
  | popRoots =>
    rcases arguments with _ | ⟨_ | n | _ | _ | _, _ | _⟩
    all_goals try exact hflt
    refine .of_quiet (quiet_answerVoid (.bind .get fun h => ?_))
    split
    · exact fun _ _ _ => nofun
    · exact fun _ _ _ => nofun
  | setArgs =>
    rcases arguments with _ | ⟨_ | n | _ | _ | _, _ | ⟨_ | _ | _ | (_ | _ | _ | _ | _ | _) | _, _ | _⟩⟩
    all_goals try exact hflt
    unfold callPlain
    dsimp only
    split
    · exact .of_quiet (quiet_answerVoid fun _ _ _ => nofun)
    · exact hflt
  | int | bool =>
    rcases arguments with _ | ⟨_ | n | _ | _ | _, _ | _⟩
    all_goals first | exact hflt | exact .of_quiet (.pure _)
  | float =>
    rcases arguments with _ | ⟨_ | _ | x | _ | _, _ | _⟩
    all_goals first | exact hflt | exact .of_quiet (.pure _)
  | string =>
    rcases arguments with _ | ⟨t, _ | _⟩
    all_goals try exact hflt
    exact .of_tame (.bind (.sound _) fun _ => tame_answerValue (Host.tame_string _))
  | truthy =>
    rcases arguments with _ | ⟨v | _ | _ | _ | _, _ | _⟩
    all_goals first | exact hflt | exact .of_tame (.bind (.inspect _) fun _ => .pure _)
  | arrayNew =>
    rcases arguments with _ | ⟨_ | _ | _ | q | _, _ | ⟨_ | n | _ | _ | _, _ | _⟩⟩
    all_goals try exact hflt
    exact .of_tame (.bind (tame_valuesAt _ _) fun _ => tame_answerValue (Host.tame_newArray _))
  | classNew =>
    rcases arguments with _ | ⟨t, _ | _⟩
    all_goals try exact hflt
    exact .of_tame (.bind (.sound _) fun _ => tame_answerValue (Host.tame_newClass _))
  | classAddField =>
    rcases arguments with _ | ⟨v | _ | _ | _ | _, _ | ⟨t, _ | ⟨_ | _ | _ | (_ | _ | _ | f | _ | _) | _,
      _ | ⟨_ | n | _ | _ | _, _ | _⟩⟩⟩⟩
    all_goals try exact hflt
    exact .of_tame (.bind (.sound _) fun _ => tame_answerVoid (Host.tame_changeClass _ _))
  | classAddMethod =>
    rcases arguments with _ | ⟨v | _ | _ | _ | _, _ | ⟨t, _ | ⟨_ | _ | _ | (_ | _ | _ | f | _ | _) | _,
      _ | ⟨_ | k | _ | _ | _, _ | ⟨_ | n | _ | _ | _, _ | _⟩⟩⟩⟩⟩
    all_goals try exact hflt
    exact .of_tame (.bind (.sound _) fun _ => tame_answerVoid (Host.tame_changeClass _ _))
  | _ => exact hflt

theorem fair_callEntry (image : Image) (e : Ir.EntryPoint) (arguments : List Scalar) :
    Fair (callEntry image e arguments) := by
  have hbody : Fair (callBody image e arguments) := by
    unfold callBody
    split
    · split
      · exact .bind (.sound _) fun _ => fair_callSited _ _ _ _
      · exact .of_quiet (.fault _)
    · exact fair_callPlain _ _ _
  have hanswered : ∀ effect, Quiet (answered e effect) := by
    intro effect
    unfold answered
    split
    · split
      · exact .pure _
      · exact .fault _
    · exact .pure _
  unfold callEntry
  split
  · exact hbody.bind_quiet hanswered
  · exact .of_quiet (.fault _)

theorem fair_performCall (image : Image) (dest : Option Nat) (callee : Ir.Callee)
    (arguments : List Scalar) : Fair (performCall image dest callee arguments) := by
  unfold performCall
  split
  · exact fair_callEntry _ _ _
  · split
    · exact .of_quiet (.pure _)
    · exact .of_quiet (.fault _)
  · exact .of_quiet (.pure _)
  · exact .of_quiet (.fault _)
  · exact .of_quiet (.pure _)

theorem quiet_loadFrom (ty : Ir.Ty) (q : Pointer) : Quiet (loadFrom ty q) := by
  unfold loadFrom
  split
  · exact .bind (.sound _) fun _ => .bind (.load _) fun _ => .pure _
  · exact .bind .get fun _ => .bind (.sound _) fun _ => .pure _
  · exact .fault _

theorem quiet_storeTo (s : Scalar) (q : Pointer) : Quiet (storeTo s q) := by
  cases s with
  | value v =>
    cases q with
    | values slots offset => exact .bind (.sound _) fun _ => .store _ _
    | word | text | function | checkpoint | arguments => exact .fault _
  | int n =>
    cases q with
    | word depth =>
      intro h v g heq
      unfold storeTo at heq
      dsimp only at heq
      split at heq
      · cases heq
      · cases heq
    | values | text | function | checkpoint | arguments => exact .fault _
  | float | ptr | void => exact .fault _

theorem fair_perform (image : Image) (a : Activation) (i : Ir.Instr) : Fair (perform image a i) := by
  cases i with
  | call dest ty callee arguments => exact .bind (.sound _) fun _ => fair_performCall _ _ _ _
  | alloca dest ty count =>
    rw [perform]
    split
    · exact .of_quiet (.pure _)
    · split
      · exact .of_quiet (.pure _)
      · exact .of_quiet (.fault _)
  | load dest ty source =>
    exact .of_quiet (.bind (.sound _) fun _ => .bind (quiet_loadFrom _ _) fun _ => .pure _)
  | store value dest =>
    refine .of_quiet (.bind (.sound _) fun _ => .bind (.sound _) fun _ => ?_)
    exact .bind (quiet_storeTo _ _) fun _ => .pure _
  | extract dest aggregate index =>
    exact .of_quiet (.bind (.sound _) fun _ => .bind (.sound _) fun _ => .pure _)
  | element dest ty base index =>
    refine .of_quiet (.bind (.sound _) fun _ => .bind (.sound _) fun _ => ?_)
    exact .bind (.sound _) fun _ => .pure _
  | compare dest predicate lhs rhs =>
    exact .of_quiet (.bind (.sound _) fun _ => .bind (.sound _) fun _ => .pure _)
  | arith dest op lhs rhs =>
    exact .of_quiet (.bind (.sound _) fun _ => .bind (.sound _) fun _ => .pure _)
  | branch condition positive negative => exact .of_quiet (.bind (.sound _) fun _ => .pure _)
  | jump dest => exact .of_quiet (.pure _)
  | ret value =>
    cases value with
    | none => exact .of_quiet (.pure _)
    | some value => exact .of_quiet (.bind (.sound _) fun _ => .pure _)
  | unreachable => exact .of_quiet (.fault _)
  | comment text => exact .of_quiet (.pure _)

theorem quiet_setjmp (image : Image) (a : Activation) (dest : Option Nat) (ty : Ir.Ty)
    (arguments : List Ir.Typed) :
    Quiet (perform image a (.call dest ty (.intrinsic .setjmp) arguments)) := by
  refine .bind (.sound _) fun ss => ?_
  rcases ss with _ | ⟨_ | _ | _ | (_ | _ | _ | _ | _ | _) | _, _ | _⟩
  all_goals try exact .fault _
  unfold performCall
  dsimp only
  split
  · exact .pure _
  · exact .fault _

end Ember.Machine
