import Ember.Proofs.Ir.Readiness
import Ember.Proofs.Lowering.Expr
import Ember.Proofs.Lowering.Rules

/-!
# Ember — what a compilation decides

A step of a compilation either goes on or rejects the program, and a rule of the program tree says
which. It never fails in another way: the draft can be written on, scopes are closed that were
opened, and every text that is looked up is in the pool.

Main result: `tests_lower`.
-/

namespace Ember

open Ir (Draft Drafting EntryPoint Typed LoopTargets)

variable {e : EntryPoint} {es : List Expr} {nodes : List Node} {name : String}

/-- A diagnostic about the program, not about a text that is not in the pool. -/
def Diagnostic.Regular (d : Diagnostic) : Prop :=
  ∀ text, d.problem ≠ .missingConstant text

/-- A step goes on if a rule is kept, and rejects the program if it is not. -/
def Decides {α : Type} (x : Lowering α) (s : Session) (P : Prop) (Q : α → Session → Prop) : Prop :=
  (P ∧ ∃ a s', x s = .ok a s' ∧ Q a s') ∨
    (¬ P ∧ ∃ d s', x s = .error (.diagnostic d) s' ∧ d.Regular)

namespace Decides

variable {α β : Type} {s : Session} {P P' : Prop} {x : Lowering α}

theorem mono {Q R : α → Session → Prop} (hx : Decides x s P Q) (hQ : ∀ a s', Q a s' → R a s') :
    Decides x s P R := by
  rcases hx with ⟨hP, a, s', heq, ha⟩ | hx
  · exact .inl ⟨hP, a, s', heq, hQ a s' ha⟩
  · exact .inr hx

theorem congr {Q : α → Session → Prop} (hx : Decides x s P Q) (hP : P ↔ P') : Decides x s P' Q := by
  rw [← propext hP]
  exact hx

theorem keep {Q : α → Session → Prop} (hx : Decides x s P Q) :
    Decides x s P fun a s' => P ∧ Q a s' := by
  rcases hx with ⟨hP, a, s', heq, ha⟩ | hx
  · exact .inl ⟨hP, a, s', heq, hP, ha⟩
  · exact .inr hx

theorem of_succeeds {Q : α → Session → Prop} (hx : Succeeds x s Q) : Decides x s True Q :=
  .inl ⟨trivial, hx⟩

theorem pure {Q : α → Session → Prop} {a : α} (ha : Q a s) : Decides (Pure.pure a) s True Q :=
  .of_succeeds (.pure ha)

theorem bind {f : α → Lowering β} {R : α → Session → Prop} {Q : β → Session → Prop}
    (hx : Decides x s P R) (hf : ∀ a s', R a s' → Decides (f a) s' P' Q) :
    Decides (x >>= f) s (P ∧ P') Q := by
  rcases hx with ⟨hP, a, s1, heq, ha⟩ | ⟨hP, d, s1, heq, hd⟩
  · rcases hf a s1 ha with ⟨hP', b, s2, heq', hb⟩ | ⟨hP', d, s2, heq', hd⟩
    · refine .inl ⟨⟨hP, hP'⟩, b, s2, ?_, hb⟩
      simp only [Bind.bind, EStateM.bind, heq, heq']
    · refine .inr ⟨fun h => hP' h.2, d, s2, ?_, hd⟩
      simp only [Bind.bind, EStateM.bind, heq, heq']
  · refine .inr ⟨fun h => hP h.1, d, s1, ?_, hd⟩
    simp only [Bind.bind, EStateM.bind, heq]

theorem after {f : α → Lowering β} {R : α → Session → Prop} {Q : β → Session → Prop}
    (hx : Succeeds x s R) (hf : ∀ a s', R a s' → Decides (f a) s' P Q) : Decides (x >>= f) s P Q :=
  ((of_succeeds hx).bind hf).congr (iff_of_eq (true_and _))

theorem before {f : α → Lowering β} {R : α → Session → Prop} {Q : β → Session → Prop}
    (hx : Decides x s P R) (hf : ∀ a s', R a s' → Succeeds (f a) s' Q) : Decides (x >>= f) s P Q :=
  (hx.bind fun a s' ha => of_succeeds (hf a s' ha)).congr (iff_of_eq (and_true _))

theorem get_bind {f : Session → Lowering β} {Q : β → Session → Prop} (hf : Decides (f s) s P Q) :
    Decides (MonadState.get >>= f) s P Q :=
  hf

end Decides

/-! ## Sessions -/

/-- The storage of a variable is known: it belongs to the whole program or has a slot of the
function. -/
def Session.Stores (s : Session) (id : Nat) (isGlobal : Prop) : Prop :=
  ∃ b, s.scope.bindings.get? id = some b ∧ (b.isGlobal = true ↔ isGlobal) ∧
    (b.isGlobal = false → ∃ slot, s.body.slots.lookup id = some slot)

/-- Functions have names that are not reserved, and each of them once. -/
structure Surroundings.Sane (Γ : Surroundings) : Prop where
  unreserved : ∀ f ∈ Γ.functions, Unreserved f.1
  distinct : (Γ.functions.map Prod.fst).Nodup

/-- A text that is pooled. -/
instance : Membership String Pool :=
  ⟨fun π text => ∃ id, π.find? text = some id⟩

/-- A session that has registered what the surroundings say, with this pool. -/
structure Session.Provides (Γ : Surroundings) (π : Pool) (s : Session) : Prop where
  sane : Γ.Sane
  pool : s.pool = π
  functions : s.functions.infos.map (fun f => (f.name, f.arity)) = Γ.functions
  classes : ∀ name n, (name, n) ∈ Γ.classes ↔
    (s.classes.find? name).map (·.initArity.getD 0) = some n
  receiver : s.body.receiver.isSome = Γ.hasReceiver

/-- A session in which names mean what the surroundings say. -/
structure Session.Reads (Γ : Surroundings) (π : Pool) (s : Session) : Prop
    extends s.Provides Γ π where
  sees : ∀ name loc, Γ.Sees name → ∃ id, s.scope.resolve name loc = .ok id ∧
    s.Stores id (Γ.SeesGlobal name)
  blind : ∀ name loc, ¬ Γ.Sees name → s.scope.resolve name loc = .error (.of loc (.undeclared name))

variable {Γ : Surroundings} {π : Pool} {R : List Nat} {t : Nat} {l : List LoopTargets}
  {s s' : Session} {α β : Type} {P P' : Prop}

theorem Session.Reads.of_same (hs : s.Reads Γ π) (h : s.Same s') : s'.Reads Γ π := by
  obtain ⟨d, rfl⟩ := h
  exact { hs with }

namespace Lowering

/-- A step that writes to the current function only goes on exactly if a rule is kept. -/
def Judges (Γ : Surroundings) (π : Pool) (x : Lowering α) (P : Prop) (A : α → Prop) : Prop :=
  ∀ R t l s, s.Reads Γ π → s.body.draft.Ready R t l →
    Decides x s P fun a s' => s.Same s' ∧ s'.body.draft.Ready R t l ∧ A a

/-- Such a step of which only the rule matters. -/
abbrev Tests (Γ : Surroundings) (π : Pool) (x : Lowering α) (P : Prop) : Prop :=
  Judges Γ π x P fun _ => True

namespace Judges

variable {x : Lowering α} {A : α → Prop}

theorem congr (hx : Judges Γ π x P A) (hP : P ↔ P') : Judges Γ π x P' A :=
  fun R t l s hs hd => (hx R t l s hs hd).congr hP

theorem pure {a : α} (ha : A a) : Judges Γ π (Pure.pure a) True A :=
  fun _ _ _ s _ hd => .pure ⟨.refl s, hd, ha⟩

theorem bind {f : α → Lowering β} {C : β → Prop} (hx : Judges Γ π x P A)
    (hf : ∀ a, A a → Judges Γ π (f a) P' C) : Judges Γ π (x >>= f) (P ∧ P') C := by
  intro R t l s hs hd
  refine (hx R t l s hs hd).bind ?_
  rintro a s1 ⟨hsame, hd1, ha⟩
  refine (hf a ha R t l s1 (hs.of_same hsame) hd1).mono ?_
  rintro b s2 ⟨hsame', hd2, hb⟩
  exact ⟨hsame.trans hsame', hd2, hb⟩

theorem after {f : α → Lowering β} {C : β → Prop} (hx : Judges Γ π x True A)
    (hf : ∀ a, A a → Judges Γ π (f a) P C) : Judges Γ π (x >>= f) P C :=
  (hx.bind hf).congr (iff_of_eq (true_and _))

theorem before {f : α → Lowering β} {C : β → Prop} (hx : Judges Γ π x P A)
    (hf : ∀ a, A a → Judges Γ π (f a) True C) : Judges Γ π (x >>= f) P C :=
  (hx.bind hf).congr (iff_of_eq (and_true _))

end Judges

theorem succeeds_drafting {x : Drafting α} {Q : α → Draft → Prop}
    (hx : Succeeds x s.body.draft Q) :
    Succeeds (drafting x) s fun a s' => s.Same s' ∧ Q a s'.body.draft := by
  obtain ⟨a, d, heq, ha⟩ := hx
  refine ⟨a, _, ?_, ⟨d, rfl⟩, ha⟩
  unfold drafting
  rw [heq]

theorem tests_drafting {x : Drafting α}
    (hx : ∀ R t l d, Draft.Ready R t l d → Succeeds x d fun _ d' => d'.Ready R t l) :
    Tests Γ π (drafting x) True :=
  fun R t l _ _ hd => .of_succeeds ((succeeds_drafting (hx R t l _ hd)).mono
    fun _ _ h => ⟨h.1, h.2, trivial⟩)

/-! ## Constants and calls -/

variable {loc : Location} {text : String}

theorem tests_constant (htext : text ∈ π) (loc : Location) : Tests Γ π (constant text loc) True := by
  intro R t l s hs hd
  obtain ⟨id, hid⟩ := htext
  refine .of_succeeds (.get_bind ?_)
  unfold Pool.lookup
  rw [hs.pool, hid]
  exact .pure ⟨.refl s, hd, trivial⟩

theorem tests_site (hloc : loc.file ∈ π) : Tests Γ π (site loc) True :=
  (tests_constant hloc loc).after fun _ _ => .pure trivial

theorem tests_invoke (he : e.result ≠ .void) (arguments : List Typed) :
    Tests Γ π (invoke e arguments) True :=
  tests_drafting fun _ _ _ _ hd => hd.callFor (show (Ir.Callee.entry e).result ≠ .void from he) arguments

theorem tests_perform (he : e.result = .void) (arguments : List Typed) :
    Tests Γ π (perform e arguments) True :=
  tests_drafting fun _ _ _ _ hd => hd.callVoid (show (Ir.Callee.entry e).result = .void from he) arguments

theorem tests_invokeAt (hloc : loc.file ∈ π) (he : e.result ≠ .void) (arguments : List Typed) :
    Tests Γ π (invokeAt loc e arguments) True :=
  (tests_site hloc).after fun _ _ => tests_invoke he _

theorem tests_performAt (hloc : loc.file ∈ π) (he : e.result = .void) (arguments : List Typed) :
    Tests Γ π (performAt loc e arguments) True :=
  (tests_site hloc).after fun _ _ => tests_perform he _

theorem tests_string (htext : text ∈ π) (loc : Location) : Tests Γ π (string text loc) True :=
  (tests_constant htext loc).after fun _ _ => tests_invoke (by decide) _

theorem tests_null : Tests Γ π null True :=
  tests_invoke (by decide) _

theorem tests_truthy (r : Nat) : Tests Γ π (truthy r) True :=
  tests_invoke (by decide) _

theorem tests_constantValue (literal : Literal)
    (hliteral : ∀ text, literal = .str text → text ∈ π) (loc : Location) :
    Tests Γ π (constantValue loc literal) True := by
  cases literal with
  | str text => exact tests_string (hliteral text rfl) loc
  | int | float | bool | null => exact tests_invoke (by decide) _

theorem tests_invert (truth : Nat) : Tests Γ π (invert truth) True := by
  refine Judges.after (tests_drafting fun _ _ _ _ hd => hd.register _ _) fun _ _ => ?_
  refine Judges.after (tests_drafting fun _ _ _ _ hd => hd.push rfl) fun _ _ => ?_
  exact tests_invoke (by decide) _

theorem tests_binaryOp (hloc : loc.file ∈ π) (op : BinaryOp) (lhs rhs : Nat) :
    Tests Γ π (binaryOp loc op lhs rhs) True := by
  cases op with
  | apply op => exact tests_invokeAt hloc (by decide) _
  | isIn => exact tests_invokeAt hloc (by decide) _
  | notIn =>
    exact (tests_invokeAt hloc (by decide) _).after fun _ _ =>
      (tests_truthy _).after fun _ _ => tests_invert _

theorem tests_unaryOp (hloc : loc.file ∈ π) (op : UnaryOp) (operand : Nat) :
    Tests Γ π (unaryOp loc op operand) True := by
  cases op with
  | not => exact (tests_truthy _).after fun _ _ => tests_invert _
  | negate =>
    exact (tests_invoke (by decide) _).after fun _ _ => tests_invokeAt hloc (by decide) _

theorem tests_fill (buffer : Nat) (values : List Nat) (i : Nat) :
    Tests Γ π (fill buffer i values) True := by
  induction values generalizing i with
  | nil => exact .pure trivial
  | cons r rest ih =>
    refine Judges.after (tests_drafting fun _ _ _ _ hd => hd.fresh _ _ fun _ => rfl) fun _ _ => ?_
    exact Judges.after (tests_drafting fun _ _ _ _ hd => hd.push rfl) fun _ _ => ih (i + 1)

theorem tests_marshal (values : List Nat) : Tests Γ π (marshal values) True := by
  refine Judges.after (tests_drafting fun _ _ _ _ hd => hd.storage _ _ fun _ => rfl) fun _ _ => ?_
  exact (tests_fill _ values 0).after fun _ _ => .pure trivial

theorem tests_math (hloc : loc.file ∈ π) (op : Ir.MathOp) (r : Nat) :
    Tests Γ π (math loc op r) True := by
  refine (tests_invokeAt hloc (by decide) _).after fun x _ => ?_
  refine Judges.after (tests_drafting fun _ _ _ _ hd =>
    hd.callFor (show (Ir.Callee.intrinsic (.math op)).result ≠ .void from nofun) _) fun y _ => ?_
  exact tests_invoke (by decide) _

/-! ## Names -/

theorem succeeds_storage {id : Nat} {G : Prop} (hid : s.Stores id G) (loc : Location) :
    Succeeds (storage id loc) s fun _ s' => s' = s := by
  obtain ⟨b, hb, -, hslot⟩ := hid
  refine .get_bind ?_
  unfold Table.get
  rw [hb]
  refine Succeeds.bind (R := fun b' s' => b' = b ∧ s' = s) ⟨b, s, rfl, rfl, rfl⟩ ?_
  rintro _ _ ⟨rfl, rfl⟩
  split
  · exact .pure rfl
  · next hlocal =>
    obtain ⟨slot, hslot⟩ := hslot (by simpa using hlocal)
    rw [hslot]
    exact .pure rfl

theorem tests_resolve (name : String) (loc : Location) :
    Tests Γ π (resolve name loc) (Γ.Sees name) := by
  intro R t l s hs hd
  refine .get_bind ?_
  by_cases hsees : Γ.Sees name
  · obtain ⟨id, hid, hstores⟩ := hs.sees name loc hsees
    rw [hid]
    refine .inl ⟨hsees, Succeeds.bind (R := fun i s' => i = id ∧ s' = s) ⟨id, s, rfl, rfl, rfl⟩ ?_⟩
    rintro _ _ ⟨rfl, rfl⟩
    refine (succeeds_storage hstores loc).mono ?_
    rintro _ _ rfl
    exact ⟨.refl _, hd, trivial⟩
  · rw [hs.blind name loc hsees]
    exact .inr ⟨hsees, _, _, rfl, nofun⟩

/-- What is known of the arguments of a target that was found. -/
def Target.Takes : Target → Nat → Prop
  | .math _, supplied => supplied = 1
  | .builtin _, _ | .function _, _ => True

theorem mathOp_ofName?_iff {op : Ir.MathOp} :
    Ir.MathOp.ofName? name = some op ↔ op.name = name := by
  constructor
  · intro h
    simpa using List.find?_some h
  · rintro rfl
    cases op <;> decide

theorem builtin_ofName?_iff {b : Ir.Builtin} :
    Ir.Builtin.ofName? name = some b ↔ b.name = name := by
  constructor
  · intro h
    simpa using List.find?_some h
  · rintro rfl
    cases b <;> decide

/-- Mathematical operations come first, then builtins, then the functions of the program. -/
theorem calls_iff (hΓ : Γ.Sane) (name : String) (supplied : Nat) :
    Γ.Calls name supplied ↔ match Ir.MathOp.ofName? name, Ir.Builtin.ofName? name with
      | some _, _ => supplied = 1
      | none, some b => ∀ arity, b.arity? = some arity → supplied = arity
      | none, none => (name, supplied) ∈ Γ.functions := by
  unfold Surroundings.Calls
  split
  · next op hop =>
    have hop := mathOp_ofName?_iff.mp hop
    refine ⟨?_, fun h => .inl ⟨op, hop, h⟩⟩
    rintro (⟨-, -, h⟩ | ⟨b, hb, -⟩ | h)
    · exact h
    · have hdisjoint : b.name ≠ op.name := by cases b <;> cases op <;> decide
      exact absurd (hb.trans hop.symm) hdisjoint
    · exact absurd hop ((hΓ.unreserved _ h).2 op)
  · next b hop hb =>
    refine ⟨?_, fun h => .inr (.inl ⟨b, builtin_ofName?_iff.mp hb, h⟩)⟩
    rintro (⟨op, hop', -⟩ | ⟨b', hb', h⟩ | h)
    · rw [mathOp_ofName?_iff.mpr hop'] at hop
      cases hop
    · obtain rfl : b' = b := Option.some.inj ((builtin_ofName?_iff.mpr hb').symm.trans hb)
      exact h
    · exact absurd (builtin_ofName?_iff.mp hb) ((hΓ.unreserved _ h).1 b)
  · next hop hb =>
    refine ⟨?_, fun h => .inr (.inr h)⟩
    rintro (⟨op, hop', -⟩ | ⟨b, hb', -⟩ | h)
    · rw [mathOp_ofName?_iff.mpr hop'] at hop
      cases hop
    · rw [builtin_ofName?_iff.mpr hb'] at hb
      cases hb
    · exact h

theorem mem_functions_iff (hs : s.Reads Γ π) (name : String) (supplied : Nat) :
    (name, supplied) ∈ Γ.functions ↔ ∃ f, s.functions.find? name = some f ∧ f.arity = supplied := by
  constructor
  · intro h
    rw [← hs.functions] at h
    obtain ⟨f, hf, heq⟩ := List.mem_map.mp h
    obtain ⟨rfl, rfl⟩ := Prod.mk.inj heq
    cases hfind : s.functions.find? f.name with
    | none => exact absurd (beq_self_eq_true f.name) (List.find?_eq_none.mp hfind f hf)
    | some f' =>
      refine ⟨f', rfl, ?_⟩
      have hname : f'.name = f.name := by simpa using List.find?_some hfind
      have hmem : (f.name, f'.arity) ∈ Γ.functions := by
        rw [← hs.functions, ← hname]
        exact List.mem_map_of_mem (f := fun f : FunctionInfo => (f.name, f.arity))
          (List.mem_of_find?_eq_some hfind)
      have hmem' : (f.name, f.arity) ∈ Γ.functions := by
        rw [← hs.functions]
        exact List.mem_map_of_mem (f := fun f : FunctionInfo => (f.name, f.arity)) hf
      exact congrArg Prod.snd (List.inj_on_of_nodup_map hs.sane.distinct hmem hmem' rfl)
  · rintro ⟨f, hfind, rfl⟩
    have hname : f.name = name := by simpa using List.find?_some hfind
    rw [← hs.functions, ← hname]
    exact List.mem_map_of_mem (f := fun f : FunctionInfo => (f.name, f.arity))
      (List.mem_of_find?_eq_some hfind)

theorem judges_target (loc : Location) (name : String) (supplied : Nat) :
    Judges Γ π (target loc name supplied) (Γ.Calls name supplied) (·.Takes supplied) := by
  intro R t l s hs hd
  have hcalls := calls_iff hs.sane name supplied
  unfold target
  cases hop : Ir.MathOp.ofName? name with
  | some op =>
    rw [hop] at hcalls
    refine Decides.congr ?_ hcalls.symm
    simp only
    split
    · next h => exact .inl ⟨h, Succeeds.pure ⟨.refl s, hd, h⟩⟩
    · next h => exact .inr ⟨h, _, _, rfl, fun _ h => by cases h⟩
  | none =>
    cases hb : Ir.Builtin.ofName? name with
    | some b =>
      simp only [hop, hb] at hcalls
      refine Decides.congr ?_ hcalls.symm
      simp only
      cases b.arity? with
      | none => exact .inl ⟨(by simp), Succeeds.pure ⟨.refl s, hd, trivial⟩⟩
      | some arity =>
        simp only
        split
        · next h =>
          exact .inl ⟨fun _ heq => h.trans (Option.some.inj heq), Succeeds.pure ⟨.refl s, hd, trivial⟩⟩
        · next h => exact .inr ⟨fun hall => h (hall arity rfl), _, _, rfl, fun _ h => by cases h⟩
    | none =>
      rw [hop, hb] at hcalls
      refine Decides.congr ?_ (hcalls.trans (mem_functions_iff hs name supplied)).symm
      refine .get_bind ?_
      unfold Functions.checkCall
      cases hfind : s.functions.find? name with
      | none => exact .inr ⟨(by simp), _, _, rfl, fun _ h => by cases h⟩
      | some f =>
        simp only
        split
        · next h => exact .inl ⟨⟨f, rfl, h⟩, Succeeds.pure ⟨.refl s, hd, trivial⟩⟩
        · next h =>
          exact .inr ⟨fun hx => hx.elim fun f' hf' => h (Option.some.inj hf'.1 ▸ hf'.2), _, _, rfl,
            fun _ h => by cases h⟩

theorem tests_callTarget (hloc : loc.file ∈ π) {target : Target} {arguments : List Nat}
    (htgt : target.Takes arguments.length) : Tests Γ π (callTarget loc target arguments) True := by
  cases target with
  | math op =>
    obtain ⟨r, rfl⟩ := List.length_eq_one_iff.mp htgt
    exact tests_math hloc op r
  | builtin b => exact (tests_marshal _).after fun _ _ => tests_invokeAt hloc (by cases b <;> decide) _
  | function name =>
    exact tests_drafting fun _ _ _ _ hd =>
      hd.callFor (show (Ir.Callee.function (functionSymbol name)).result ≠ .void from nofun) _

theorem tests_checkConstruction (loc : Location) (cls : Expr) (supplied : Nat) :
    Tests Γ π (checkConstruction loc cls supplied)
      (∀ loc name, cls = .ident loc name → Γ.Constructs name supplied) := by
  intro R t l s hs hd
  have hdone : ∀ {P : Prop}, P → Decides (pure () : Lowering Unit) s P fun _ s' =>
      s.Same s' ∧ s'.body.draft.Ready R t l ∧ True := fun hP =>
    (Decides.pure ⟨.refl s, hd, trivial⟩).congr (iff_of_true trivial hP)
  unfold checkConstruction
  split
  · next loc' name =>
    refine .get_bind ?_
    -- only a name that means a global class says what its constructor takes
    by_cases hsees : Γ.Sees name
    · obtain ⟨id, hid, b, hb, hglob, -⟩ := hs.sees name loc hsees
      have hcls := hs.classes name
      generalize harity : (s.classes.find? name).map (·.initArity.getD 0) = arity at hcls
      rw [hid]
      simp only [Table.get, hb]
      refine Decides.congr (P := b.isGlobal = true → ∀ n, arity = some n → supplied = n) ?_ ?_
      · refine Decides.after (R := fun b' s' => b = b' ∧ s = s') ⟨b, s, rfl, rfl, rfl⟩ ?_
        rintro _ _ ⟨rfl, rfl⟩
        split
        · next h =>
          cases hfind : s.classes.find? name with
          | none =>
            rw [hfind] at harity
            refine hdone fun _ n hn => ?_
            cases harity.trans hn
          | some info =>
            rw [hfind] at harity
            simp only
            split
            · next heq => exact hdone fun _ n hn => heq.symm.trans (Option.some.inj (harity.trans hn))
            · next hne =>
              refine .inr ⟨fun hall => hne (hall h _ harity.symm).symm, _, _, rfl, ?_⟩
              intro f hf
              cases hf
        · next h => exact hdone fun h' => absurd h' h
      · constructor
        · rintro h loc'' name' heq hseesGlobal n hn
          obtain ⟨-, rfl⟩ := Expr.ident.inj heq
          exact h (hglob.mpr hseesGlobal) n ((hcls n).mp hn)
        · intro h hisGlobal n hn
          exact h loc' name rfl (hglob.mp hisGlobal) n ((hcls n).mpr hn)
    · rw [hs.blind name loc hsees]
      refine hdone ?_
      intro loc'' name' heq hglob
      obtain ⟨-, rfl⟩ := Expr.ident.inj heq
      exact absurd (.inr hglob.2) hsees
  · next h => exact hdone fun loc' name heq => absurd heq (h loc' name)

/-! ## Expressions -/

/-- The texts of these nodes are pooled. -/
def Covers (π : Pool) (nodes : List Node) : Prop :=
  ∀ n ∈ nodes, ∀ text ∈ n.constants, text ∈ π

theorem covers_cons {n : Node} :
    Covers π (n :: nodes) ↔ (∀ text ∈ n.constants, text ∈ π) ∧ Covers π nodes :=
  List.forall_mem_cons

theorem covers_append {nodes' : List Node} :
    Covers π (nodes ++ nodes') ↔ Covers π nodes ∧ Covers π nodes' :=
  List.forall_mem_append

/-- The texts of these expressions are pooled. -/
def CoversExprs (π : Pool) (es : List Expr) : Prop :=
  Covers π (es.map .expr)

theorem coversExprs_cons {e : Expr} : CoversExprs π (e :: es) ↔
    (e.loc.file ∈ π ∧ ∀ text ∈ e.ownConstants, text ∈ π) ∧ CoversExprs π es := by
  unfold CoversExprs
  rw [List.map_cons, covers_cons, Node.constants, List.forall_mem_cons]

theorem coversExprs_append {es' : List Expr} :
    CoversExprs π (es ++ es') ↔ CoversExprs π es ∧ CoversExprs π es' := by
  unfold CoversExprs
  rw [List.map_append, covers_append]

mutual

theorem tests_lower (e : Expr) (he : CoversExprs π e.subterms) :
    Tests Γ π e.lower (e.Valid Γ) :=
  match e with
  | .literal loc literal => by
    rw [Expr.subterms, coversExprs_cons] at he
    rw [Expr.lower, Expr.Valid]
    refine tests_constantValue literal ?_ loc
    rintro text rfl
    exact he.1.2 text (.head _)
  | .ident loc name => by
    rw [Expr.lower, Expr.Valid]
    exact (tests_resolve name loc).before fun _ _ =>
      tests_drafting fun _ _ _ _ hd => hd.fresh _ _ fun _ => rfl
  | .this loc => by
    rw [Expr.lower, Expr.Valid]
    intro R t l s hs hd
    refine .get_bind ?_
    have hrecv := hs.receiver
    cases hr : s.body.receiver with
    | some r =>
      rw [hr] at hrecv
      exact .inl ⟨hrecv.symm, Succeeds.pure ⟨.refl s, hd, trivial⟩⟩
    | none =>
      rw [hr] at hrecv
      exact .inr ⟨fun h => Bool.noConfusion (hrecv.trans h), _, _, rfl, nofun⟩
  | .array loc elements => by
    rw [Expr.subterms, coversExprs_cons] at he
    rw [Expr.lower, Expr.Valid]
    exact (judges_lowerAll elements he.2).before fun rs _ =>
      (tests_marshal rs).after fun _ _ => tests_invoke (by decide) _
  | .dict loc entries => by
    rw [Expr.subterms, coversExprs_cons] at he
    rw [Expr.lower, Expr.Valid]
    exact (tests_invoke (by decide) _).after fun dict _ =>
      (tests_lowerEntries he.1.1 dict entries he.2).before fun _ _ => .pure trivial
  | .binary loc op lhs rhs => by
    rw [Expr.subterms, coversExprs_cons, coversExprs_append] at he
    rw [Expr.lower, Expr.Valid]
    exact (tests_lower lhs he.2.1).bind fun _ _ =>
      (tests_lower rhs he.2.2).before fun _ _ => tests_binaryOp he.1.1 op _ _
  | .unary loc op operand => by
    rw [Expr.subterms, coversExprs_cons] at he
    rw [Expr.lower, Expr.Valid]
    exact (tests_lower operand he.2).before fun _ _ => tests_unaryOp he.1.1 op _
  | .index loc target position => by
    rw [Expr.subterms, coversExprs_cons, coversExprs_append] at he
    rw [Expr.lower, Expr.Valid]
    exact (tests_lower target he.2.1).bind fun _ _ =>
      (tests_lower position he.2.2).before fun _ _ => tests_invokeAt he.1.1 (by decide) _
  | .slice loc target start stop => by
    rw [Expr.subterms, coversExprs_cons, coversExprs_append, coversExprs_append] at he
    rw [Expr.lower, Expr.Valid]
    exact (tests_lower target he.2.1.1).bind fun _ _ =>
      (tests_lowerOption start he.2.1.2).bind fun _ _ =>
        (tests_lowerOption stop he.2.2).before fun _ _ => tests_invokeAt he.1.1 (by decide) _
  | .member loc target name => by
    rw [Expr.subterms, coversExprs_cons] at he
    rw [Expr.lower, Expr.Valid]
    have hname : name ∈ π := he.1.2 name (.head _)
    exact (tests_lower target he.2).before fun _ _ =>
      (tests_constant hname loc).after fun _ _ => tests_invokeAt he.1.1 (by decide) _
  | .call loc name arguments => by
    rw [Expr.subterms, coversExprs_cons] at he
    rw [Expr.lower, Expr.Valid]
    refine (judges_target loc name arguments.length).bind fun target htgt => ?_
    refine (judges_lowerAll arguments he.2).before fun rs hrs => ?_
    exact tests_callTarget he.1.1 (hrs ▸ htgt)
  | .methodCall loc target name arguments => by
    rw [Expr.subterms, coversExprs_cons, coversExprs_append] at he
    rw [Expr.lower, Expr.Valid]
    have hname : name ∈ π := he.1.2 name (.head _)
    exact (tests_lower target he.2.1).bind fun _ _ =>
      (judges_lowerAll arguments he.2.2).before fun rs _ => (tests_marshal rs).after fun _ _ =>
        (tests_constant hname loc).after fun _ _ => tests_invokeAt he.1.1 (by decide) _
  | .construct loc cls arguments => by
    rw [Expr.subterms, coversExprs_cons, coversExprs_append] at he
    rw [Expr.lower, Expr.Valid]
    exact (tests_checkConstruction loc cls arguments.length).bind fun _ _ =>
      (tests_lower cls he.2.1).bind fun _ _ => (judges_lowerAll arguments he.2.2).before fun rs _ =>
        (tests_marshal rs).after fun _ _ => tests_invokeAt he.1.1 (by decide) _

theorem judges_lowerAll (es : List Expr) (hes : CoversExprs π (Expr.subtermsAll es)) :
    Judges Γ π (Expr.lowerAll es) (Expr.ValidAll Γ es) fun rs => es.length = rs.length :=
  match es with
  | [] => by
    rw [Expr.lowerAll, Expr.ValidAll]
    exact .pure rfl
  | e :: rest => by
    rw [Expr.subtermsAll, coversExprs_append] at hes
    rw [Expr.lowerAll, Expr.ValidAll]
    exact (tests_lower e hes.1).bind fun _ _ =>
      (judges_lowerAll rest hes.2).before fun _ hrs => .pure (congrArg Nat.succ hrs)

theorem tests_lowerEntries {loc : Location} (hloc : loc.file ∈ π) (dict : Nat)
    (entries : List (Expr × Expr)) (hes : CoversExprs π (Expr.subtermsEntries entries)) :
    Tests Γ π (Expr.lowerEntries loc dict entries) (Expr.ValidEntries Γ entries) :=
  match entries with
  | [] => by
    rw [Expr.lowerEntries, Expr.ValidEntries]
    exact .pure trivial
  | (key, value) :: rest => by
    rw [Expr.subtermsEntries, coversExprs_append, coversExprs_append] at hes
    rw [Expr.lowerEntries, Expr.ValidEntries]
    exact (tests_lower key hes.1.1).bind fun _ _ => (tests_lower value hes.1.2).bind fun _ _ =>
      (tests_performAt hloc rfl _).after fun _ _ => tests_lowerEntries hloc dict rest hes.2

theorem tests_lowerOption (e : Option Expr) (he : CoversExprs π (Expr.subtermsOption e)) :
    Tests Γ π (Expr.lowerOption e) (Expr.ValidOption Γ e) :=
  match e with
  | none => by
    rw [Expr.lowerOption, Expr.ValidOption]
    exact tests_null
  | some e => by
    rw [Expr.subtermsOption] at he
    rw [Expr.lowerOption, Expr.ValidOption]
    exact tests_lower e he

end

end Lowering

end Ember
