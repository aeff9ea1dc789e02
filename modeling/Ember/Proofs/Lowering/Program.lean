import Ember.Proofs.Lowering.Registration

/-!
# Ember — every function of a module fits a certificate

The functions of a compiled program are certified, the main one last and with the slots of all global
variables registered, and whatever the code refers to is defined. Where a statement begins in the
finished code, as many regions are open as protected bodies enclose it in its function.

Main result: `exists_placed`.
-/

namespace Ember

open Ir (Draft Drafting Convention Cert Interface trailOf)

variable {annotate : Bool} {c' : Cert} {g : Ir.Function} {m : Ir.Module} {body l : List Stmt}
  {C D : Lowering Unit → Lowering Unit} {e n : Nat} {p : Program} {t : Session} {st : Stmt}

/-- A module whose functions fit certificates, and which defines all that its interface names. -/
structure Ir.Module.Certified (I : Interface) (κ : Ir.Function → Convention × Cert)
    (m : Ir.Module) : Prop where
  texts : m.texts.size = I.texts
  functions : ∀ f ∈ m.functions, f.Certified I m.globals (κ f).1 (κ f).2
  defined : ∀ (k : Convention) (symbol : String), k.Names I symbol → ∃ f ∈ m.functions, f.symbol = symbol
  arities : ∀ symbol n n', I.HasFunction symbol n → I.HasFunction symbol n' → n = n'

open Classical in
theorem Ir.Module.Certified.update {I : Interface} {κ : Ir.Function → Convention × Cert}
    (hm : m.Certified I κ) {k : Convention} {c : Cert} (hg : g.Certified I m.globals k c) :
    m.Certified I (Function.update κ g (k, c)) where
  texts := hm.texts
  functions f hf := by
    by_cases h : f = g
    · rw [h, Function.update_self]
      exact hg
    · rw [Function.update_of_ne h]
      exact hm.functions f hf
  defined := hm.defined
  arities := hm.arities

namespace Lowering

variable {I : Interface} {k : Convention} {c : Cert} {s s' : Session} {α : Type}

/-! ## Before the first statement -/

/-- The word that marks the bottom of the stack. -/
def stackBottom : Drafting Nat := do
  let bottom ← Draft.register .ptr (some "stack.bottom")
  Draft.pushPrologue (.alloca bottom .i64 1)
  return bottom

theorem openMain_eq : openMain = (do
    let argc ← Draft.parameter .i32 "argc"
    let argv ← Draft.parameter .ptr "argv"
    Draft.pushPrologue .gcInit
    let bottom ← stackBottom
    Draft.pushPrologue (.call none .void (.entry .setStackBottom) [.ptr bottom])
    Draft.pushPrologue (.call none .void (.entry .setArgs) [⟨.i32, .reg argc⟩, .ptr argv])) := by
  simp only [openMain, stackBottom, Ir.Instr.gcInit, bind_assoc, pure_bind]

theorem yields_parameter_blocks (ty : Ir.Ty) (name : String) (d : Draft) :
    Yields (Draft.parameter ty name) d fun _ d' => d'.blocks = d.blocks := by
  intro r d' heq
  cases heq
  rfl

theorem yields_openMain : Yields openMain (Draft.start "main" .i32) fun _ d => ∃ c,
    d.Sound I [] .main 0 c ∧ d.tryDepth = 0 ∧ c.owed = [] ∧ c.inputs.length = 2 := by
  rw [openMain_eq]
  refine (Yields.and (Draft.yields_parameter (Draft.sound_startMain (I := I)) .argc rfl rfl rfl)
    (yields_parameter_blocks _ _ _)).bind ?_
  rintro argc d1 ⟨⟨c1, h1, hargc, hinputs1⟩, hblocks1⟩
  refine (Yields.and (Draft.yields_parameter h1.sound .vector rfl rfl (by rw [hinputs1]; rfl))
    (yields_parameter_blocks _ _ _)).bind ?_
  rintro argv d2 ⟨⟨c2, h2, hargv, hinputs2⟩, hblocks2⟩
  have hempty : trailOf d2.blocks 0 = [] := by
    rw [hblocks2, hblocks1]
    rfl
  have hins : c2.inputs = [argc, argv] := by
    rw [hinputs2, hinputs1]
    rfl
  refine (Draft.yields_pushPrologue h2.sound .gcInit rfl rfl).bind ?_
  rintro _ d3 ⟨h3, htrail3⟩
  rw [hempty] at htrail3
  refine (Draft.yields_storage h3.sound (ρ := .cell) ⟨nofun, rfl⟩ (fun _ => rfl) (fun _ => rfl)
    fun _ _ _ hr hfresh _ => .cell (by decide) hr hfresh).bind ?_
  rintro bottom d4 ⟨c4, h4, hbot, htrail4⟩
  rw [htrail3] at htrail4
  refine (Draft.yields_pushPrologue h4.sound (.bottom rfl hbot htrail4) rfl rfl).bind ?_
  rintro _ d5 ⟨h5, -⟩
  have hle := h4.follows.le
  have hinput : ∀ r, r ∈ c2.inputs → r ∈ c4.inputs := fun r hr => hle.2.2.1.subset hr
  refine (Draft.yields_pushPrologue h5.sound (.setArgs rfl ((hargc.mono h2.follows.le).mono hle)
    (hargv.mono hle) ⟨hinput _ (by simp [hins]), hinput _ (by simp [hins])⟩) rfl rfl).mono ?_
  rintro _ d6 ⟨h6, -⟩
  have hall := (h1.trans h2).trans (h3.trans (h4.trans (h5.trans h6)))
  refine ⟨c4, hall.sound, hall.follows.tryDepth, hall.owed, ?_⟩
  obtain ⟨ρs, hρs, hroles⟩ := hall.sound.inputs
  have hupper := hroles.length_le
  have hlow := hle.2.2.1.length_le
  rw [← hρs.length_eq] at hupper
  rw [hins] at hlow
  exact Nat.le_antisymm hupper hlow

/-- What precedes the first statement of a program. -/
def prepare (p : Program) : Lowering Unit := do
  p.forM registerItem
  modify fun s => { s with pool := p.pool }
  drafting openMain

theorem program_eq (p : Program) :
    program p = (do
      prepare p
      Stmt.lowerAll p
      drafting (Draft.emitReturn none)
      finishBody) := by
  simp only [program, prepare, bind_assoc]

/-- The session before the first statement. -/
structure Prepared (p : Program) (c : Cert) (s : Session) : Prop where
  sound : s.Sound p.interface .main c
  tryDepth : s.body.draft.tryDepth = 0
  finished : s.finished = []
  owed : c.owed = []
  full : c.inputs.length = Convention.main.roles.length
  distinct : p.Distinct

theorem yields_prepare (p : Program) (annotate : Bool) :
    Yields (prepare p) (start annotate) fun _ s => ∃ c, Prepared p c s := by
  refine (yields_registerItems p annotate).bind fun _ s1 hs1 => ?_
  refine .modify_bind ?_
  have hdr : s1.body.draft = Draft.start "main" .i32 := by rw [hs1.body]
  refine (yields_drafting (s := { s1 with pool := p.pool }) (hdr ▸ yields_openMain (I := p.interface))).mono ?_
  rintro _ _ ⟨⟨d, rfl⟩, c, hd, hdep, howed, hfull⟩
  refine ⟨c, ⟨?_, ?_, ?_, ?_, ?_, nofun, ?_, rfl, fun f hf => hs1.calls hf⟩, hdep, hs1.finished,
    howed, hfull, hs1.program⟩
  · show d.Sound _ s1.globals .main d.tryDepth c
    rw [hs1.globals, hdep]
    exact hd
  · show s1.body.kind = .program ↔ _
    simp [hs1.body]
  · show ∀ p ∈ s1.body.slots, _
    simp [hs1.body]
  · show ∀ r, s1.body.receiver = some r → _
    simp [hs1.body]
  · show ∀ i b, s1.scope.bindings.get? i = some b → _
    rw [hs1.bindings]
    exact fun i b hget => nomatch hget
  · show ∀ f ∈ s1.finished, _
    rw [hs1.finished]
    exact nofun

/-! ## Certified modules -/

theorem yields_conclude (hs : s.Sound I .main c) (howed : c.owed = [])
    (hfull : c.inputs.length = Convention.main.roles.length) :
    Yields (do drafting (Draft.emitReturn none); finishBody) s fun _ s' => ∃ main c', c ≤ c' ∧
      main.Certified I s.globals .main c' ∧ s'.finished = s.finished ++ [main] ∧
      s'.globals = s.globals ∧ s'.pool = s.pool ∧
      ∀ b, trailOf s.body.draft.blocks b <:+ trailOf main.blocks b := by
  refine Yields.bind (yields_drafting (Draft.yields_emitReturn hs.draft fun h => absurd rfl h)) ?_
  rintro _ _ ⟨⟨d1, rfl⟩, c1, hlvs⟩
  have hf := hlvs.follows
  have hsound : d1.Sound I s.globals .main d1.tryDepth c1 := hf.tryDepth ▸ hlvs.sound
  have hs1 : Session.Sound I .main c1 { s with body := { s.body with draft := d1 } } :=
    hs.withDraft hf.le hsound
  refine (yields_finishBody hs1.draft ⟨hlvs.left, hlvs.owed.trans howed,
    full_mono hs1 hf.le hfull, Nat.zero_le _⟩).mono ?_
  rintro _ _ ⟨main, d2, c2, hle, hmain, -, hgrows, rfl⟩
  exact ⟨main, c2, hf.le.trans hle, hmain, rfl, rfl, rfl, fun b => (hf.grows b).trans (hgrows b)⟩

theorem lower_eq_ok (h : p.lower annotate = .ok m) :
    ∃ s c s' s'', prepare p (start annotate) = .ok () s ∧ Prepared p c s ∧
      Stmt.lowerAll p s = .ok () s' ∧
      (do drafting (Draft.emitReturn none); finishBody) s' = .ok () s'' ∧ m = s''.module := by
  unfold Program.lower at h
  rw [program_eq] at h
  split at h
  · next s'' hrun =>
    obtain ⟨⟨⟩, s, hprepare, hrun⟩ := bind_eq_ok hrun
    obtain ⟨⟨⟩, s', hlow, hrun⟩ := bind_eq_ok hrun
    obtain ⟨c, hs⟩ := yields_prepare p annotate _ _ hprepare
    exact ⟨s, c, s', s'', hprepare, hs, hlow, hrun, (Except.ok.inj h).symm⟩
  · cases h

theorem Prepared.settled (hs : Prepared p c s) (hs' : s'.Sound p.interface .main c') (hle : c ≤ c')
    (hsettl : Settles c c') : c'.owed = [] ∧ c'.inputs.length = Convention.main.roles.length := by
  refine ⟨List.eq_nil_iff_forall_not_mem.mpr fun b hb => ?_, full_mono hs' hle hs.full⟩
  have hb := hsettl.owed b hb
  simp [hs.owed] at hb

theorem certified_of_lower (h : p.lower annotate = .ok m) :
    p.Distinct ∧ ∃ κ, m.Certified p.interface κ := by
  obtain ⟨s, c, s', s'', -, hs, hlow, hrun, rfl⟩ := lower_eq_ok h
  obtain ⟨c', hs', hf', hsettl, hhas⟩ := advances_lowerAll p .main c s hs.sound
    (fun _ st hst => admits_interface hst) _ _ hlow
  obtain ⟨howed, hfull⟩ := hs.settled hs' hf'.le hsettl
  obtain ⟨main, c'', -, hmain, hfin, hglobs, hpool, -⟩ :=
    yields_conclude hs' howed hfull _ _ hrun
  have hall : ∀ f : Ir.Function, ∃ kc : Convention × Cert, f ∈ s''.finished →
      f.Certified p.interface s''.globals kc.1 kc.2 := by
    intro f
    by_cases hf : f ∈ s''.finished
    · rw [hfin] at hf
      rw [hglobs]
      rcases List.mem_append.mp hf with hf | hf
      · obtain ⟨k, c, -, hcert⟩ := hs'.finished f hf
        exact ⟨(k, c), fun _ => hcert⟩
      · exact ⟨(.main, c''), fun _ => List.mem_singleton.mp hf ▸ hmain⟩
    · exact ⟨(.main, c''), fun h => absurd h hf⟩
  choose κ hκ using hall
  refine ⟨hs.distinct, κ, ?_, hκ, fun k symbol hnmd => ?_, fun symbol n n' => hs.distinct.arity_eq⟩
  · show s''.pool.texts.size = _
    rw [hpool]
    exact hs'.texts
  · show ∃ f ∈ s''.finished, _
    rw [hfin]
    by_cases hk : k = .main
    · subst hk
      exact ⟨main, by simp, hmain.named.trans hnmd.symm⟩
    · obtain ⟨st, hst, hsym⟩ := mem_symbols_of_names hk hnmd
      obtain ⟨g, hg, heq⟩ := hhas st hst symbol hsym
      exact ⟨g, List.mem_append_left _ hg, heq⟩

/-! ## Statements inside statements -/

/-- The statements right inside a statement, the code around them, and the number of protected
bodies among what is around them. The body of a loop over elements is compiled twice. -/
inductive Inside : Stmt → (Lowering Unit → Lowering Unit) → List Stmt → Nat → Prop
  | block {loc : Location} {body : List Stmt} : Inside (.block loc body) inScope body 0
  | positive {loc : Location} {condition : Expr} {positive negative : List Stmt} :
      Inside (.branch loc condition positive negative)
        (conditional condition · (Stmt.lowerAll negative)) positive 0
  | negative {loc : Location} {condition : Expr} {positive negative : List Stmt} :
      Inside (.branch loc condition positive negative)
        (conditional condition (Stmt.lowerAll positive)) negative 0
  | loop {loc : Location} {condition : Expr} {body : List Stmt} :
      Inside (.loop loc condition body) (whileLoop condition) body 0
  | range {loc : Location} {name : String} {start stop : Expr} {body : List Stmt} :
      Inside (.range loc name start stop body) (rangeLoop loc name start stop) body 0
  | first {loc : Location} {key : Option String} {value : String} {iterable : Expr}
      {body : List Stmt} : Inside (.each loc key value iterable body)
        (eachLoopOf loc key value iterable · (Stmt.lowerAll body)) body 0
  | second {loc : Location} {key : Option String} {value : String} {iterable : Expr}
      {body : List Stmt} : Inside (.each loc key value iterable body)
        (eachLoopOf loc key value iterable (Stmt.lowerAll body)) body 0
  | guarded {loc : Location} {body : List Stmt} {name : String} {handler : List Stmt} :
      Inside (.guarded loc body name handler)
        (fun x => protect loc x name (Stmt.lowerAll handler)) body 1
  | handler {loc : Location} {body : List Stmt} {name : String} {handler : List Stmt} :
      Inside (.guarded loc body name handler)
        (protect loc (Stmt.lowerAll body) name) handler 0

theorem Inside.code_eq (h : Inside st C body e) : code st = C (Stmt.lowerAll body) := by
  cases h with
  | first => exact eachLoop_eq ..
  | second => exact eachLoop_eq ..
  | _ => rfl

theorem Inside.surrounds (h : Inside st C body e) (hs : s.Sound I k c) :
    Surrounds I k c s C e True fun c' _ => Settles c c' := by
  cases h with
  | block => exact surrounds_inScope hs
  | positive => exact surrounds_positive hs _ (compiles_lowerAll _)
  | negative => exact surrounds_negative hs _ (compiles_lowerAll _)
  | loop => exact surrounds_whileLoop hs _
  | range => exact surrounds_rangeLoop hs _ _ _ _
  | first => exact surrounds_eachFirst hs _ _ _ _ (compiles_lowerAll _)
  | second => exact surrounds_eachSecond hs _ _ _ _ (compiles_lowerAll _)
  | guarded => exact surrounds_guarded hs _ _ (compiles_lowerAll _)
  | handler => exact surrounds_handler hs _ _ (compiles_lowerAll _)

/-- The statements `l` stand somewhere in the statements `body` of a function, under `n` protected
bodies, with the code `C` around them. -/
inductive Encloses (l : List Stmt) : List Stmt → (Lowering Unit → Lowering Unit) → Nat → Prop
  | here : Encloses l l (fun x => x) 0
  | next {st : Stmt} {rest : List Stmt} {C : Lowering Unit → Lowering Unit} {n : Nat}
      (behind : Encloses l rest C n) : Encloses l (st :: rest) (fun x => do st.lower; C x) n
  | into {st : Stmt} {rest body : List Stmt} {C D : Lowering Unit → Lowering Unit} {e n : Nat}
      (inside : Inside st D body e) (deeper : Encloses l body C n) :
      Encloses l (st :: rest) (fun x => do (do statementComment st.loc; D (C x)); Stmt.lowerAll rest) (e + n)

theorem Encloses.lowerAll_eq (h : Encloses l body C n) :
    Stmt.lowerAll body = C (Stmt.lowerAll l) := by
  induction h with
  | here => rfl
  | next behind ih => rw [Stmt.lowerAll, ih]
  | into inside deeper ih => rw [Stmt.lowerAll, lower_eq, inside.code_eq, ih]

theorem inner_eq_nil (hf : Session.Follows k c s c' s') (h : s'.scope.inner = []) :
    s.scope.inner = [] := by
  have hinn := hf.inner
  rw [h] at hinn
  exact List.eq_nil_of_length_eq_zero hinn.symm

theorem Encloses.surrounds (h : Encloses l body C n) (hs : s.Sound I k c)
    (hadm : s.scope.inner = [] → ∀ st ∈ body, Admits I st) :
    Surrounds I k c s C n (s.scope.inner ≠ [] ∨ ¬l <:+ body) fun c' _ => Settles c c' := by
  induction h generalizing c s with
  | here => exact (Surrounds.hole hs).weaken fun h => h.resolve_right (not_not_intro (List.suffix_refl _))
  | next behind ih =>
    refine .before (advances_annotated hs fun c1 s1 hs1 hf1 => advances_code _ k c1 s1 hs1 fun h =>
      hadm (inner_eq_nil hf1 h) _ (.head _)) ?_
    rintro _ c1 s1 hs1 hf1 ⟨hsettl, -⟩
    refine ((ih hs1 fun h st hst => hadm (inner_eq_nil hf1 h) st
      (.tail _ hst)).mono fun c' _ h => hsettl.trans h).weaken fun h => ?_
    refine h.imp (fun h heq => h (inner_eq_nil hf1 heq)) fun h hsuf => h ?_
    exact hsuf.trans (List.suffix_cons ..)
  | @into st rest body C D e n inside deeper ih =>
    have hin : Surrounds I k c s (fun x => do statementComment st.loc; D (C x)) (e + n) True
        fun c' _ => Settles c c' := by
      refine .before (emits_statementComment hs _).advances ?_
      rintro _ c1 s1 hs1 - ⟨hd1, -⟩
      refine (((inside.surrounds hs1).comp fun c2 s2 h2 => (ih h2.sound fun h =>
        absurd h (h2.inner trivial)).weaken False.elim).weaken fun _ => .inl trivial).mono
        fun c' _ h => ?_
      exact (Owes.of_continues hd1).trans h
    refine (Surrounds.after hin fun c1 s1 hs1 hf1 hsettl => ?_).weaken fun _ => trivial
    refine (advances_lowerAll rest k c1 s1 hs1 fun h st' hst' => hadm (inner_eq_nil hf1 h) st'
      (.tail _ hst')).mono fun _ _ _ h => ?_
    exact hsettl.trans h.1

theorem advances_enclosed {c1 : Cert} {s1 : Session}
    (hadm : s.scope.inner = [] → ∀ st ∈ body, Admits I st)
    (h : Enters I k c s c1 s1 n (s.scope.inner ≠ [] ∨ ¬l <:+ body)) :
    Advances I k c1 s1 (Stmt.lowerAll l) fun _ c2 _ => Settles c1 c2 := by
  refine (advances_lowerAll l k c1 s1 h.sound fun hinn st hst => ?_).mono fun _ _ _ h => h.1
  obtain ⟨htop, hsuf⟩ := not_or.mp fun hnested => h.inner hnested hinn
  exact hadm (not_not.mp htop) st ((not_not.mp hsuf).subset hst)

/-! ## Statements of definitions -/

/-- The body of a function or a method that a statement defines, and the code around it. -/
inductive Defines : Stmt → (Lowering Unit → Lowering Unit) → List Stmt → Prop
  | function {loc : Location} {f : FunctionDef (List Stmt)} : Defines (.function loc f) (fun x => do
      requireTopLevel "function definition" loc
      functionBody f.loc f.name f.params x) f.body
  | method {loc : Location} {cls : ClassDef (List Stmt)} {before after : List (FunctionDef (List Stmt))}
      {f : FunctionDef (List Stmt)} (among : cls.methods = before ++ f :: after) :
      Defines (.classDef loc cls) (fun x => do
        requireTopLevel "class definition" loc
        let slot ← newClass cls.loc cls.name
        fields cls.name slot cls.fields
        Stmt.lowerMethods cls.name slot before
        methodBody (memberSymbol "method" cls.name f.name) f.loc f.params x
        addMethod slot (memberSymbol "method" cls.name f.name) f.loc f.name f.params.length
        Stmt.lowerMethods cls.name slot after) f.body

theorem lowerMethods_append (cls : String) (slot : Ir.Operand)
    (before after : List (FunctionDef (List Stmt))) :
    Stmt.lowerMethods cls slot (before ++ after) = (do
      Stmt.lowerMethods cls slot before
      Stmt.lowerMethods cls slot after) := by
  induction before with
  | nil => simp only [List.nil_append, Stmt.lowerMethods, pure_bind]
  | cons f rest ih => simp only [List.cons_append, Stmt.lowerMethods, ih, bind_assoc]

theorem Defines.code_eq (h : Defines st D body) : code st = D (Stmt.lowerAll body) := by
  cases h with
  | function => rfl
  | method among =>
    simp only [code, among, lowerMethods_append, Stmt.lowerMethods]

/-- A function that was being written in the session `t`, under `n` regions, and that is finished in
the session `s`. -/
def Delivered (I : Interface) (n : Nat) (t s : Session) : Prop :=
  ∃ k c c' g, k ≠ .main ∧ t.Sound I k c ∧ t.body.draft.tryDepth = n ∧ c ≤ c' ∧
    g.Certified I s.globals k c' ∧
    (∀ b, trailOf t.body.draft.blocks b <:+ trailOf g.blocks b) ∧
    s.finished[t.finished.length]? = some g

theorem Delivered.mono (h : Delivered I n t s) (hf : Session.Follows .main c s c' s') :
    Delivered I n t s' := by
  obtain ⟨k, c1, c2, g, hk, ht, hdep, hle, hg, hgrows, hat⟩ := h
  refine ⟨k, c1, c2, g, hk, ht, hdep, hle, certified_mono hg hk hf.globals.subset, hgrows, ?_⟩
  obtain ⟨more, hmore⟩ := hf.finished
  rw [← hmore, List.getElem?_append_left (List.getElem?_eq_some_iff.mp hat).1, hat]

/-- Code of the main function around the code of another one. -/
def Delivers (I : Interface) (c : Cert) (s : Session) (D : Lowering Unit → Lowering Unit)
    (x : Lowering Unit) (n : Nat) (Q : Cert → Session → Prop) : Prop :=
  ∀ s', D x s = .ok () s' → ∃ t c', Starts D s t ∧ s'.Sound I .main c' ∧
    Session.Follows .main c s c' s' ∧ Delivered I n t s' ∧ Q c' s'

namespace Delivers

variable {x : Lowering Unit} {n : Nat} {Q R : Cert → Session → Prop}

theorem mono (hD : Delivers I c s D x n R) (hR : ∀ c' s', R c' s' → Q c' s') :
    Delivers I c s D x n Q := by
  intro s' hrun
  obtain ⟨t, c', hsts, hs', hf', ht, hR'⟩ := hD s' hrun
  exact ⟨t, c', hsts, hs', hf', ht, hR c' s' hR'⟩

theorem before {y : Lowering α} {D : α → Lowering Unit → Lowering Unit}
    {P : α → Cert → Session → Prop} (hy : Advances I .main c s y P)
    (hD : ∀ a c1 s1, s1.Sound I .main c1 → Session.Follows .main c s c1 s1 → P a c1 s1 →
      Delivers I c1 s1 (D a) x n Q) :
    Delivers I c s (fun z => y >>= fun a => D a z) x n Q := by
  intro s' hrun
  obtain ⟨a, s1, ha, hrest⟩ := bind_eq_ok hrun
  obtain ⟨c1, hs1, hf1, hP⟩ := hy a s1 ha
  obtain ⟨t, c', hsts, hs', hf', ht, hQ⟩ := hD a c1 s1 hs1 hf1 hP s' hrest
  exact ⟨t, c', fun z r u hz => (bind_of_ok ha).trans (hsts z r u hz), hs', hf1.trans hf', ht, hQ⟩

theorem after {y : Lowering Unit} {D : Lowering Unit → Lowering Unit} (hD : Delivers I c s D x n R)
    (hy : ∀ c1 s1, s1.Sound I .main c1 → Session.Follows .main c s c1 s1 → R c1 s1 →
      Advances I .main c1 s1 y fun _ c' s' => Q c' s') :
    Delivers I c s (fun z => D z >>= fun _ => y) x n Q := by
  intro s' hrun
  obtain ⟨⟨⟩, s1, hx, hrest⟩ := bind_eq_ok hrun
  obtain ⟨t, c1, hsts, hs1, hf1, ht, hR⟩ := hD s1 hx
  obtain ⟨c', hs', hf', hQ⟩ := hy c1 s1 hs1 hf1 hR () s' hrest
  exact ⟨t, c', fun z r u hz => bind_of_error (hsts z r u hz), hs', hf1.trans hf', ht.mono hf',
    hQ⟩

end Delivers

theorem starts_define (s : Session) (symbol : String) :
    Starts (define symbol) s (defining s symbol) := by
  intro x r u hx
  have hsc : inScope x { s with body := { draft := Draft.start symbol .value, kind := .definition } }
      = .error r u := bind_of_error (x := x) hx
  exact (bind_of_ok (x := get) rfl).trans ((bind_of_ok (x := modify _) rfl).trans
    (bind_of_error hsc))

theorem delivers_define (hs : s.Sound I .main c) {symbol : String} (hk : k ≠ .main)
    {F : Lowering Unit → Lowering Unit} {P : Prop} (hP : P)
    (hF : Surrounds I k (Draft.fresh [.result]) (defining s symbol) F 0 P fun c' s' => Completed k c' s')
    (hC : ∀ c1 s1, Enters I k (Draft.fresh [.result]) (defining s symbol) c1 s1 0 P → Surrounds I k c1 s1 C n True fun c2 _ => Settles c1 c2)
    {x : Lowering Unit} (hx : Compiles I x) :
    Delivers I c s (fun y => define symbol (F (C y))) x n fun c' _ => Settles c c' := by
  intro s' hrun
  have hFC : Surrounds I k (Draft.fresh [.result]) (defining s symbol) (fun y => F (C y)) (0 + n)
      (P ∨ True) fun c' s' => Completed k c' s' := hF.comp hC
  have hinn : Advances I k (Draft.fresh [.result]) (defining s symbol) (F (C x)) fun _ c2 u =>
      Completed k c2 u ∧ ∃ t c1, Starts (fun y => F (C y)) (defining s symbol) t ∧
        Enters I k (Draft.fresh [.result]) (defining s symbol) c1 t (0 + n) (P ∨ True) ∧ c1 ≤ c2 ∧
        Grows t u := by
    intro _ u hu
    obtain ⟨t, c1, c2, hsts, ht, hu, hf, hle, hgrows, hcompl⟩ := hFC.run
      (fun c1 s1 h1 => hx k c1 s1 h1.sound (h1.inner (.inl hP))) hu
    exact ⟨c2, hu, hf, hcompl, t, c1, hsts, ht, hle, hgrows⟩
  obtain ⟨hs', hf', -, u, c2, c3, g, ⟨t, c1, hsts, ht, hle, hgrows⟩, hle', hg, hgrows',
    hfin⟩ := yields_define hs hk hinn _ _ hrun
  have hdep : t.body.draft.tryDepth = n := ht.tryDepth.trans (by
    show 0 + (0 + n) = n
    simp)
  have hat : s'.finished[t.finished.length]? = some g := by
    have hlen : t.finished = s.finished := ht.finished hk
    rw [hfin, hlen, List.getElem?_append_right (Nat.le_refl _), Nat.sub_self]
    rfl
  exact ⟨t, c, (starts_define s symbol).comp hsts, hs', hf', ⟨k, c1, c3, g, hk, ht.sound, hdep,
    hle.trans hle', hg, fun b => (hgrows b).trans (hgrows' b), hat⟩, .refl c⟩

theorem Defines.delivers (h : Defines st D body) (hC : Encloses l body C n) (hs : s.Sound I .main c)
    (hadm : Admits I st) :
    Delivers I c s (fun x => D (C x)) (Stmt.lowerAll l) n fun c' _ => Settles c c' := by
  have htop : ∀ construct loc, Advances I .main c s (requireTopLevel construct loc)
      fun _ c' _ => c' = c := fun construct loc => by
    refine Yields.mono (yields_requireTopLevel hs construct loc) ?_
    rintro _ _ ⟨rfl, -⟩
    exact ⟨c, hs, .refl .main c s, rfl⟩
  have hdeeper : ∀ {k c0 s0 c1 s1 e}, Enters I k c0 s0 c1 s1 e (s0.scope.inner ≠ []) →
      s0.scope.inner ≠ [] → Surrounds I k c1 s1 C n True fun c2 _ => Settles c1 c2 := by
    intro k c0 s0 c1 s1 e h1 h0
    exact (hC.surrounds h1.sound fun h => absurd h (h1.inner h0)).weaken fun _ => .inl (h1.inner h0)
  cases h with
  | @function loc f =>
    refine .before (htop _ loc) ?_
    rintro _ c1 s1 hs1 - rfl
    exact delivers_define (k := .function f.params.length) hs1 nofun nofun (surrounds_functionBody
      (sound_defining hs1 nofun ⟨f.name, hadm, rfl⟩) rfl rfl f.loc rfl)
      (fun _ _ h1 => hdeeper h1 nofun) (compiles_lowerAll l)
  | @method loc cls before after f among =>
    obtain ⟨hflds, hmeths⟩ := hadm
    rw [among] at hmeths
    refine .before (htop _ loc) ?_
    rintro _ c1 s1 hs1 - rfl
    refine .before (advances_newClass hs1 cls.loc cls.name) ?_
    rintro slot c2 s2 hs2 - ⟨hslot, hsettles2⟩
    refine .before (advances_fields hs2 cls.name hslot cls.fields hflds) ?_
    rintro _ c3 s3 hs3 hf3 ⟨hsettles3, -⟩
    have hslot := hslot.mono hf3.le hf3.globals.subset
    refine .before (advances_lowerMethods cls.name before hs3 hslot fun f hf =>
      hmeths f (List.mem_append_left _ hf)) ?_
    rintro _ c4 s4 hs4 hf4 ⟨hsettles4, -⟩
    have hslot := hslot.mono hf4.le hf4.globals.subset
    have hnmd := hmeths f (by simp)
    refine .after (delivers_define (k := .method f.params.length) hs4 nofun nofun (surrounds_methodBody
      (sound_defining hs4 nofun ⟨cls.name, f.name, hnmd, rfl⟩) rfl rfl rfl rfl f.loc rfl)
      (fun _ _ h1 => hdeeper h1 nofun) (compiles_lowerAll l)) fun c5 s5 hs5 hf5 hsettles5 => ?_
    have hslot := hslot.mono hf5.le hf5.globals.subset
    refine (emits_addMethod hs5 hslot f.loc hnmd).advances.bind ?_
    rintro _ c6 s6 hs6 hf6 ⟨hd6, -⟩
    refine (advances_lowerMethods cls.name after hs6 (hslot.mono hf6.le hf6.globals.subset)
      fun f hf => hmeths f (by simp [hf])).mono fun _ _ _ h => ?_
    have hsettl := (hsettles2.trans hsettles3).trans (hsettles4.trans hsettles5)
    exact (hsettl.trans (.of_continues hd6)).trans h.1

/-! ## Statements of a program -/

/-- The statements `l` stand somewhere in a program, under `n` protected bodies of their function,
with the code `C` around them. Definitions stand at the top level only. -/
inductive Standing (p : Program) (l : List Stmt) : (Lowering Unit → Lowering Unit) → Nat → Prop
  | main {C : Lowering Unit → Lowering Unit} {n : Nat} (within : Encloses l p C n) : Standing p l C n
  | definition {before after body : List Stmt} {st : Stmt} {C D : Lowering Unit → Lowering Unit}
      {n : Nat} (among : p = before ++ st :: after) (defines : Defines st D body)
      (within : Encloses l body C n) :
      Standing p l (fun x => do
        Stmt.lowerAll before
        (do (do statementComment st.loc; D (C x)); Stmt.lowerAll after)) n

theorem lowerAll_append (before after : List Stmt) :
    Stmt.lowerAll (before ++ after) = (do Stmt.lowerAll before; Stmt.lowerAll after) := by
  induction before with
  | nil => simp only [List.nil_append, Stmt.lowerAll, pure_bind]
  | cons st rest ih => simp only [List.cons_append, Stmt.lowerAll, ih, bind_assoc]

theorem Standing.lowerAll_eq (h : Standing p l C n) : Stmt.lowerAll p = C (Stmt.lowerAll l) := by
  cases h with
  | main within => exact within.lowerAll_eq
  | definition among defines within =>
    rw [among, lowerAll_append, Stmt.lowerAll, lower_eq, defines.code_eq, within.lowerAll_eq]

/-- Code that is begun in a session with `n` regions open, and where it stands in a finished
function. -/
structure Placed (c : Cert) (t : Session) (n : Nat) (g : Ir.Function) : Prop where
  block : t.body.draft.current ≠ 0 ∧ t.body.draft.current ≠ 2
  stands : ∃ x, c.HasContext t.body.draft.current x ∧ (Ir.Ended t.body.draft.trail = false →
    Ir.Steady t.body.draft.trail ∧ Ir.triesAfter x.tries t.body.draft.trail = n)
  grows : t.body.draft.trail <:+ trailOf g.blocks t.body.draft.current

theorem placed_of_sound (ht : t.Sound I k c) (hle : c ≤ c')
    (hgrows : ∀ b, trailOf t.body.draft.blocks b <:+ trailOf g.blocks b) :
    Placed c' t t.body.draft.tryDepth g := by
  obtain ⟨x, hx, -, hopen⟩ := ht.draft.stands
  exact ⟨ht.draft.current, ⟨x, hx.mono hle, hopen⟩, hgrows _⟩

end Lowering

/-- The function of a module that a session was writing. -/
def Session.output (t : Session) (m : Ir.Module) : Option Ir.Function :=
  match t.body.kind with
  | .program => m.functions.getLast?
  | .definition => m.functions[t.finished.length]?

namespace Lowering

variable {p : Program} {l : List Stmt} {C : Lowering Unit → Lowering Unit} {n : Nat}
  {annotate : Bool} {m : Ir.Module}

/-- A statement of a program has its place in a function of the module, and there as many regions are
open as protected bodies enclose the statement. -/
theorem exists_placed (h : p.lower annotate = .ok m) (hstanding : Standing p l C n) :
    ∃ t k c g, Starts (fun x => do prepare p; C x) (start annotate) t ∧ t.output m = some g ∧
      g.Certified p.interface m.globals k c ∧ Placed c t n g := by
  obtain ⟨s, c, s', s'', hprepare, hs, hlow, hrun, rfl⟩ := lower_eq_ok h
  rw [hstanding.lowerAll_eq] at hlow
  have hadm : ∀ st ∈ p, Admits p.interface st := fun st hst => admits_interface hst
  have hstart : ∀ {u}, Starts C s u → Starts (fun x => do prepare p; C x) (start annotate) u :=
    fun hu z r v hz => (bind_of_ok hprepare).trans (hu z r v hz)
  -- outside all definitions the code goes to the main function, which is finished last
  cases hstanding with
  | main within =>
    obtain ⟨u, c1, c2, hu, hu1, hs', hf', hle, hgrows, hsettl⟩ :=
      (within.surrounds hs.sound fun _ => hadm).run
        (fun _ _ => advances_enclosed fun _ => hadm) hlow
    obtain ⟨howed, hfull⟩ := hs.settled hs' hf'.le hsettl
    obtain ⟨main, c3, hle', hmain, hfin, hglobs, -, hgrows'⟩ :=
      yields_conclude hs' howed hfull _ _ hrun
    have hplcd := placed_of_sound hu1.sound (hle.trans hle') fun b =>
      (hgrows b).trans (hgrows' b)
    rw [hu1.tryDepth, hs.tryDepth, Nat.zero_add] at hplcd
    have hmain : main.Certified p.interface s''.globals .main c3 := hglobs.symm ▸ hmain
    refine ⟨u, .main, c3, main, hstart hu, ?_, hmain, hplcd⟩
    rw [Session.output, hu1.sound.kind.mpr rfl]
    show s''.finished.getLast? = some main
    rw [hfin, List.getLast?_concat]
  | @definition before after body st C D n among defines within =>
    have hdelivers : Delivers p.interface c s (fun x => do
        Stmt.lowerAll before
        (do (do statementComment st.loc; D (C x)); Stmt.lowerAll after)) (Stmt.lowerAll l) n
        fun c' _ => Settles c c' := by
      refine .before (advances_lowerAll before .main c s hs.sound fun _ st hst =>
        hadm st (by simp [among, hst])) ?_
      rintro _ c1 s1 hs1 - ⟨hsettles1, -⟩
      refine Delivers.after (R := fun c' _ => Settles c c')
        (.before (emits_statementComment hs1 _).advances ?_) fun c2 s2 hs2 _ hsettles2 => ?_
      · rintro _ c2 s2 hs2 - ⟨hd2, -⟩
        exact (defines.delivers within hs2 (hadm st (by simp [among]))).mono fun c' _ h =>
          (hsettles1.trans (.of_continues hd2)).trans h
      · exact (advances_lowerAll after .main c2 s2 hs2 fun _ st hst =>
          hadm st (by simp [among, hst])).mono fun _ _ _ h => hsettles2.trans h.1
    obtain ⟨u, c', hu, hs', hf', ⟨k, c1, c2, g, hk, hu1, rfl, hle, hg, hgrows, hat⟩, hsettl⟩ :=
      hdelivers s' hlow
    obtain ⟨howed, hfull⟩ := hs.settled hs' hf'.le hsettl
    obtain ⟨main, c3, -, -, hfin, hglobs, -, -⟩ := yields_conclude hs' howed hfull _ _ hrun
    have hg : g.Certified p.interface s''.globals k c2 := hglobs.symm ▸ hg
    refine ⟨u, k, c2, g, hstart hu, ?_, hg, placed_of_sound hu1 hle hgrows⟩
    have hkind : u.body.kind = .definition := by
      cases hkind : u.body.kind with
      | program => exact absurd (hu1.kind.mp hkind) hk
      | definition => rfl
    rw [Session.output, hkind]
    show s''.finished[u.finished.length]? = some g
    rw [hfin, List.getElem?_append_left (List.getElem?_eq_some_iff.mp hat).1, hat]

end Lowering

end Ember
