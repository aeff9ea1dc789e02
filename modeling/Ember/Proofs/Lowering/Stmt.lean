import Ember.Proofs.Lowering.Control

/-!
# Ember — statements fit a certificate

Every statement leaves a sound session sound, with no block more to be written. Functions, methods
and field initializers are written beside the main function, and each is finished with a certificate
of its own.

Main results: `advances_code`, `advances_lowerAll`.
-/

namespace Ember

variable {params : List String} {body : Lowering Unit} {arguments n : Nat} {slot : Operand}
  {t : Session} {cls name : String}

namespace Lowering

open Ir (Draft Convention Cert Role Typed Operand LoopTargets Interface Callee)

variable {I : Interface} {k : Convention} {c c' : Cert} {s s' : Session}

/-! ## Statements without statements inside -/

theorem emits_assignment (hs : s.Sound I k c) (loc : Location) (target value : Expr) :
    Emits I k c s (assignment loc target value) fun _ _ _ => True := by
  unfold assignment
  split
  · refine (emits_lower value hs).bind fun r c1 s1 hs1 _ hr => ?_
    exact Emits.read (yields_resolve hs1 _ loc) fun dest hdest => emits_store hs1 hr hdest
  · next container position =>
    refine (emits_lower container hs).bind fun t c1 s1 hs1 _ ht => ?_
    refine (emits_lower position hs1).bind fun p c2 s2 hs2 hd2 hp => ?_
    refine (emits_lower value hs2).bind fun r c3 s3 hs3 hd3 hr => ?_
    exact (emits_performAt hs3 loc [.value, .value, .value] rfl rfl
      (.cons (ht.mono (hd2.trans hd3)).gives (.cons (hp.mono hd3).gives (.cons hr.gives .nil)))).mono
      fun _ _ _ _ => trivial
  · next object name =>
    refine (emits_lower object hs).bind fun o c1 s1 hs1 _ ho => ?_
    refine (emits_lower value hs1).bind fun r c2 s2 hs2 hd2 hr => ?_
    refine Emits.read (yields_constant hs2 name loc) fun text htext => ?_
    exact (emits_performAt hs2 loc [.value, .text, .value, .int .bit] rfl rfl
      (.cons (ho.mono hd2).gives (.cons htext.gives (.cons hr.gives (.cons .bool .nil))))).mono
      fun _ _ _ _ => trivial
  · exact .throw

theorem advances_assertion (hs : s.Sound I k c) (loc : Location) (condition : Expr)
    (message : Option Expr) :
    Advances I k c s (assertion loc condition message) fun _ c' _ => Settles c c' := by
  refine (emits_lower condition hs).advances.bind ?_
  rintro r c1 s1 hs1 - ⟨hd1, hr⟩
  refine (emits_truthy hs1 hr).advances.bind ?_
  rintro truth c2 s2 hs2 - ⟨hd2, htruth⟩
  refine (advances_block hs2 _ []).bind ?_
  rintro fails c3 s3 hs3 - ⟨hfails, hd3⟩
  refine (advances_block hs3 _ []).bind ?_
  rintro passes c4 s4 hs4 hf4 ⟨hpasses, hd4⟩
  have hfails := hfails.mono hf4 hd4.now
  have howes : Owes c [passes, fails] c4 :=
    .of_continues ((hd1.trans hd2).trans (hd3.trans hd4))
  refine (advances_branch hs4 (htruth.mono (hd3.trans hd4)) hpasses.jump hfails.jump).turn hfails
    fun c6 s6 hs6 hf6 hreach => ?_
  have hraise : ∀ text c7 s7, s7.Sound I k c7 → Session.Follows k c6 s6 c7 s7 →
      Draft.Continues c6 s6.body.draft [] c7 s7.body.draft ∧ s7.body.draft.Holds c7 text .value →
      Advances I k c7 s7 (do raiseValue loc text; drafting (Draft.moveTo passes))
        fun _ c' _ => Settles c c' := ?_
  · cases message with
    | some e => exact (emits_lower e hs6).advances.bind hraise
    | none => exact (emits_string hs6 _ loc).advances.bind hraise
  rintro text c7 s7 hs7 hf7 ⟨hd7, htext⟩
  have hpasses := hpasses.mono (hf6.trans hf7) (hd7.now.trans hreach.now)
  refine ((advances_raiseValue hs7 loc htext).onto hpasses).mono fun _ c8 s8 hreach' => ?_
  have howes := howes.reach [passes] hreach (by simp)
  exact (howes.trans (.of_continues hd7)).reach _ hreach' (by simp)

theorem advances_leaveLoop (hs : s.Sound I k c) (loc : Location) (problem : Problem)
    {dest : LoopTargets → Nat}
    (hdest : ∀ l n, l.Within c n → c.Leads c.now l.tryDepth (dest l)) :
    Advances I k c s (leaveLoop loc problem dest) fun _ c' _ => Settles c c' := by
  refine Yields.bind (yields_drafting (P := fun l d => d = s.body.draft ∧
    l = s.body.draft.loops.head?) (.get_bind (.pure ⟨rfl, rfl⟩))) ?_
  rintro l _ ⟨⟨d, rfl⟩, hd, rfl⟩
  obtain rfl : d = s.body.draft := hd
  cases hhead : s.body.draft.loops.head? with
  | none => exact .throw
  | some targets =>
    have hwtn := hs.draft.loops targets (List.mem_of_head? hhead)
    refine Yields.bind (yields_drafting (Draft.yields_unwindTriesTo hs.draft hwtn.depth)) ?_
    rintro _ _ ⟨⟨d1, rfl⟩, l, hw⟩
    have hleads := (hdest targets _ hwtn).mono hw.follows.le
      (show c.now ⊆ d1.current :: c.now from List.subset_cons_self ..)
    refine Yields.mono (yields_drafting (Draft.yields_jump hw.sound hleads s.body.draft.tryDepth)) ?_
    rintro _ _ ⟨⟨d2, rfl⟩, c2, h2⟩
    have hf := hw.follows.trans h2.follows
    exact ⟨c2, hs.withDraft hf.le (hf.tryDepth ▸ h2.sound), .of_same ⟨d2, rfl⟩ hf, h2.now,
      fun _ hb => .inr (h2.owed ▸ hb)⟩

theorem advances_emitReturn (hs : s.Sound I k c) {value : Option Nat}
    (hval : k ≠ .main → ∃ r, value = some r ∧ s.body.draft.Holds c r .value) :
    Advances I k c s (drafting (Draft.emitReturn value)) fun _ c' s' => Ends c c' s' :=
  advances_leaves hs (Draft.yields_emitReturn hs.draft hval)

theorem advances_return {x : Lowering Nat}
    (hx : Makes I k c s x .value) :
    Advances I k c s (do let r ← x; drafting (Draft.emitReturn (some r))) fun _ c' s' =>
      Ends c c' s' := by
  refine hx.advances.bind ?_
  rintro r c1 s1 hs1 - ⟨hd1, hr⟩
  refine (advances_emitReturn hs1 fun _ => ⟨r, rfl, hr⟩).mono fun _ _ _ h => ?_
  exact ⟨h.left, h.now.trans hd1.now, h.owed.trans hd1.owed⟩

theorem advances_returnFrom (hs : s.Sound I k c) (value : Option Expr) :
    Advances I k c s (returnFrom value) fun _ c' _ => Settles c c' := by
  refine Yields.get_bind ?_
  split
  · next hkind =>
    exact (advances_emitReturn hs fun hk => absurd (hs.kind.mp hkind) hk).mono fun _ _ _ h =>
      Owes.of_ends h
  · exact (advances_return (emits_lowerOption value hs)).mono fun _ _ _ h => Owes.of_ends h

theorem yields_requireTopLevel (hs : s.Sound I k c) (construct : String) (loc : Location) :
    Yields (requireTopLevel construct loc) s fun _ s' => s = s' ∧ k = .main ∧ s.scope.inner = [] := by
  refine .get_bind ?_
  split
  · next h => exact .pure ⟨rfl, hs.kind.mp h.1, Scope.inner_eq_nil_iff.mpr h.2⟩
  · exact .throw

/-! ## Definitions -/

theorem surrounds_returning (hs : s.Sound I k c) :
    Surrounds I k c s returning 0 (s.scope.inner ≠ []) fun c' s' =>
      Settles c c' ∧ s'.body.draft.Left c' := by
  refine Surrounds.after (C := fun x => x) (R := fun c' _ => Settles c c') (.hole hs)
    fun c1 s1 hs1 _ hsettl => ?_
  exact (advances_return (emits_null hs1)).mono fun _ _ _ h =>
    ⟨hsettl.trans (.of_ends h), h.left⟩

theorem full_mono (hs' : s'.Sound I k c') (hle : c ≤ c')
    (hfull : c.inputs.length = k.roles.length) : c'.inputs.length = k.roles.length := by
  obtain ⟨ρs, hρs, hroles⟩ := hs'.draft.inputs
  have hupper := hroles.length_le
  have hlow := hle.2.2.1.length_le
  rw [← hρs.length_eq] at hupper
  omega

theorem surrounds_completed (hs : s.Sound I k c) (howed : c.owed = [])
    (hfull : c.inputs.length = k.roles.length) (hroom : k.passed ≤ c.slots) :
    Surrounds I k c s returning 0 (s.scope.inner ≠ []) fun c' s' => Completed k c' s' := by
  refine (surrounds_returning hs).mono' fun c' s' hs' hf h => ⟨h.2, ?_, full_mono hs' hf.le hfull,
    hroom.trans (Cert.slots_mono hf.le)⟩
  refine List.eq_nil_iff_forall_not_mem.mpr fun b hb => ?_
  have hb := h.1.owed b hb
  simp [howed] at hb

theorem emits_parameter (hs : s.Sound I k c) (ty : Ir.Ty) (name : String) (ρ : Role)
    (hρ : ρ.isStorage = false) (hty : ty = ρ.ty)
    (hplace : k.roles[c.inputs.length]? = some ρ) :
    Emits I k c s (drafting (Draft.parameter ty name)) fun r c' d' => d'.Holds c' r ρ ∧
      c'.inputs = c.inputs ++ [r] ∧ d'.trail = s.body.draft.trail := by
  refine emits_writes hs ((Draft.yields_parameter hs.draft ρ hρ hty hplace).mono ?_)
  rintro r d' ⟨c', hw, hr, hins⟩
  obtain ⟨x, hx, -⟩ := hw.stands
  have hinput : r ∈ c'.inputs := by simp [hins]
  exact ⟨c', _, hw, ⟨hr, x, hx, .inl hinput⟩, hins, hw.trail⟩

theorem advances_functionParameters (hs : s.Sound I (.function n) c) (loc : Location) (i : Nat)
    (params : List String) (hcnt : c.inputs.length + params.length = n) :
    Advances I (.function n) c s (declareParameters loc
      (fun _ p => drafting (Draft.parameter .value ("arg." ++ p))) i params) fun _ c' s' =>
        Draft.Continues c s.body.draft [] c' s'.body.draft ∧ c'.inputs.length = n := by
  induction params generalizing c s i with
  | nil => exact .pure hs ⟨.refl c _, hcnt⟩
  | cons name rest ih =>
    rw [List.length_cons] at hcnt
    have hplace : (Convention.function n).roles[c.inputs.length]? = some Role.value := by
      refine List.getElem?_replicate_of_lt ?_
      omega
    refine (advances_declareVariable (P := fun r c' _ => c'.inputs = c.inputs ++ [r]) hs name loc
      fun s1 hs1 _ => (emits_parameter hs1 .value ("arg." ++ name) .value rfl rfl hplace).mono
        fun _ _ _ h => ⟨h.1, h.2.1⟩).bind ?_
    rintro _ c2 s2 hs2 - ⟨-, hd2, r, o, c1, d1, hinputs1, -, hinputs2, -⟩
    refine (ih hs2 (i + 1) ?_).mono fun _ _ _ h => ⟨hd2.trans h.1, h.2⟩
    rw [hinputs2, hinputs1, List.length_append, List.length_singleton]
    omega

theorem surrounds_functionBody (ht : t.Sound I (.function n) c) (howed : c.owed = [])
    (hins : c.inputs = []) (loc : Location) (hcnt : params.length = n) :
    Surrounds I (.function n) c t (fun x => do
      declareParameters loc (fun _ p => drafting (Draft.parameter .value ("arg." ++ p))) 0 params
      returning x) 0 (t.scope.inner ≠ []) fun c' s' => Completed (.function n) c' s' := by
  refine .before (advances_functionParameters ht loc 0 params (by simp [hins, hcnt])) ?_
  rintro _ c1 s1 hs1 hf1 ⟨hd1, hfull⟩
  refine (surrounds_completed hs1 (hd1.owed.trans howed) ?_ (Nat.zero_le _)).weaken fun h heq => h ?_
  · exact hfull.trans List.length_replicate.symm
  · have hinn := hf1.inner
    rw [heq] at hinn
    exact List.eq_nil_of_length_eq_zero hinn.symm

theorem advances_receiverParameter (hs : s.Sound I k c)
    (hplace : k.roles[c.inputs.length]? = some Role.value) :
    Advances I k c s receiverParameter fun _ c' s' =>
      Draft.Continues c s.body.draft [] c' s'.body.draft ∧
      c'.inputs.length = c.inputs.length + 1 ∧ s'.body.draft.trail = s.body.draft.trail := by
  refine Yields.bind (emits_parameter hs .value "this" .value rfl rfl hplace) ?_
  rintro r _ ⟨c1, hs1, hd1, ⟨d, rfl⟩, hr, hins, htrail⟩
  refine .modifyGet ⟨c1, { hs1 with receiver := ?_ }, ⟨hd1.toFollows, rfl, List.prefix_refl _,
    List.prefix_refl _, fun _ => ⟨rfl, rfl⟩⟩, hd1, ?_, htrail⟩
  · intro r' hr'
    cases hr'
    exact ⟨hr.1, by simp [hins]⟩
  · rw [hins, List.length_append]
    rfl

theorem emits_argument (hs : s.Sound I k c) {i : Nat}
    (hargs : c.HasRole arguments (.arguments n)) (hinput : arguments ∈ c.inputs) (hi : i < n)
    (hfst : s.body.draft.current = 1) (hq : ∀ i ∈ s.body.draft.trail, i.isQuiet) :
    Emits I k c s (drafting do
      let cell ← Draft.element arguments i
      Draft.load .value (.reg cell)) fun r c' d' => d'.Holds c' r .value ∧
        ∀ i ∈ d'.trail, i.isQuiet := by
  refine emits_writes hs ((Draft.yields_elementOfArguments hs.draft hargs hinput hi).bind ?_)
  rintro cell d1 ⟨c1, hw1, hcell⟩
  have hquiet1 : ∀ i ∈ d1.trail, i.isQuiet := by
    rw [hw1.trail]
    exact List.forall_mem_cons.mpr ⟨rfl, hq⟩
  refine (Draft.yields_loadArgument hw1.sound hcell (hw1.current.trans hfst) hquiet1).mono ?_
  rintro r d2 ⟨c2, hw2, hr⟩
  refine ⟨c2, _, hw1.trans hw2, hr, ?_⟩
  rw [hw2.trail]
  exact List.forall_mem_cons.mpr ⟨rfl, hquiet1⟩

theorem advances_methodParameters (hs : s.Sound I (.method n) c) (loc : Location)
    (hargs : c.HasRole arguments (.arguments n)) (hinput : arguments ∈ c.inputs)
    (hfst : s.body.draft.current = 1) (hq : ∀ i ∈ s.body.draft.trail, i.isQuiet) (i : Nat)
    (params : List String) (hcnt : i + params.length = n) :
    Advances I (.method n) c s (declareParameters loc (fun i _ => drafting do
      let cell ← Draft.element arguments i
      Draft.load .value (.reg cell)) i params) fun _ c' s' =>
        Draft.Continues c s.body.draft [] c' s'.body.draft ∧ c.slots + params.length ≤ c'.slots := by
  induction params generalizing c s i with
  | nil => exact .pure hs ⟨.refl c _, Nat.le_refl _⟩
  | cons name rest ih =>
    rw [List.length_cons] at hcnt
    refine (advances_declareVariable (P := fun _ _ d' => ∀ i ∈ d'.trail, i.isQuiet) hs name loc
      fun s1 hs1 hbody => emits_argument hs1 hargs hinput (by omega) (hbody ▸ hfst)
        (hbody ▸ hq)).bind ?_
    rintro _ c2 s2 hs2 - ⟨-, hd2, r, o, c3, d3, hquiet3, htrail, -, hslt⟩
    refine (ih hs2 (hargs.mono hd2.le) (hd2.le.2.2.1.subset hinput) (hd2.current.trans hfst) ?_
      (i + 1) (by omega)).mono fun _ _ _ h => ⟨hd2.trans h.1, ?_⟩
    · rw [htrail]
      exact List.forall_mem_cons.mpr ⟨rfl, hquiet3⟩
    · have hslt := hslt nofun
      have hrest := h.2
      rw [List.length_cons]
      omega

theorem surrounds_methodBody (ht : t.Sound I (.method n) c) (howed : c.owed = [])
    (hins : c.inputs = []) (hfst : t.body.draft.current = 1) (hempty : t.body.draft.trail = [])
    (loc : Location) (hcnt : params.length = n) :
    Surrounds I (.method n) c t (fun x => do
      receiverParameter
      let arguments ← drafting (Draft.parameter .ptr "args")
      let _ ← drafting (Draft.parameter .i32 "argc")
      declareParameters loc (fun i _ => drafting do
        let cell ← Draft.element arguments i
        Draft.load .value (.reg cell)) 0 params
      returning x) 0 (t.scope.inner ≠ []) fun c' s' => Completed (.method n) c' s' := by
  refine .before (advances_receiverParameter ht (by rw [hins]; rfl)) ?_
  rintro _ c1 s1 hs1 hf1 ⟨hd1, hlength1, htrail1⟩
  rw [hins] at hlength1
  refine .before (emits_parameter hs1 .ptr "args" (.arguments n) rfl rfl
    (by rw [hlength1]; rfl)).advances ?_
  rintro arguments c2 s2 hs2 hf2 ⟨hd2, hargs, hinputs2, htrail2⟩
  have hlength2 : c2.inputs.length = 2 := by simp [hinputs2, hlength1]
  have hinput : arguments ∈ c2.inputs := by simp [hinputs2]
  refine .before (emits_parameter hs2 .i32 "argc" (.int .half) rfl rfl (by rw [hlength2]; rfl)).advances ?_
  rintro _ c3 s3 hs3 hf3 ⟨hd3, -, hinputs3, htrail3⟩
  have hlength3 : c3.inputs.length = 3 := by simp [hinputs3, hlength2]
  have hd := hd1.trans (hd2.trans hd3)
  have hq : ∀ i ∈ s3.body.draft.trail, i.isQuiet := by
    rw [htrail3, htrail2, htrail1, hempty]
    exact List.forall_mem_nil _
  refine .before (advances_methodParameters hs3 loc (hargs.1.mono hd3.le)
    (hd3.le.2.2.1.subset hinput) (hd.current.trans hfst) hq 0 params (by omega)) ?_
  rintro _ c4 s4 hs4 hf4 ⟨hd4, hslt⟩
  refine (surrounds_completed hs4 ((hd.trans hd4).owed.trans howed) ?_ ?_).weaken fun h heq => h ?_
  · exact full_mono hs4 hd4.le hlength3
  · show n ≤ c4.slots
    omega
  · have hinn := (hf1.trans (hf2.trans (hf3.trans hf4))).inner
    rw [heq] at hinn
    exact List.eq_nil_of_length_eq_zero hinn.symm

theorem advances_define (hs : s.Sound I .main c) {symbol : String} (hk : k ≠ .main)
    {x : Lowering Unit}
    (hx : Advances I k (Draft.fresh [.result]) (defining s symbol) x fun _ c' s' =>
      Completed k c' s') :
    Advances I .main c s (define symbol x) fun _ c' s' => Settles c c' ∧ Has s' symbol :=
  (yields_define (Q := fun _ _ => True) hs hk (hx.mono fun _ _ _ h => ⟨h, trivial⟩)).mono
    fun _ _ ⟨hs', hf, hhas, _⟩ => ⟨c, hs', hf, .refl c, hhas⟩

theorem advances_functionBody (hs : s.Sound I .main c) (loc : Location)
    (hnmd : (name, params.length) ∈ I.functions) (hbody : Compiles I body) :
    Advances I .main c s (functionBody loc name params body) fun _ c' s' =>
      Settles c c' ∧ Has s' (functionSymbol name) :=
  advances_define (k := .function params.length) hs nofun ((surrounds_functionBody
    (sound_defining hs nofun ⟨name, hnmd, rfl⟩) rfl rfl loc rfl).nest nofun hbody)

theorem advances_methodBody (hs : s.Sound I .main c) (loc : Location)
    (hnmd : (cls, name, params.length) ∈ I.methods) (hbody : Compiles I body) :
    Advances I .main c s (methodBody (memberSymbol "method" cls name) loc params body)
      fun _ c' s' => Settles c c' ∧ Has s' (memberSymbol "method" cls name) :=
  advances_define (k := .method params.length) hs nofun ((surrounds_methodBody
    (sound_defining hs nofun ⟨cls, name, hnmd, rfl⟩) rfl rfl rfl rfl loc rfl).nest nofun hbody)

theorem advances_initializer (hs : s.Sound I .main c) (init : Option Expr)
    (hnmd : (cls, name) ∈ I.fields) :
    Advances I .main c s (initializer (memberSymbol "field" cls name) init) fun _ c' s' =>
      Settles c c' ∧ Has s' (memberSymbol "field" cls name) := by
  refine advances_define (k := .field) hs nofun ?_
  have ht : (defining s (memberSymbol "field" cls name)).Sound I .field (Draft.fresh [.result]) :=
    sound_defining hs nofun ⟨cls, name, hnmd, rfl⟩
  refine (advances_receiverParameter ht rfl).bind ?_
  rintro _ c1 s1 hs1 - ⟨hd1, hlen, -⟩
  refine Yields.mono (advances_return (emits_lowerOption init hs1)) ?_
  rintro _ s2 ⟨c2, hs2, hf2, hends⟩
  exact ⟨c2, hs2, hf2, hends.left, hends.owed.trans hd1.owed, full_mono hs2 hf2.le hlen,
    Nat.zero_le _⟩

theorem emits_performFitting (hs : s.Sound I k c) {e : Ir.EntryPoint} {arguments : List Typed}
    (hcalm : (Ir.Instr.call none .void (.entry e) arguments).isCalm) (hvoid : e.result = .void)
    (hfits : ∀ x, c.HasContext s.body.draft.current x → Ir.Steady s.body.draft.trail →
      Ir.Fits I s.globals k c s.body.draft.current x s.body.draft.trail
        (.call none .void (.entry e) arguments)) :
    Emits I k c s (perform e arguments) fun _ _ _ => True := by
  have hcal : (Callee.entry e).result = .void := hvoid
  refine emits_writes hs ((Draft.yields_callVoid hs.draft hcal hcalm
    fun x hx hstdy _ => hfits x hx hstdy).mono fun _ d' hw => ?_)
  exact ⟨c, _, hw, trivial⟩

theorem advances_fields (hs : s.Sound I .main c) (cls : String) (hslot : c.Keeps s.globals slot)
    (fs : List FieldDef) (hnmd : ∀ f ∈ fs, (cls, f.name) ∈ I.fields) :
    Advances I .main c s (fields cls slot fs) fun _ c' s' => Settles c c' ∧
      ∀ f ∈ fs, Has s' (memberSymbol "field" cls f.name) := by
  induction fs generalizing c s with
  | nil => exact .pure hs ⟨.refl c, nofun⟩
  | cons f rest ih =>
    obtain ⟨hfst, hrest⟩ := List.forall_mem_cons.mp hnmd
    refine (advances_initializer hs f.init hfst).bind ?_
    rintro _ c1 s1 hs1 hf1 ⟨hsettl, hhas⟩
    have hslot1 := hslot.mono hf1.le hf1.globals.subset
    refine (emits_load hs1 hslot1).advances.bind ?_
    rintro descriptor c2 s2 hs2 hf2 ⟨hd2, hdescriptor⟩
    refine Advances.read (yields_constant hs2 f.name f.loc) fun text htext => ?_
    refine Advances.bind (emits_performFitting hs2 rfl rfl fun x hx hstdy => ?_).advances ?_
    · exact .addField hstdy (.cons (Draft.Gives.at hdescriptor.gives hx (le_refl c2))
        (.cons (Draft.Gives.at htext.gives hx (le_refl c2)) (.cons .bool .nil))) ⟨cls, f.name, hfst, rfl⟩
    rintro - c3 s3 hs3 hf3 ⟨hd3, -⟩
    refine (ih hs3 (hslot1.mono (hf2.trans hf3).le (hf2.trans hf3).globals.subset) hrest).mono' ?_
    intro _ c4 s4 hf4 h
    refine ⟨(hsettl.trans (.of_continues (hd2.trans hd3))).trans h.1,
      List.forall_mem_cons.mpr ⟨?_, h.2⟩⟩
    exact hhas.mono ((hf2.trans hf3).trans hf4).finished

theorem emits_addMethod (hs : s.Sound I k c) (hslot : c.Keeps s.globals slot) (loc : Location)
    {arity : Nat} (hnmd : (cls, name, arity) ∈ I.methods) :
    Emits I k c s (addMethod slot (memberSymbol "method" cls name) loc name arity)
      fun _ _ _ => True := by
  refine (emits_load hs hslot).bind fun descriptor c1 s1 hs1 _ hdescriptor => ?_
  refine Emits.read (yields_constant hs1 name loc) fun text htext => ?_
  refine emits_performFitting hs1 rfl rfl fun x hx hstdy => ?_
  exact .addMethod hstdy (.cons (Draft.Gives.at hdescriptor.gives hx (le_refl c1))
    (.cons (Draft.Gives.at htext.gives hx (le_refl c1)) (.cons .bool .nil))) ⟨cls, name, hnmd, rfl⟩

theorem advances_newClass (hs : s.Sound I k c) (loc : Location) (name : String) :
    Advances I k c s (newClass loc name) fun slot c' s' =>
      c'.Keeps s'.globals slot ∧ Settles c c' := by
  refine (advances_declareVariable (P := fun _ _ _ => True) hs name loc fun s1 hs1 _ => ?_).bind ?_
  · refine Emits.read (yields_constant hs1 name loc) fun text htext => ?_
    exact (emits_invoke (e := .classNew) hs1 rfl (by decide) (.cons htext.gives .nil)).mono
      fun _ _ _ h => ⟨h, trivial⟩
  · rintro id c1 s1 hs1 - ⟨hbnd, hd1, -⟩
    refine Yields.mono (yields_storage hs1 loc hbnd) ?_
    rintro o _ ⟨rfl, ho⟩
    exact ⟨c1, hs1, .refl k c1 s1, ho, .of_continues hd1⟩

/-! ## Statements -/

/-- The comment before a statement. -/
def statementComment (loc : Location) : Lowering Unit := do
  if (← get).annotate then
    drafting (Draft.push (.comment loc.text))

theorem emits_statementComment (hs : s.Sound I k c) (loc : Location) :
    Emits I k c s (statementComment loc) fun _ _ _ => True := by
  refine Yields.get_bind ?_
  split
  · show Emits I k c s (drafting (Draft.push (.comment loc.text))) fun _ _ _ => True
    refine emits_writes hs ((Draft.yields_pushCalm (i := .comment loc.text) hs.draft rfl nofun
      fun _ _ hstdy _ => .comment hstdy).mono fun _ _ hw => ?_)
    exact ⟨c, _, hw, trivial⟩
  · exact Emits.pure (P := fun _ _ _ => True) hs trivial

theorem statementComment_bind (loc : Location) (x : Lowering Unit) :
    (statementComment loc >>= fun _ => x) = (do
      if (← get).annotate then
        drafting (Draft.push (.comment loc.text))
      x) := by
  unfold statementComment
  rw [bind_assoc]
  congr 1
  funext s
  split <;> rfl

/-- The code of a statement behind its comment. -/
def code : Stmt → Lowering Unit
  | .var loc name init => do
    let _ ← declareVariable name loc (Expr.lowerOption init)
  | .assign loc target value => assignment loc target value
  | .expr _ e => do
    let _ ← e.lower
  | .block _ body => inScope (Stmt.lowerAll body)
  | .branch _ condition positive negative =>
    conditional condition (Stmt.lowerAll positive) (Stmt.lowerAll negative)
  | .loop _ condition body => whileLoop condition (Stmt.lowerAll body)
  | .range loc name start stop body => rangeLoop loc name start stop (Stmt.lowerAll body)
  | .each loc key value iterable body => eachLoop loc key value iterable (Stmt.lowerAll body)
  | .leave loc => leaveLoop loc .breakOutsideLoop LoopTargets.leave
  | .next loc => leaveLoop loc .continueOutsideLoop LoopTargets.next
  | .ret _ value => returnFrom value
  | .guarded loc body name handler =>
    protect loc (Stmt.lowerAll body) name (Stmt.lowerAll handler)
  | .raise loc value => do
    let r ← value.lower
    raiseValue loc r
  | .assert loc condition message => assertion loc condition message
  | .function loc f => do
    requireTopLevel "function definition" loc
    functionBody f.loc f.name f.params (Stmt.lowerAll f.body)
  | .classDef loc c => do
    requireTopLevel "class definition" loc
    let slot ← newClass c.loc c.name
    fields c.name slot c.fields
    Stmt.lowerMethods c.name slot c.methods

theorem lower_eq (st : Stmt) : st.lower = statementComment st.loc >>= fun _ => code st := by
  rw [statementComment_bind]
  cases st <;> rw [Stmt.lower] <;> rfl

/-- The symbols of the functions that a statement defines. -/
def symbols : Stmt → List String
  | .function _ f => [functionSymbol f.name]
  | .classDef _ c => c.fields.map (memberSymbol "field" c.name ·.name) ++
      c.methods.map (memberSymbol "method" c.name ·.name)
  | _ => []

/-- What a statement defines is part of the interface. -/
def Admits (I : Interface) : Stmt → Prop
  | .function _ f => (f.name, f.params.length) ∈ I.functions
  | .classDef _ c => (∀ f ∈ c.fields, (c.name, f.name) ∈ I.fields) ∧
      ∀ f ∈ c.methods, (c.name, f.name, f.params.length) ∈ I.methods
  | _ => True

/-- A statement was compiled: no block more is to be written, and what it defines is finished. -/
def Compiled (c : Cert) (st : Stmt) (c' : Cert) (s' : Session) : Prop :=
  Settles c c' ∧ ∀ symbol ∈ symbols st, Has s' symbol

/-- The same for several statements. -/
def CompiledAll (c : Cert) (l : List Stmt) (c' : Cert) (s' : Session) : Prop :=
  Settles c c' ∧ ∀ st ∈ l, ∀ symbol ∈ symbols st, Has s' symbol

theorem Compiles.of_advances {l : List Stmt}
    (hl : ∀ k c s, s.Sound I k c → (s.scope.inner = [] → ∀ st ∈ l, Admits I st) →
      Advances I k c s (Stmt.lowerAll l) fun _ c' s' => CompiledAll c l c' s') :
    Compiles I (Stmt.lowerAll l) :=
  fun k c s hs hinn => (hl k c s hs fun h => absurd h hinn).mono fun _ _ _ h => h.1

theorem advances_annotated {st : Stmt} (hs : s.Sound I k c)
    (hcode : ∀ c1 s1, s1.Sound I k c1 → Session.Follows k c s c1 s1 →
      Advances I k c1 s1 (code st) fun _ c' s' => Compiled c1 st c' s') :
    Advances I k c s st.lower fun _ c' s' => Compiled c st c' s' := by
  rw [lower_eq]
  refine (emits_statementComment hs st.loc).advances.bind ?_
  rintro _ c1 s1 hs1 hf1 ⟨hd1, -⟩
  exact (hcode c1 s1 hs1 hf1).mono fun _ _ _ h => ⟨(Owes.of_continues hd1).trans h.1, h.2⟩

mutual

theorem advances_code (st : Stmt) (k : Convention) (c : Cert) (s : Session)
    (hs : s.Sound I k c) (hadm : s.scope.inner = [] → Admits I st) :
    Advances I k c s (code st) fun _ c' s' => Compiled c st c' s' :=
  match st with
  | .var loc name init =>
    (advances_declareVariable (P := fun _ _ _ => True) hs name loc fun s1 hs1 _ =>
      (emits_lowerOption init hs1).mono fun _ _ _ h => ⟨h, trivial⟩).bind
      fun _ _ _ hs1 _ h => .pure hs1 ⟨.of_continues h.2.1, nofun⟩
  | .assign loc target value =>
    (emits_assignment hs loc target value).advances.mono fun _ _ _ h => ⟨.of_continues h.1, nofun⟩
  | .expr _ e =>
    (emits_lower e hs).advances.bind fun _ _ _ hs1 _ h => .pure hs1 ⟨.of_continues h.1, nofun⟩
  | .block _ body =>
    ((surrounds_inScope hs).nest trivial (.of_advances (advances_lowerAll body))).mono
      fun _ _ _ h => ⟨h, nofun⟩
  | .branch _ condition positive negative =>
    ((surrounds_positive hs condition (.of_advances (advances_lowerAll negative))).nest trivial
      (.of_advances (advances_lowerAll positive))).mono fun _ _ _ h => ⟨h, nofun⟩
  | .loop _ condition body =>
    ((surrounds_whileLoop hs condition).nest trivial (.of_advances (advances_lowerAll body))).mono
      fun _ _ _ h => ⟨h, nofun⟩
  | .range loc name start stop body =>
    ((surrounds_rangeLoop hs loc name start stop).nest trivial
      (.of_advances (advances_lowerAll body))).mono fun _ _ _ h => ⟨h, nofun⟩
  | .each loc key value iterable body => by
    show Advances I k c s (eachLoop _ _ _ _ _) _
    rw [eachLoop_eq]
    have hbody : Compiles I (Stmt.lowerAll body) := .of_advances (advances_lowerAll body)
    exact ((surrounds_eachFirst hs loc key value iterable hbody).nest trivial hbody).mono
      fun _ _ _ h => ⟨h, nofun⟩
  | .leave loc =>
    (advances_leaveLoop hs loc _ fun _ _ hl => hl.leave).mono fun _ _ _ h => ⟨h, nofun⟩
  | .next loc =>
    (advances_leaveLoop hs loc _ fun _ _ hl => hl.next).mono fun _ _ _ h => ⟨h, nofun⟩
  | .ret _ value => (advances_returnFrom hs value).mono fun _ _ _ h => ⟨h, nofun⟩
  | .guarded loc body name handler =>
    ((surrounds_guarded hs loc name (.of_advances (advances_lowerAll handler))).nest trivial
      (.of_advances (advances_lowerAll body))).mono fun _ _ _ h => ⟨h, nofun⟩
  | .raise loc value =>
    (emits_lower value hs).advances.bind fun _ _ _ hs1 _ h1 =>
      (advances_raiseValue hs1 loc h1.2).mono fun _ _ _ h =>
        ⟨(Owes.of_continues h1.1).trans (.of_ends h), nofun⟩
  | .assert loc condition message =>
    (advances_assertion hs loc condition message).mono fun _ _ _ h => ⟨h, nofun⟩
  | .function loc f => by
    refine Advances.read (yields_requireTopLevel hs _ loc) ?_
    rintro _ ⟨rfl, htop⟩
    refine (advances_functionBody hs f.loc (hadm htop)
      (.of_advances (advances_lowerAll f.body))).mono fun _ _ _ h => ⟨h.1, fun symbol hsym => ?_⟩
    exact List.mem_singleton.mp hsym ▸ h.2
  | .classDef loc cls => by
    refine Advances.read (yields_requireTopLevel hs _ loc) ?_
    rintro _ ⟨rfl, htop⟩
    obtain ⟨hflds, hmeths⟩ := hadm htop
    refine (advances_newClass hs cls.loc cls.name).bind ?_
    rintro slot c1 s1 hs1 - ⟨hslot, hsettles1⟩
    refine (advances_fields hs1 cls.name hslot cls.fields hflds).bind ?_
    rintro _ c2 s2 hs2 hf2 ⟨hsettles2, hhas⟩
    refine (advances_lowerMethods cls.name cls.methods hs2 (hslot.mono hf2.le hf2.globals.subset)
      hmeths).mono' fun _ c3 s3 hf3 h => ⟨(hsettles1.trans hsettles2).trans h.1, ?_⟩
    intro symbol hsym
    rcases List.mem_append.mp hsym with hsym | hsym
    · obtain ⟨f, hf, rfl⟩ := List.mem_map.mp hsym
      exact (hhas f hf).mono hf3.finished
    · obtain ⟨f, hf, rfl⟩ := List.mem_map.mp hsym
      exact h.2 f hf

theorem advances_lowerAll (l : List Stmt) (k : Convention) (c : Cert) (s : Session)
    (hs : s.Sound I k c) (hadm : s.scope.inner = [] → ∀ st ∈ l, Admits I st) :
    Advances I k c s (Stmt.lowerAll l) fun _ c' s' => CompiledAll c l c' s' :=
  match l with
  | [] => by
    rw [Stmt.lowerAll]
    exact .pure hs ⟨.refl c, nofun⟩
  | st :: rest => by
    rw [Stmt.lowerAll]
    have htop : ∀ {c1 s1}, Session.Follows k c s c1 s1 → s1.scope.inner = [] →
        s.scope.inner = [] := fun hf h => by
      have hinn := hf.inner
      rw [h] at hinn
      exact List.eq_nil_of_length_eq_zero hinn.symm
    refine (advances_annotated hs fun c1 s1 hs1 hf1 => advances_code st k c1 s1 hs1 fun h =>
      hadm (htop hf1 h) st (.head _)).bind ?_
    rintro _ c1 s1 hs1 hf1 ⟨hsettl, hhas⟩
    refine (advances_lowerAll rest k c1 s1 hs1 fun h st' hst' => hadm (htop hf1 h) st'
      (.tail _ hst')).mono' fun _ c2 s2 hf2 h => ⟨hsettl.trans h.1, ?_⟩
    refine List.forall_mem_cons.mpr ⟨fun symbol hsym => ?_, h.2⟩
    exact (hhas symbol hsym).mono hf2.finished

theorem advances_lowerMethods (cls : String) (methods : List (FunctionDef (List Stmt)))
    {c : Cert} {s : Session} {slot : Operand} (hs : s.Sound I .main c)
    (hslot : c.Keeps s.globals slot)
    (hnmd : ∀ f ∈ methods, (cls, f.name, f.params.length) ∈ I.methods) :
    Advances I .main c s (Stmt.lowerMethods cls slot methods) fun _ c' s' => Settles c c' ∧
      ∀ f ∈ methods, Has s' (memberSymbol "method" cls f.name) :=
  match methods with
  | [] => by
    rw [Stmt.lowerMethods]
    exact .pure hs ⟨.refl c, nofun⟩
  | f :: rest => by
    rw [Stmt.lowerMethods]
    obtain ⟨hfst, hrest⟩ := List.forall_mem_cons.mp hnmd
    refine (advances_methodBody hs f.loc hfst (.of_advances (advances_lowerAll f.body))).bind ?_
    rintro _ c1 s1 hs1 hf1 ⟨hsettles1, hhas⟩
    have hslot1 := hslot.mono hf1.le hf1.globals.subset
    refine (emits_addMethod hs1 hslot1 f.loc hfst).advances.bind ?_
    rintro _ c2 s2 hs2 hf2 ⟨hd2, -⟩
    refine (advances_lowerMethods cls rest hs2 (hslot1.mono hf2.le hf2.globals.subset) hrest).mono' ?_
    intro _ c3 s3 hf3 h
    refine ⟨(hsettles1.trans (.of_continues hd2)).trans h.1, List.forall_mem_cons.mpr ⟨?_, h.2⟩⟩
    exact hhas.mono (hf2.trans hf3).finished

end

theorem compiles_lowerAll (l : List Stmt) : Compiles I (Stmt.lowerAll l) :=
  .of_advances (advances_lowerAll l)

end Lowering

end Ember
