import Ember.Proofs.Lowering.Composition

/-!
# Ember — the names of compiled code

Expressions give no register a name, and what is nested in a function or in a scope adds neither
functions nor global slots. So the functions and slots of a module are those of the statements at the
top level, one for each definition and in their order. Every function has its names from the
identifiers of the source and from ordinals that are never given out again.

Main result: `Program.lower_adds`.
-/

namespace Ember

open Ir (Draft Drafting Operand ownNames)

variable {nodes : List Node} {params : List String} {value : Lowering Nat} {body x : Lowering Unit}
  {C : Lowering Unit → Lowering Unit} {e id : Nat} {s : Session} {st : Stmt} {name : String}

/-! ## Names of the source -/

/-- The names that these nodes declare are identifiers. -/
def Identified (nodes : List Node) : Prop :=
  ∀ n ∈ nodes, ∀ name ∈ n.names, Identifier name

instance (nodes : List Node) : Decidable (Identified nodes) :=
  inferInstanceAs (Decidable (∀ n ∈ nodes, ∀ name ∈ n.names, Identifier name))

theorem identified_cons {n : Node} :
    Identified (n :: nodes) ↔ (∀ name ∈ n.names, Identifier name) ∧ Identified nodes :=
  List.forall_mem_cons

theorem identified_append {nodes' : List Node} :
    Identified (nodes ++ nodes') ↔ Identified nodes ∧ Identified nodes' :=
  List.forall_mem_append

/-- A session continued inside its function and its scope, with these names more. -/
structure Session.Gains (names : List String) (s s' : Session) : Prop where
  scope : s'.scope = s.scope
  globals : s'.globals = s.globals
  finished : s'.finished = s.finished
  draft : s.body.draft.Gains names s'.body.draft

namespace Lowering

variable {names : List String} {α β : Type}

/-! ## Expressions -/

/-- Compilation that gives registers these names and stays in its function and its scope. -/
def Gaining (names : List String) (x : Lowering α) : Prop :=
  ∀ s, Yields x s fun _ s' => s.Gains names s'

/-- Compilation that gives no register a name. -/
def Quiet (x : Lowering α) : Prop :=
  Gaining [] x

theorem gaining_drafting {x : Drafting α} (hx : Draft.Gaining names x) :
    Gaining names (drafting x) := by
  intro s
  refine (yields_drafting (hx s.body.draft)).mono ?_
  rintro a _ ⟨⟨d, rfl⟩, hd⟩
  exact ⟨rfl, rfl, rfl, hd⟩

namespace Quiet

variable {x : Lowering α} {f : α → Lowering β}

theorem pure (a : α) : Quiet (Pure.pure a) :=
  fun s => .pure ⟨rfl, rfl, rfl, .refl s.body.draft⟩

theorem throw (r : Rejection) : Quiet (MonadExcept.throw r : Lowering α) :=
  fun _ => .throw

theorem bind (hx : Quiet x) (hf : ∀ a, Quiet (f a)) : Quiet (x >>= f) := by
  refine fun s => (hx s).bind fun a s1 h1 => (hf a s1).mono fun _ s2 h2 => ?_
  exact ⟨h2.scope.trans h1.scope, h2.globals.trans h1.globals, h2.finished.trans h1.finished,
    h1.draft.trans h2.draft⟩

theorem get : Quiet (MonadState.get : Lowering Session) :=
  fun s => .get_bind (f := Pure.pure) (.pure ⟨rfl, rfl, rfl, .refl s.body.draft⟩)

theorem drafting {x : Drafting α} (hx : Draft.Quiet x) : Quiet (drafting x) :=
  gaining_drafting hx

end Quiet

theorem Composed.quiet {x : Lowering α} (hx : Composed x) : Quiet x := by
  induction hx with
  | pure a => exact .pure a
  | throw r => exact .throw r
  | look _ _ hf => exact .bind .get hf
  | bind _ _ hx hf => exact .bind hx hf
  | drafting steps => exact .drafting steps.quiet

theorem quiet_statementComment (loc : Location) : Quiet (statementComment loc) := by
  refine .bind .get fun s => ?_
  split
  · exact .drafting (Draft.quiet_push _)
  · exact .pure ()

end Lowering

/-! ## Scopes and variables -/

/-- A session whose current function has names of identifiers and of ordinals that are given out. -/
def Session.Named (s : Session) : Prop :=
  Ir.Named s.scope.nextLocal s.body.draft.registers s.body.draft.blocks

/-- A session continued, with these slots and functions more, all functions named so. -/
structure Session.Adds (G F : List String) (s s' : Session) : Prop where
  globals : s'.globals = s.globals ++ G
  finished : ∃ fs, s'.finished = s.finished ++ fs ∧ fs.map (·.symbol) = F ∧
    ∀ f ∈ fs, f.Named
  symbol : s'.body.draft.symbol = s.body.draft.symbol
  depth : s'.scope.depth = s.scope.depth
  ordinals : s.scope.nextLocal ≤ s'.scope.nextLocal
  named : s.Named → s'.Named

namespace Session

variable {s s' s'' : Session} {G G' F F' : List String}

theorem Named.gains (hs : s.Named) (hd : s.body.draft.Gains [] s'.body.draft)
    (hle : s.scope.nextLocal ≤ s'.scope.nextLocal) : s'.Named :=
  hd.named hs hle nofun ((List.append_nil _).symm ▸ hs.distinct)

theorem Gains.adds (h : s.Gains [] s') : s.Adds [] [] s' where
  globals := h.globals.trans (List.append_nil _).symm
  finished := ⟨[], h.finished.trans (List.append_nil _).symm, rfl, nofun⟩
  symbol := h.draft.symbol
  depth := by rw [h.scope]
  ordinals := by rw [h.scope]
  named hs := hs.gains h.draft (by rw [h.scope])

theorem Adds.trans (h : s.Adds G F s') (h' : s'.Adds G' F' s'') :
    s.Adds (G ++ G') (F ++ F') s'' where
  globals := by rw [h'.globals, h.globals, List.append_assoc]
  finished := by
    obtain ⟨fs, hfin, hsymbols, hnmd⟩ := h.finished
    obtain ⟨fs', hfinished', hsymbols', hnamed'⟩ := h'.finished
    refine ⟨fs ++ fs', by rw [hfinished', hfin, List.append_assoc], ?_, ?_⟩
    · rw [List.map_append, hsymbols, hsymbols']
    · exact List.forall_mem_append.mpr ⟨hnmd, hnamed'⟩
  symbol := h'.symbol.trans h.symbol
  depth := h'.depth.trans h.depth
  ordinals := h.ordinals.trans h'.ordinals
  named hs := h'.named (h.named hs)

end Session

namespace Lowering

variable {names G G' F F' : List String} {α β : Type} {P : Nat → Prop}

/-- Compilation that adds these slots and functions where as many scopes are open as `P` allows. -/
def Adding (P : Nat → Prop) (G F : List String) (x : Lowering α) : Prop :=
  ∀ s, P s.scope.depth → Yields x s fun _ s' => s.Adds G F s'

/-- Compilation that adds neither slots nor functions. -/
def Keeping (P : Nat → Prop) (x : Lowering α) : Prop :=
  Adding P [] [] x

theorem Adding.bind {x : Lowering α} {f : α → Lowering β} (hx : Adding P G F x)
    (hf : ∀ a, Adding P G' F' (f a)) :
    Adding P (G ++ G') (F ++ F') (x >>= f) := by
  refine fun s hs => (hx s hs).bind fun a s1 h1 => ?_
  exact (hf a s1 (h1.depth ▸ hs)).mono fun _ _ h2 => h1.trans h2

theorem Quiet.keeping {x : Lowering α} (hx : Quiet x) : Keeping P x :=
  fun s _ => (hx s).mono fun _ _ h => h.adds

theorem Quiet.adding {x : Lowering α} {f : α → Lowering β} (hx : Quiet x)
    (hf : ∀ a, Adding P G F (f a)) : Adding P G F (x >>= f) :=
  Adding.bind (G := []) (F := []) hx.keeping hf

namespace Keeping

variable {x : Lowering α} {f : α → Lowering β}

theorem bind (hx : Keeping P x) (hf : ∀ a, Keeping P (f a)) : Keeping P (x >>= f) :=
  Adding.bind (G := []) (F := []) hx hf

end Keeping

theorem yields_inScope {x : Lowering α}
    (hx : Yields x (entered s) fun _ s' => (entered s).Adds G F s') :
    Yields (inScope x) s fun _ s' => s.Adds G F s' := by
  refine .modify_bind ?_
  refine hx.bind fun a s1 h1 => ?_
  refine Yields.get_bind (yields_sound.bind ?_)
  rintro scope _ ⟨rfl, hexit⟩
  refine .modify_bind ?_
  obtain ⟨-, -, -, -, hnext, -⟩ := Scope.exit_eq_ok hexit
  have hdep : scope.depth + 1 = s.scope.depth + 1 := (Scope.depth_exit hexit).symm.trans h1.depth
  refine .pure ⟨h1.globals, h1.finished, h1.symbol, Nat.succ.inj hdep, hnext ▸ h1.ordinals, ?_⟩
  intro hnmd
  show Ir.Named scope.nextLocal _ _
  rw [hnext]
  exact h1.named hnmd

theorem Keeping.inScope {x : Lowering α} (hx : Keeping (0 < ·) x) : Keeping P (inScope x) :=
  fun s _ => yields_inScope (hx (entered s) (Nat.succ_pos _))

/-- A declaration in a scope takes the next ordinal, and one outside every scope takes none. -/
theorem declare_eq_ok {scope scope' : Scope} {loc : Location}
    (h : scope.declare name loc = .ok (id, scope')) : scope'.depth = scope.depth ∧
      ∃ b, scope'.bindings.get? id = some b ∧
        ((scope.depth = 0 ∧ scope'.nextLocal = scope.nextLocal ∧ b.isGlobal = true ∧
          b.symbol = "g." ++ name) ∨
        (0 < scope.depth ∧ scope'.nextLocal = scope.nextLocal + 1 ∧ b.isGlobal = false ∧
          b.symbol = name ++ "." ++ toString scope.nextLocal)) := by
  rw [Scope.declare_eq] at h
  split at h
  · cases h
  cases h
  refine ⟨rfl, _, (Table.get?_push ..).trans (if_pos rfl), ?_⟩
  by_cases hzero : scope.depth = 0
  · refine .inl ⟨hzero, if_pos hzero, ?_, ?_⟩ <;> simp [Binding.isGlobal, Binding.symbol, hzero]
  · refine .inr ⟨Nat.pos_of_ne_zero hzero, if_neg hzero, ?_, ?_⟩ <;>
      simp [Binding.isGlobal, Binding.symbol, hzero]

/-- What a declaration leaves of a session. -/
structure Declares (G names : List String) (ordinals : Nat) (s s' : Session) : Prop where
  globals : s'.globals = s.globals ++ G
  finished : s'.finished = s.finished
  depth : s'.scope.depth = s.scope.depth
  ordinals : s'.scope.nextLocal = s.scope.nextLocal + ordinals
  draft : s.body.draft.Gains names s'.body.draft

theorem yields_allocate {b : Binding} (hb : s.scope.bindings.get? id = some b) :
    Yields (allocate id) s fun _ s' => s'.scope = s.scope ∧ s'.finished = s.finished ∧
      (b.isGlobal = true → s'.globals = s.globals ++ [b.symbol] ∧
        s.body.draft.Gains [] s'.body.draft) ∧
      (b.isGlobal = false → s'.globals = s.globals ∧
        s.body.draft.Gains [b.symbol] s'.body.draft) := by
  refine Yields.get_bind (yields_sound.bind ?_)
  rintro b' _ ⟨rfl, hget⟩
  obtain rfl : b = b' := Option.some.inj (hb.symm.trans (get?_of_get hget))
  dsimp only
  split
  · next hglob =>
    refine ((Composed.quiet inferInstance : Quiet (drafting (Draft.globalRoot b.symbol))) s).bind fun _ s1 h1 => ?_
    refine .modify_bind ?_
    refine .pure ⟨h1.scope, h1.finished, fun _ => ⟨?_, h1.draft⟩, fun h => ?_⟩
    · show s1.globals ++ _ = _
      rw [h1.globals]
    · cases hglob.symm.trans h
  · next hlocal =>
    refine (gaining_drafting (Draft.gaining_localSlot b.symbol) s).bind fun slot s1 h1 => ?_
    refine .modify_bind ?_
    exact .pure ⟨h1.scope, h1.finished, fun h => absurd h hlocal, fun _ => ⟨h1.globals, h1.draft⟩⟩

theorem yields_declareVariable (s : Session) (name : String) (loc : Location)
    (hval : Gaining names value) : Yields (declareVariable name loc value) s fun _ s' =>
      (s.scope.depth = 0 → Declares ["g." ++ name] names 0 s s') ∧
      (0 < s.scope.depth →
        Declares [] (names ++ [(Ir.Naming.slot name s.scope.nextLocal).text]) 1 s s') := by
  refine Yields.get_bind (yields_check.bind ?_)
  rintro ⟨id, scope⟩ _ ⟨rfl, hdecl⟩
  obtain ⟨hdep, b, hb, hkind⟩ := declare_eq_ok hdecl
  refine .modify_bind ?_
  refine (hval _).bind fun r s2 h2 => ?_
  have hb2 : s2.scope.bindings.get? id = some b := by
    rw [h2.scope]
    exact hb
  refine (yields_allocate hb2).bind ?_
  rintro dest s3 ⟨hsc, hfin, hglob, hlocal⟩
  refine ((Composed.quiet inferInstance : Quiet (drafting (Draft.store _ dest))) s3).bind fun _ s4 h4 => ?_
  refine Yields.get_bind (yields_sound.bind ?_)
  rintro scope' _ ⟨rfl, hbind⟩
  refine .modify_bind ?_
  -- binding the variable afterwards changes neither depth nor ordinals
  have hfinal : scope'.depth = scope.depth ∧ scope'.nextLocal = scope.nextLocal := by
    have hchange : scope'.depth = s4.scope.depth ∧ scope'.nextLocal = s4.scope.nextLocal := by
      obtain ⟨-, -, heq, -⟩ := Scope.bind_eq_ok hbind
      rw [heq]
      exact ⟨rfl, rfl⟩
    rw [h4.scope, hsc, h2.scope] at hchange
    exact hchange
  have hdone : s4.finished = s.finished := h4.finished.trans (hfin.trans h2.finished)
  refine .pure ⟨fun h => ?_, fun h => ?_⟩
  · rcases hkind with ⟨-, hnext, hisGlobal, hsym⟩ | ⟨hpos, -⟩
    · obtain ⟨hglobs, hdr⟩ := hglob hisGlobal
      refine ⟨?_, hdone, hfinal.1.trans hdep, hfinal.2.trans hnext, ?_⟩
      · show s4.globals = _
        rw [h4.globals, hglobs, h2.globals, hsym]
      · have hgains := h2.draft.trans (hdr.trans h4.draft)
        rwa [List.append_nil, List.append_nil] at hgains
    · exact absurd h (Nat.ne_of_gt hpos)
  · rcases hkind with ⟨hzero, -⟩ | ⟨-, hnext, hisLocal, hsym⟩
    · exact absurd hzero (Nat.ne_of_gt h)
    · obtain ⟨hglobs, hdr⟩ := hlocal hisLocal
      refine ⟨?_, hdone, hfinal.1.trans hdep, hfinal.2.trans hnext, ?_⟩
      · show s4.globals = _
        rw [h4.globals, hglobs, h2.globals, List.append_nil]
      · have hgains := h2.draft.trans (hdr.trans h4.draft)
        rw [List.append_nil, hsym] at hgains
        exact hgains

theorem keeping_declareVariable (hname : Identifier name) (loc : Location) (hval : Quiet value) :
    Keeping (0 < ·) (declareVariable name loc value) := by
  refine fun s hs => (yields_declareVariable s name loc hval).mono fun _ s' h => ?_
  have h := h.2 hs
  have hle : s.scope.nextLocal ≤ s'.scope.nextLocal := h.ordinals ▸ Nat.le_succ _
  refine ⟨h.globals, ⟨[], h.finished.trans (List.append_nil _).symm, rfl, nofun⟩, h.draft.symbol,
    h.depth, hle, fun hnmd => h.draft.named hnmd hle ?_ ?_⟩
  · have hlt : s.scope.nextLocal < s'.scope.nextLocal := h.ordinals ▸ Nat.lt_succ_self _
    exact List.forall_mem_singleton.mpr ⟨.slot name s.scope.nextLocal, ⟨hname, hlt⟩, rfl⟩
  · exact (nodup_concat_iff hnmd.distinct).mpr (hnmd.slot_not_mem hname)

theorem adding_declareVariable (name : String) (loc : Location) (hval : Quiet value) :
    Adding (· = 0) ["g." ++ name] [] (declareVariable name loc value) := by
  refine fun s hs => (yields_declareVariable s name loc hval).mono fun _ s' h => ?_
  have h := h.1 hs
  have hle : s.scope.nextLocal ≤ s'.scope.nextLocal := Nat.le_of_eq h.ordinals.symm
  exact ⟨h.globals, ⟨[], h.finished.trans (List.append_nil _).symm, rfl, nofun⟩, h.draft.symbol,
    h.depth, hle, fun hnmd => hnmd.gains h.draft hle⟩

/-! ## Nested statements -/

theorem keeping_nested (construct : String) (loc : Location) (x : Lowering Unit) :
    Keeping (0 < ·) (do requireTopLevel construct loc; x) := by
  intro s hs
  refine Yields.bind (R := fun _ _ => False) (.get_bind ?_) fun _ _ h => h.elim
  split
  · next h => exact absurd h.2 (Nat.ne_of_gt hs)
  · exact .throw

/-- Compilation with scopes adds nothing, if what is declared outside of all of them is left out. -/
theorem Nested.keeping {K : Lowering Unit → Prop} {inside : Bool} {x : Lowering α}
    (hx : Nested Identifier K inside x) : Keeping (fun depth => inside = true → 0 < depth) x := by
  induction hx with
  | step steps => exact steps.quiet.keeping
  | bind _ _ hx hf => exact .bind hx hf
  | inScope _ hx => exact Keeping.inScope fun s hs => hx s fun _ => hs
  | declare hname steps =>
    exact fun s hs => keeping_declareVariable hname _ steps.quiet s (hs rfl)
  | comment loc => exact (quiet_statementComment loc).keeping
  | definition => exact fun s hs => keeping_nested _ _ _ s (hs rfl)

theorem Inside.identified {body : List Stmt} (h : Inside st C body e) (hst : Identified st.nodes) :
    Identified (Stmt.nodesAll body) := by
  cases h <;> simp only [Stmt.nodes, identified_cons, identified_append] at hst <;> tauto

theorem mem_nodes (st : Stmt) : .stmt st ∈ st.nodes := by
  cases st <;> rw [Stmt.nodes] <;> exact .head _

theorem nested_lowerAll (l : List Stmt) (hl : Identified (Stmt.nodesAll l)) :
    Nested Identifier (fun _ => True) true (Stmt.lowerAll l) := by
  cases l with
  | nil =>
    rw [Stmt.lowerAll]
    exact .step inferInstance
  | cons st rest =>
    rw [Stmt.nodesAll, identified_append] at hl
    have hbodies : ∀ C body e, Inside st C body e →
        Nested Identifier (fun _ => True) true (Stmt.lowerAll body) := by
      intro C body e h
      have hlt : sizeOf body < sizeOf (st :: rest) := by
        have := h.sizeOf_lt
        simp only [List.cons.sizeOf_spec]
        omega
      exact nested_lowerAll body (h.identified hl.1)
    have hcode : Nested Identifier (fun _ => True) true (code st) := by
      have hnms := hl.1 _ (mem_nodes st)
      cases st with
      | var loc name init =>
        exact .bind (.declare (hnms name (.head _)) inferInstance) fun _ =>
          .step inferInstance
      | function loc f => exact .definition trivial
      | classDef loc c => exact .definition trivial
      | _ => exact nested_code rfl (fun _ _ h => by cases h) hnms hbodies
    rw [Stmt.lowerAll, lower_eq]
    exact .bind (.bind (.comment st.loc) fun _ => hcode) fun _ => nested_lowerAll rest hl.2
termination_by sizeOf l

theorem keeping_lowerAll (l : List Stmt) (hl : Identified (Stmt.nodesAll l)) :
    Keeping (0 < ·) (Stmt.lowerAll l) :=
  fun s hs => (nested_lowerAll l hl).keeping s fun _ => hs

/-! ## Definitions -/

theorem named_start (symbol : String) (limit : Nat) :
    Ir.Named limit (Draft.start symbol .value).registers (Draft.start symbol .value).blocks where
  distinct := List.nodup_singleton "result"
  spelled := List.forall_mem_singleton.mpr
    ⟨.fixed "result", show "result" ∈ Ir.fixedNames by decide, rfl⟩
  labelled b hb := by
    have hlabels : (Draft.start symbol .value).blocks.toList.map (·.label) = ["entry", "body", "exit"] :=
      rfl
    have hmem := hlabels ▸ List.mem_map_of_mem hb
    exact (show ["entry", "body", "exit"] ⊆ Ir.labels by decide) hmem

theorem adding_define (symbol : String) {x : Lowering Unit}
    (hx : ∀ s, s.body.draft = Draft.start symbol .value → 0 < s.scope.depth →
      Yields x s fun _ s' => s.Adds [] [] s') : Adding P [] [symbol] (define symbol x) := by
  intro s _
  refine Yields.get_bind ?_
  refine .modify_bind ?_
  refine (yields_inScope (hx _ rfl (Nat.succ_pos _))).bind fun _ t ht => ?_
  have hnmd : t.Named := ht.named (named_start symbol _)
  refine Yields.bind (R := fun _ s' => ∃ f d, s' =
    { t with finished := t.finished ++ [f], body := { t.body with draft := d } } ∧
    f.symbol = symbol ∧ f.Named) ?_ ?_
  · refine (yields_drafting (Draft.yields_finish_named hnmd)).bind ?_
    rintro f _ ⟨⟨d, rfl⟩, hsym, hf⟩
    exact .modifyGet ⟨f, d, rfl, hsym.trans ht.symbol, hf⟩
  rintro _ _ ⟨f, d, rfl, hsym, hf⟩
  obtain ⟨fs, hfin, hsymbols, -⟩ := ht.finished
  obtain rfl : fs = [] := List.map_eq_nil_iff.mp hsymbols
  refine .modifyGet ⟨ht.globals, ⟨[f], ?_, ?_, ?_⟩, rfl, ht.depth, ht.ordinals,
    fun hs => hs.mono ht.ordinals⟩
  · show t.finished ++ [f] = _
    rw [hfin, List.append_nil]
  · rw [List.map_singleton, hsym]
  · exact List.forall_mem_singleton.mpr hf

theorem yields_declareArguments (loc : Location) (params : List String)
    (hprms : ∀ p ∈ params, Identifier p) (hdist : params.Nodup) (i : Nat) (s : Session)
    (hs : 0 < s.scope.depth)
    (hfresh : ∀ p ∈ params, (Ir.Naming.argument p).text ∉ ownNames s.body.draft.registers) :
    Yields (declareParameters loc (fun _ p => drafting (Draft.parameter .value ("arg." ++ p))) i
      params) s fun _ s' => s.Adds [] [] s' := by
  induction params generalizing i s with
  | nil => exact (Quiet.pure () s).mono fun _ _ h => h.adds
  | cons p rest ih =>
    obtain ⟨hp, hrest⟩ := List.forall_mem_cons.mp hprms
    obtain ⟨hnew, hrestFresh⟩ := List.forall_mem_cons.mp hfresh
    obtain ⟨hnot, hrestDistinct⟩ := List.nodup_cons.mp hdist
    refine (yields_declareVariable s p loc (gaining_drafting (Draft.gaining_parameter .value
      ("arg." ++ p)))).bind fun _ s1 h1 => ?_
    have h1 := h1.2 hs
    have hlt : s.scope.nextLocal < s1.scope.nextLocal := h1.ordinals ▸ Nat.lt_succ_self _
    have hadds : s.Adds [] [] s1 := by
      refine ⟨h1.globals, ⟨[], h1.finished.trans (List.append_nil _).symm, rfl, nofun⟩,
        h1.draft.symbol, h1.depth, Nat.le_of_lt hlt, fun hnmd =>
        h1.draft.named hnmd (Nat.le_of_lt hlt) ?_ ?_⟩
      · exact List.forall_mem_cons.mpr ⟨⟨.argument p, hp, rfl⟩,
          List.forall_mem_singleton.mpr ⟨.slot p s.scope.nextLocal, ⟨hp, hlt⟩, rfl⟩⟩
      · rw [← List.append_assoc]
        refine (nodup_concat_iff ((nodup_concat_iff hnmd.distinct).mpr hnew)).mpr fun hmem => ?_
        rcases List.mem_append.mp hmem with hmem | hmem
        · exact hnmd.slot_not_mem hp hmem
        · cases Ir.Naming.text_inj (ν := .slot p _) (μ := .argument p) hp hp
            (List.mem_singleton.mp hmem)
    refine (ih hrest hrestDistinct (i + 1) s1 (h1.depth ▸ hs) fun q hq hmem => ?_).mono
      fun _ _ h2 => hadds.trans h2
    rw [h1.draft.names] at hmem
    rcases List.mem_append.mp hmem with hmem | hmem
    · exact hrestFresh q hq hmem
    rcases List.mem_cons.mp hmem with heq | hmem
    · have heq := Ir.Naming.text_inj (ν := .argument q) (μ := .argument p) (hrest q hq) hp heq
      exact hnot (Ir.Naming.argument.inj heq ▸ hq)
    · cases Ir.Naming.text_inj (ν := .argument q) (μ := .slot p _) (hrest q hq) hp
        (List.mem_singleton.mp hmem)

theorem keeping_declareParameters (loc : Location) {value : Nat → String → Lowering Nat}
    (hval : ∀ i p, Quiet (value i p)) (params : List String)
    (hprms : ∀ p ∈ params, Identifier p) (i : Nat) :
    Keeping (0 < ·) (declareParameters loc value i params) := by
  induction params generalizing i with
  | nil => exact (Quiet.pure ()).keeping
  | cons p rest ih =>
    obtain ⟨hp, hrest⟩ := List.forall_mem_cons.mp hprms
    exact .bind (keeping_declareVariable hp loc (hval i p)) fun _ => ih hrest (i + 1)

theorem keeping_returning (hbody : Keeping P body) : Keeping P (returning body) :=
  .bind hbody fun _ => (Composed.quiet inferInstance).keeping

theorem adding_functionBody (loc : Location) (name : String) (hprms : ∀ p ∈ params, Identifier p)
    (hdist : params.Nodup) (hbody : Keeping (0 < ·) body) :
    Adding P [] [functionSymbol name] (functionBody loc name params body) := by
  refine adding_define _ fun s hstart hs => ?_
  have hfresh : ∀ p ∈ params, (Ir.Naming.argument p).text ∉ ownNames s.body.draft.registers := by
    intro p hp hmem
    rw [hstart] at hmem
    cases Ir.Naming.text_inj (ν := .argument p) (μ := .fixed "result") (hprms p hp)
      (show "result" ∈ Ir.fixedNames by decide) (List.mem_singleton.mp hmem)
  refine (yields_declareArguments loc params hprms hdist 0 s hs hfresh).bind fun _ s1 h1 => ?_
  exact (keeping_returning hbody s1 (h1.depth ▸ hs)).mono fun _ _ h2 => h1.trans h2

theorem Gaining.adds {x : Lowering α} (hx : Gaining names x)
    (hnms : ∀ name ∈ names, name ∈ Ir.fixedNames)
    (hfresh : (ownNames s.body.draft.registers ++ names).Nodup) :
    Yields x s fun _ s' => s.Adds [] [] s' ∧
      ownNames s'.body.draft.registers = ownNames s.body.draft.registers ++ names := by
  refine (hx s).mono fun _ s' h => ⟨⟨h.globals.trans (List.append_nil _).symm,
    ⟨[], h.finished.trans (List.append_nil _).symm, rfl, nofun⟩, h.draft.symbol, by rw [h.scope],
    by rw [h.scope], fun hs => ?_⟩, h.draft.names⟩
  exact h.draft.named hs (by rw [h.scope]) (fun name hname => ⟨.fixed name, hnms name hname, rfl⟩)
    hfresh

theorem gaining_receiverParameter : Gaining ["this"] receiverParameter := by
  intro s
  refine (gaining_drafting (Draft.gaining_parameter .value "this") s).bind fun this s1 h1 => ?_
  exact .modifyGet ⟨h1.scope, h1.globals, h1.finished, h1.draft⟩

theorem adding_methodBody (symbol : String) (loc : Location) (hprms : ∀ p ∈ params, Identifier p)
    (hbody : Keeping (0 < ·) body) : Adding P [] [symbol] (methodBody symbol loc params body) := by
  refine adding_define _ fun s hstart hs => ?_
  have hnms : ownNames s.body.draft.registers = ["result"] := by
    rw [hstart]
    rfl
  refine (gaining_receiverParameter.adds (by decide) (by rw [hnms]; decide)).bind ?_
  rintro _ s1 ⟨h1, hnames1⟩
  rw [hnms] at hnames1
  refine ((gaining_drafting (Draft.gaining_parameter .ptr "args")).adds (by decide)
    (by rw [hnames1]; decide)).bind ?_
  rintro arguments s2 ⟨h2, hnames2⟩
  rw [hnames1] at hnames2
  refine ((gaining_drafting (Draft.gaining_parameter .i32 "argc")).adds (by decide)
    (by rw [hnames2]; decide)).bind ?_
  rintro _ s3 ⟨h3, -⟩
  have h := h1.trans (h2.trans h3)
  have hval : ∀ (i : Nat) (_ : String), Quiet (drafting do
      let cell ← Draft.element arguments i
      Draft.load .value (.reg cell)) := fun _ _ => Composed.quiet inferInstance
  have hrest := Keeping.bind (keeping_declareParameters loc hval params hprms 0) fun _ =>
    keeping_returning hbody
  exact (hrest s3 (h.depth ▸ hs)).mono fun _ _ h' => h.trans h'

theorem adding_initializer (symbol : String) (init : Option Expr) :
    Adding P [] [symbol] (initializer symbol init) := by
  refine adding_define _ fun s hstart hs => ?_
  refine (gaining_receiverParameter.adds (by decide) (by rw [hstart]; exact show ["result", "this"].Nodup by decide)).bind ?_
  rintro _ s1 ⟨h1, -⟩
  have hrest : Quiet (do
      let r ← Expr.lowerOption init
      drafting (Draft.emitReturn (some r))) :=
    Composed.quiet inferInstance
  exact (hrest s1).mono fun _ _ h2 => h1.trans h2.adds

theorem adding_fields (cls : String) (slot : Operand) (fs : List FieldDef) :
    Adding P [] (fs.map (memberSymbol "field" cls ·.name)) (fields cls slot fs) := by
  induction fs with
  | nil => exact (Quiet.pure ()).keeping
  | cons f rest ih =>
    exact Adding.bind (G := []) (F := [_]) (adding_initializer _ f.init) fun _ =>
      (Composed.quiet inferInstance).adding fun _ => (Composed.quiet inferInstance).adding fun _ =>
      (Composed.quiet inferInstance).adding fun _ => ih

theorem adding_lowerMethods (cls : String) (slot : Operand)
    (methods : List (FunctionDef (List Stmt))) (hnms : Identified (Stmt.nodesMethods methods)) :
    Adding P [] (methods.map (memberSymbol "method" cls ·.name))
      (Stmt.lowerMethods cls slot methods) := by
  induction methods with
  | nil =>
    rw [Stmt.lowerMethods]
    exact (Quiet.pure ()).keeping
  | cons f rest ih =>
    rw [Stmt.nodesMethods, identified_cons, identified_append] at hnms
    obtain ⟨hf, hbody, hrest⟩ := hnms
    rw [Stmt.lowerMethods]
    exact Adding.bind (G := []) (F := [_]) (adding_methodBody _ f.loc
      (fun p hp => hf p (.tail _ hp)) (keeping_lowerAll f.body hbody)) fun _ =>
      (Composed.quiet inferInstance).adding fun _ => ih hrest

/-! ## Programs -/

/-- The slots of the variables that a statement declares at the top level. -/
def slotsOf (st : Stmt) : List String :=
  st.declared?.toList.map ("g." ++ ·)

theorem adding_code (st : Stmt) (hst : Identified st.nodes)
    (hprms : ∀ loc f, st = .function loc f → f.params.Nodup) :
    Adding (· = 0) (slotsOf st) (symbols st) (code st) := by
  have hnms := hst _ (mem_nodes st)
  -- what a statement without a definition declares is in scopes of its own
  have hscoped (hnested : Nested Identifier (fun _ => True) false (code st)) :
      Keeping (· = 0) (code st) := fun s _ => hnested.keeping s fun h => by cases h
  cases st with
  | var loc name init =>
    exact Adding.bind (G := [_]) (F := []) (adding_declareVariable name loc
      (composed_lowerOption init).quiet) fun _ => (Quiet.pure ()).keeping
  | function loc f =>
    rw [Stmt.nodes, identified_cons, identified_cons] at hst
    obtain ⟨-, hf, hbody⟩ := hst
    exact (Composed.quiet inferInstance).adding fun _ => adding_functionBody f.loc f.name
      (fun p hp => hf p (.tail _ hp)) (hprms loc f rfl) (keeping_lowerAll f.body hbody)
  | classDef loc c =>
    rw [Stmt.nodes, identified_cons, identified_cons, identified_append] at hst
    obtain ⟨-, -, -, hmeths⟩ := hst
    have hclass : Adding (· = 0) ["g." ++ c.name] [] (newClass c.loc c.name) :=
      Adding.bind (G := [_]) (F := []) (adding_declareVariable c.name c.loc
        (Composed.quiet inferInstance)) fun _ => (Composed.quiet inferInstance).keeping
    exact (Composed.quiet inferInstance).adding fun _ => Adding.bind (G := [_]) (F := [])
      hclass fun slot => Adding.bind (G := []) (adding_fields c.name slot c.fields) fun _ =>
      adding_lowerMethods c.name slot c.methods hmeths
  | _ =>
    exact hscoped (nested_code rfl (fun _ _ h => by cases h) hnms fun C body e h =>
      nested_lowerAll body (h.identified hst))

theorem adding_lowerAll (l : List Stmt) (hl : Identified (Stmt.nodesAll l))
    (hprms : ∀ loc f, .function loc f ∈ l → f.params.Nodup) :
    Adding (· = 0) (l.flatMap slotsOf) (l.flatMap symbols) (Stmt.lowerAll l) := by
  induction l with
  | nil =>
    rw [Stmt.lowerAll]
    exact (Quiet.pure ()).keeping
  | cons st rest ih =>
    rw [Stmt.nodesAll, identified_append] at hl
    rw [Stmt.lowerAll, lower_eq, List.flatMap_cons, List.flatMap_cons]
    exact .bind ((quiet_statementComment st.loc).adding fun _ => adding_code st hl.1 fun loc f h =>
      hprms loc f (h ▸ List.mem_cons_self)) fun _ => ih hl.2 fun loc f hf =>
        hprms loc f (.tail _ hf)

theorem gaining_openMain : Draft.Gaining ["argc", "argv", "stack.bottom"] openMain :=
  .bind (Draft.gaining_parameter .i32 "argc") fun _ =>
    .bind (Draft.gaining_parameter .ptr "argv") fun _ =>
    .bind (Draft.quiet_pushPrologue _) fun _ =>
    .before (Draft.gaining_register .ptr (some "stack.bottom")) fun _ =>
    .bind (Draft.quiet_pushPrologue _) fun _ => .bind (Draft.quiet_pushPrologue _) fun _ =>
    Draft.quiet_pushPrologue _

theorem yields_prepare_named (p : Program) (annotate : Bool) :
    Yields (prepare p) (start annotate) fun _ s => s.globals = [] ∧ s.finished = [] ∧
      s.scope.depth = 0 ∧ s.body.draft.symbol = "main" ∧ s.Named := by
  refine (yields_registerItems p annotate).bind fun _ s1 hs1 => ?_
  refine .modify_bind ?_
  refine (gaining_drafting gaining_openMain _).mono fun _ s2 h2 => ?_
  have hdr : s1.body.draft = Draft.start "main" .i32 := by rw [hs1.body]
  have hgains := h2.draft
  rw [show ({ s1 with pool := p.pool } : Session).body.draft = _ from hdr] at hgains
  refine ⟨h2.globals.trans hs1.globals, h2.finished.trans hs1.finished, ?_, hgains.symbol, ?_⟩
  · rw [h2.scope]
    exact Scope.inner_eq_nil_iff.mp hs1.inner
  · have hstart : Ir.Named s2.scope.nextLocal (Draft.start "main" .i32).registers
        (Draft.start "main" .i32).blocks := ⟨List.nodup_nil, nofun, fun b hb => ?_⟩
    · refine hgains.named hstart (Nat.le_refl _) (fun name hname => ⟨.fixed name, ?_, rfl⟩) ?_
      · exact (show ["argc", "argv", "stack.bottom"] ⊆ Ir.fixedNames by decide) hname
      · exact show ["argc", "argv", "stack.bottom"].Nodup by decide
    · have hlabels : (Draft.start "main" .i32).blocks.toList.map (·.label) =
          ["entry", "body", "exit"] := rfl
      have hmem := hlabels ▸ List.mem_map_of_mem hb
      exact (show ["entry", "body", "exit"] ⊆ Ir.labels by decide) hmem

end Lowering

open Lowering

theorem Stmt.ValidAll.exists_valid {Γ : Surroundings} {l : List Stmt} (h : Stmt.ValidAll Γ l)
    (hst : st ∈ l) : ∃ Γ', st.Valid Γ' := by
  induction l generalizing Γ with
  | nil => cases hst
  | cons st' rest ih =>
    rw [Stmt.ValidAll] at h
    rcases List.mem_cons.mp hst with rfl | hst
    · exact ⟨Γ, h.1⟩
    · exact ih h.2 hst

/-- A module has one slot for each variable of the top level, one function for each definition, and
the main function last. -/
theorem Program.lower_adds {p : Program} {annotate : Bool} {m : Ir.Module} (hp : Identified p.nodes)
    (h : p.lower annotate = .ok m) : m.globals = p.flatMap slotsOf ∧
      m.functions.map (·.symbol) = p.flatMap symbols ++ ["main"] ∧ ∀ f ∈ m.functions, f.Named := by
  have haccepted : p.Accepted := by
    rcases p.lower_cases annotate with ⟨haccepted, -⟩ | ⟨-, d, heq, -⟩
    · exact haccepted
    · cases heq.symm.trans h
  have hprms : ∀ loc f, .function loc f ∈ p → f.params.Nodup := by
    intro loc f hf
    obtain ⟨Γ, hvalid⟩ := haccepted.body.exists_valid hf
    rw [Stmt.Valid] at hvalid
    exact (List.nodup_append.mp hvalid.2.1).1
  obtain ⟨s, -, s', s'', hprepare, -, hlow, hrun, rfl⟩ := lower_eq_ok h
  obtain ⟨hglobs, hfin, hdep, hsym, hnmd⟩ := yields_prepare_named p annotate _ _ hprepare
  have hadds := adding_lowerAll p hp hprms s hdep _ _ hlow
  obtain ⟨fs, hfs, hsymbols, hfsNamed⟩ := hadds.finished
  have hend : Yields (do drafting (Draft.emitReturn none); finishBody) s' fun _ t =>
      t.globals = s'.globals ∧ ∃ f, t.finished = s'.finished ++ [f] ∧ f.symbol = "main" ∧ f.Named := by
    refine ((Composed.quiet inferInstance : Quiet (drafting (Draft.emitReturn none))) s').bind fun _ t1 h1 => ?_
    have hnamed1 : t1.Named := (hadds.named hnmd).gains h1.draft (by rw [h1.scope])
    refine (yields_drafting (Draft.yields_finish_named hnamed1)).bind ?_
    rintro f _ ⟨⟨d, rfl⟩, hmain, hf⟩
    refine .modifyGet ⟨h1.globals, f, ?_, ?_, hf⟩
    · show t1.finished ++ [f] = _
      rw [h1.finished]
    · rw [hmain, h1.draft.symbol, hadds.symbol, hsym]
  obtain ⟨hglobals', f, hfinished', hmain, hf⟩ := hend _ _ hrun
  have hfns : s''.finished = fs ++ [f] := by rw [hfinished', hfs, hfin, List.nil_append]
  refine ⟨?_, ?_, ?_⟩
  · show s''.globals = _
    rw [hglobals', hadds.globals, hglobs, List.nil_append]
  · show s''.finished.map _ = _
    rw [hfns, List.map_append, hsymbols, List.map_singleton, hmain]
  · show ∀ f ∈ s''.finished, _
    rw [hfns]
    exact List.forall_mem_append.mpr ⟨hfsNamed, List.forall_mem_singleton.mpr hf⟩

end Ember
