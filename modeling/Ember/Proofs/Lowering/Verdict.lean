import Ember.Proofs.Lowering.Acceptance
import Ember.Proofs.Lowering.Registration

/-!
# Ember — which programs are accepted

A compilation registers the functions and classes of a program, pools its texts and compiles its
statements. It ends well exactly if the program keeps the static rules, and otherwise with a
diagnostic about the program.

Main result: `lower_isOk_iff`.
-/

namespace Ember

open Ir (Draft)

variable {p : Program}

/-! ## Pooled texts -/

namespace Pool

variable {π : Pool} {text other : String} {texts : List String}

theorem mem_iff : text ∈ π ↔ text ∈ π.texts.entries := by
  show (∃ id, π.texts.entries.findIdx? (· == text) = some id) ↔ _
  rw [← Option.isSome_iff_exists, Array.findIdx?_isSome]
  simp [Array.mem_iff_getElem]

theorem mem_intern : text ∈ π.intern other ↔ text ∈ π ∨ text = other := by
  unfold intern
  split
  · next id hid =>
    refine ⟨.inl, ?_⟩
    rintro (h | rfl)
    · exact h
    · exact ⟨id, hid⟩
  · rw [mem_iff, mem_iff]
    exact Array.mem_push

theorem mem_internAll : text ∈ π.internAll texts ↔ text ∈ π ∨ text ∈ texts := by
  unfold internAll
  induction texts generalizing π with
  | nil => simp
  | cons first rest ih =>
    rw [List.foldl_cons, ih, mem_intern, List.mem_cons, or_assoc]

theorem get?_of_lookup {id : Nat} (h : π.lookup text = .ok id) : π.texts.get? id = some text := by
  unfold lookup find? at h
  split at h
  · next i hi =>
    cases h
    obtain ⟨hlt, heq, -⟩ := Array.findIdx?_eq_some_iff_getElem.mp hi
    exact (Array.getElem?_eq_getElem hlt).trans (congrArg some (by simpa using heq))
  · cases h

end Pool

theorem Program.mem_pool {text : String} : text ∈ p.pool ↔ text ∈ p.constants := by
  unfold Program.pool
  rw [Pool.mem_internAll, Pool.mem_iff]
  simp

theorem Program.covers (p : Program) : Lowering.Covers p.pool p.nodes := fun n hn _ htext =>
  Program.mem_pool.mpr (List.mem_flatMap.mpr ⟨n, hn, htext⟩)

/-! ## Registration -/

namespace Classes

variable {infos : List ClassInfo} {info : ClassInfo}

theorem find?_last (h : info.name ∉ infos.map (·.name)) :
    Classes.find? ⟨infos ++ [info]⟩ info.name = some info := by
  unfold find?
  rw [List.find?_append, List.find?_eq_none.mpr, Option.none_or]
  · simp
  · intro other hoth heq
    exact h (List.mem_map.mpr ⟨other, hoth, by simpa using heq⟩)

theorem update_last (h : info.name ∉ infos.map (·.name)) (f : ClassInfo → ClassInfo) :
    Classes.update ⟨infos ++ [info]⟩ info.name f = ⟨infos ++ [f info]⟩ := by
  unfold update
  rw [List.map_append]
  congr 2
  · have hkeep : ∀ other ∈ infos, (if other.name = info.name then f other else other) = other :=
      fun other hoth => if_neg fun heq => h (List.mem_map.mpr ⟨other, hoth, heq⟩)
    exact (List.map_congr_left hkeep).trans (List.map_id _)
  · simp

end Classes

/-- What is registered of a class. -/
def ClassDef.info (c : ClassDef (List Stmt)) : ClassInfo where
  name := c.name
  members := c.fields.map (·.name) ++ c.methods.map (·.name)
  initArity := (c.methods.find? fun f => f.name == "init").map (·.params.length)

theorem ClassDef.getD_initArity (c : ClassDef (List Stmt)) : c.info.initArity.getD 0 = c.initArity := by
  unfold ClassDef.info ClassDef.initArity
  dsimp only
  cases c.methods.find? fun f => f.name == "init" <;> rfl

namespace Lowering

/-- A session in which nothing is written or declared, and these functions and classes are
registered. -/
structure Registering (functions : List (String × Nat)) (infos : List ClassInfo) (s : Session) :
    Prop where
  body : s.body = { draft := Draft.start "main" .i32, kind := .program }
  outer : s.scope.outer = []
  inner : s.scope.inner = []
  named : ∀ name, s.scope.hasFunction name = true ↔ name ∈ functions.map Prod.fst
  functions : s.functions.infos.map (fun f => (f.name, f.arity)) = functions
  classes : s.classes.infos = infos

variable {functions : List (String × Nat)} {infos : List ClassInfo} {info : ClassInfo} {s : Session}
  {α : Type}

/-- What is decided of the items of a list one by one, where the rule for some of them follows from
that for more of them. -/
theorem decides_forM {J : List α → Session → Prop} {W : List α → Prop} {f : α → Lowering Unit}
    (hJ : ∀ done s, J done s → W done) (hW : ∀ done a rest, W (done ++ a :: rest) → W (done ++ [a]))
    (hf : ∀ done a s, J done s → Decides (f a) s (W (done ++ [a])) fun _ s' => J (done ++ [a]) s')
    (l done : List α) (hs : J done s) :
    Decides (l.forM f) s (W (done ++ l)) fun _ s' => J (done ++ l) s' := by
  induction l generalizing s done with
  | nil =>
    rw [List.append_nil]
    exact .inl ⟨hJ done s hs, Succeeds.pure hs⟩
  | cons a rest ih =>
    have hrest := fun s1 hs1 => ih (done ++ [a]) (s := s1) hs1
    simp only [List.append_assoc, List.singleton_append] at hrest
    refine ((hf done a s hs).bind fun _ s1 hs1 => hrest s1 hs1).congr ?_
    exact and_iff_right_of_imp (hW done a rest)

theorem unreserved_iff (name : String) :
    Unreserved name ↔ ¬ ((Ir.Builtin.ofName? name).isSome ∨ (Ir.MathOp.ofName? name).isSome) := by
  simp only [Unreserved, not_or, Option.not_isSome_iff_eq_none, Option.eq_none_iff_forall_ne_some,
    ne_eq, builtin_ofName?_iff, mathOp_ofName?_iff]

theorem Registering.find?_eq_none_iff (hs : Registering functions infos s) (name : String) :
    s.functions.find? name = none ↔ name ∉ functions.map Prod.fst := by
  rw [← hs.functions, List.map_map, Functions.find?, List.find?_eq_none, List.mem_map, not_exists]
  exact forall_congr' fun f => by simp

theorem decides_registerFunction (f : FunctionDef (List Stmt)) (hs : Registering functions infos s) :
    Decides (registerFunction f) s (Unreserved f.name ∧ f.name ∉ functions.map Prod.fst) fun _ s' =>
      Registering (functions ++ [(f.name, f.params.length)]) infos s' := by
  unfold registerFunction
  split
  · next hreserved =>
    exact .inr ⟨fun h => (unreserved_iff _).mp h.1 hreserved, _, _, rfl, nofun⟩
  next hreserved =>
  have hunreserved : Unreserved f.name := (unreserved_iff _).mpr hreserved
  refine Decides.get_bind ?_
  unfold Functions.register
  cases hfind : s.functions.find? f.name with
  | some other =>
    refine .inr ⟨fun h => ?_, _, _, rfl, nofun⟩
    cases hfind.symm.trans ((hs.find?_eq_none_iff f.name).mpr h.2)
  | none =>
    have hname := (hs.find?_eq_none_iff f.name).mp hfind
    have hlookup : s.scope.lookupAtDepth f.name 0 = none := by
      rw [Scope.lookupAtDepth, Scope.findVisible?, Scope.visible_eq, hs.inner, hs.outer]
      rfl
    have hnmd : s.scope.hasFunction f.name = false :=
      Bool.eq_false_iff.mpr fun h => hname ((hs.named f.name).mp h)
    rw [Scope.declareFunction_eq, hlookup, hnmd]
    refine .inl ⟨⟨hunreserved, hname⟩, (), _, rfl, { hs with named := fun other => ?_, functions := ?_ }⟩
    · show ((f.name == other) || s.scope.hasFunction other) = true ↔ _
      rw [Bool.or_eq_true, beq_iff_eq, hs.named, List.map_append, List.mem_append, or_comm]
      exact or_congr_right (eq_comm.trans List.mem_singleton.symm)
    · simp [hs.functions]

theorem decides_registerMember (hs : Registering functions (infos ++ [info]) s)
    (hinfo : info.name ∉ infos.map (·.name)) (name : String) (loc : Location) :
    Decides (registerMember info.name name loc) s (name ∉ info.members) fun _ s' =>
      Registering functions (infos ++ [{ info with members := info.members ++ [name] }]) s' := by
  have hcls : s.classes = ⟨infos ++ [info]⟩ := congrArg Classes.mk hs.classes
  refine .get_bind ?_
  unfold Classes.addMember
  rw [hcls, Classes.find?_last hinfo]
  dsimp only
  split
  · next hmem => exact .inr ⟨fun h => h (List.contains_iff_mem.mp hmem), _, _, rfl, nofun⟩
  · next hmem =>
    refine .inl ⟨fun h => hmem (List.contains_iff_mem.mpr h), (), _, rfl, { hs with classes := ?_ }⟩
    exact congrArg Classes.infos (Classes.update_last hinfo _)

theorem nodup_concat_iff {l : List α} {a : α} (hl : l.Nodup) : (l ++ [a]).Nodup ↔ a ∉ l := by
  rw [List.nodup_append]
  simp only [hl, List.nodup_singleton, true_and, List.mem_singleton, forall_eq]
  exact ⟨fun h hmem => h a hmem rfl, fun h b hb heq => h (heq ▸ hb)⟩

theorem nodup_of_append_cons (names : List String) (name : α → String) {done rest : List α} {a : α}
    (h : (names ++ (done ++ a :: rest).map name).Nodup) :
    (names ++ (done ++ [a]).map name).Nodup := by
  refine List.Nodup.sublist ?_ h
  exact (((List.singleton_sublist.mpr (.head _)).append_left done).map name).append_left names

theorem decides_registerField (c : ClassDef (List Stmt)) {done : List FieldDef} (f : FieldDef)
    (hc : c.name ∉ infos.map (·.name)) (hdone : (done.map (·.name)).Nodup)
    (hs : Registering functions
      (infos ++ [ClassDef.info { c with fields := done, methods := [] }]) s) :
    Decides (registerMember c.name f.name f.loc) s (((done ++ [f]).map (·.name)).Nodup) fun _ s' =>
      Registering functions
        (infos ++ [ClassDef.info { c with fields := done ++ [f], methods := [] }]) s' := by
  refine ((decides_registerMember hs hc f.name f.loc).congr ?_).mono fun _ s' hs' => ?_
  · rw [List.map_append, List.map_singleton, nodup_concat_iff hdone]
    simp [ClassDef.info]
  · have hinfo : ClassDef.info { c with fields := done ++ [f], methods := [] } =
        { ClassDef.info { c with fields := done, methods := [] } with
          members := done.map (·.name) ++ [] ++ [f.name] } := by
      simp [ClassDef.info]
    rw [hinfo]
    exact hs'

theorem decides_registerMethod (c : ClassDef (List Stmt)) {done : List (FunctionDef (List Stmt))}
    (f : FunctionDef (List Stmt)) (hc : c.name ∉ infos.map (·.name))
    (hdone : (c.fields.map (·.name) ++ done.map (·.name)).Nodup)
    (hs : Registering functions (infos ++ [ClassDef.info { c with methods := done }]) s) :
    Decides (do
        registerMember c.name f.name f.loc
        if f.name = "init" then
          modify fun s => { s with classes := s.classes.setInitArity c.name f.params.length }) s
      (c.fields.map (·.name) ++ (done ++ [f]).map (·.name)).Nodup fun _ s' =>
      Registering functions (infos ++ [ClassDef.info { c with methods := done ++ [f] }]) s' := by
  refine (((decides_registerMember hs hc f.name f.loc).congr ?_).keep).before ?_
  · rw [List.map_append, List.map_singleton, ← List.append_assoc, nodup_concat_iff hdone]
    rfl
  rintro _ s1 ⟨hnd, hs1⟩
  split
  · next hinit =>
    -- No method before has the name.
    have hnone : (done.find? fun f => f.name == "init") = none := by
      rw [List.find?_eq_none]
      intro other hoth heq
      rw [List.map_append, ← List.append_assoc, List.map_singleton, nodup_concat_iff hdone] at hnd
      refine hnd (List.mem_append_right _ (List.mem_map.mpr ⟨other, hoth, ?_⟩))
      exact (beq_iff_eq.mp heq).trans hinit.symm
    have hinfo : ClassDef.info { c with methods := done ++ [f] } =
        { ClassDef.info { c with methods := done } with
          members := c.fields.map (·.name) ++ done.map (·.name) ++ [f.name]
          initArity := some f.params.length } := by
      simp [ClassDef.info, List.find?_append, hnone, hinit]
    rw [hinfo]
    refine ⟨(), _, rfl, { hs1 with classes := ?_ }⟩
    have hcls : s1.classes = ⟨_⟩ := congrArg Classes.mk hs1.classes
    show (s1.classes.setInitArity c.name f.params.length).infos = _
    rw [hcls]
    exact congrArg Classes.infos (Classes.update_last hc _)
  · next hinit =>
    have hinfo : ClassDef.info { c with methods := done ++ [f] } =
        { ClassDef.info { c with methods := done } with
          members := c.fields.map (·.name) ++ done.map (·.name) ++ [f.name] } := by
      simp [ClassDef.info, List.find?_append, hinit]
    rw [hinfo]
    exact .pure hs1

theorem decides_registerFields (c : ClassDef (List Stmt)) (hc : c.name ∉ infos.map (·.name))
    (hs : Registering functions (infos ++ [ClassDef.info { c with fields := [], methods := [] }]) s) :
    Decides (c.fields.forM fun f => registerMember c.name f.name f.loc) s
      (c.fields.map (·.name)).Nodup fun _ s' =>
      (c.fields.map (·.name)).Nodup ∧
        Registering functions (infos ++ [ClassDef.info { c with methods := [] }]) s' := by
  refine decides_forM (J := fun done s => (done.map (·.name)).Nodup ∧ Registering functions
    (infos ++ [ClassDef.info { c with fields := done, methods := [] }]) s)
    (W := fun done => (done.map (·.name)).Nodup) (fun _ _ h => h.1) (fun done f rest h => ?_)
    (fun done f s h => ?_) c.fields [] ⟨List.nodup_nil, hs⟩
  · exact nodup_of_append_cons [] FieldDef.name h
  · exact (decides_registerField c f hc h.1 h.2).keep

theorem decides_registerMethods (c : ClassDef (List Stmt)) (hc : c.name ∉ infos.map (·.name))
    (hflds : (c.fields.map (·.name)).Nodup)
    (hs : Registering functions (infos ++ [ClassDef.info { c with methods := [] }]) s) :
    Decides (c.methods.forM fun f => do
        registerMember c.name f.name f.loc
        if f.name = "init" then
          modify fun s => { s with classes := s.classes.setInitArity c.name f.params.length }) s
      (c.fields.map (·.name) ++ c.methods.map (·.name)).Nodup fun _ s' =>
      Registering functions (infos ++ [c.info]) s' := by
  refine Decides.mono (decides_forM (J := fun done s =>
    (c.fields.map (·.name) ++ done.map (·.name)).Nodup ∧ Registering functions
      (infos ++ [ClassDef.info { c with methods := done }]) s)
    (W := fun done => (c.fields.map (·.name) ++ done.map (·.name)).Nodup) (fun _ _ h => h.1)
    (fun done f rest h => ?_) (fun done f s h => ?_) c.methods [] ⟨by simpa using hflds, hs⟩)
    fun _ _ h => h.2
  · exact nodup_of_append_cons (c.fields.map (·.name)) FunctionDef.name h
  · exact (decides_registerMethod c f hc h.1 h.2).keep

/-- A class is registered exactly if its name is new and its members have names of their own. -/
theorem decides_registerClass (c : ClassDef (List Stmt)) (hs : Registering functions infos s) :
    Decides (registerClass c) s (c.name ∉ infos.map (·.name) ∧
      (c.fields.map (·.name) ++ c.methods.map (·.name)).Nodup) fun _ s' =>
      Registering functions (infos ++ [c.info]) s' := by
  refine .get_bind ?_
  unfold Classes.register
  cases hfind : s.classes.find? c.name with
  | some other =>
    have hmem : other ∈ s.classes.infos := List.mem_of_find?_eq_some hfind
    have hname : other.name = c.name := by simpa using List.find?_some hfind
    rw [hs.classes] at hmem
    exact .inr ⟨fun h => h.1 (hname ▸ List.mem_map_of_mem hmem), _, _, rfl, nofun⟩
  | none =>
    have hc : c.name ∉ infos.map (·.name) := hs.classes ▸ Classes.find?_eq_none hfind
    refine Decides.congr ?_ (and_iff_right hc).symm
    refine Decides.after (R := fun classes s' => classes = ⟨s.classes.infos ++ [{ name := c.name }]⟩ ∧ s = s')
      ⟨_, _, rfl, rfl, rfl⟩ ?_
    rintro _ _ ⟨rfl, rfl⟩
    refine Decides.after (R := fun _ s' => Registering functions
      (infos ++ [ClassDef.info { c with fields := [], methods := [] }]) s') ?_ fun _ s1 hs1 => ?_
    · refine ⟨(), _, rfl, { hs with classes := ?_ }⟩
      rw [hs.classes]
      rfl
    refine ((decides_registerFields c hc hs1).bind fun _ s2 hs2 =>
      decides_registerMethods c hc hs2.1 hs2.2).congr ?_
    exact and_iff_right_of_imp fun h => (List.nodup_append.mp h).1

/-- What a program defines can be registered. -/
structure Registrable (p : Program) : Prop where
  unreserved : ∀ f ∈ p.functions, Unreserved f.name
  functions : (p.functions.map (·.name)).Nodup
  classes : (p.classes.map (·.name)).Nodup
  members : ∀ c ∈ p.classes, (c.fields.map (·.name) ++ c.methods.map (·.name)).Nodup

theorem functions_append (p q : Program) : Program.functions (p ++ q) = p.functions ++ q.functions :=
  List.filterMap_append

theorem classes_append (p q : Program) : Program.classes (p ++ q) = p.classes ++ q.classes :=
  List.filterMap_append

theorem Registrable.of_append {q : Program} (h : Registrable (p ++ q)) : Registrable p where
  unreserved f hf := h.unreserved f (functions_append p q ▸ List.mem_append_left _ hf)
  functions := by
    have hfns := h.functions
    rw [functions_append, List.map_append] at hfns
    exact (List.nodup_append.mp hfns).1
  classes := by
    have hcls := h.classes
    rw [classes_append, List.map_append] at hcls
    exact (List.nodup_append.mp hcls).1
  members c hc := h.members c (classes_append p q ▸ List.mem_append_left _ hc)

/-- What is registered of the first statements of a program. -/
abbrev Registers (p : Program) (s : Session) : Prop :=
  Registering p.surroundings.functions (p.classes.map ClassDef.info) s

theorem registrable_function (hp : Registrable p) (loc : Location) (f : FunctionDef (List Stmt)) :
    Unreserved f.name ∧ f.name ∉ p.functions.map (·.name) ↔
      Registrable (p ++ [.function loc f]) := by
  have hfns : Program.functions (p ++ [.function loc f]) = p.functions ++ [f] :=
    functions_append p _
  have hcls : Program.classes (p ++ [.function loc f]) = p.classes :=
    (classes_append p _).trans (List.append_nil _)
  have hnd : ((p.functions ++ [f]).map (·.name)).Nodup ↔ f.name ∉ p.functions.map (·.name) := by
    rw [List.map_append, List.map_singleton, nodup_concat_iff hp.functions]
  constructor
  · rintro ⟨hunreserved, hname⟩
    refine ⟨?_, hfns ▸ hnd.mpr hname, hcls ▸ hp.classes, hcls ▸ hp.members⟩
    rw [hfns, List.forall_mem_append]
    exact ⟨hp.unreserved, List.forall_mem_singleton.mpr hunreserved⟩
  · intro h
    refine ⟨h.unreserved f ?_, hnd.mp (hfns ▸ h.functions)⟩
    rw [hfns]
    exact List.mem_append_right _ (List.mem_singleton_self f)

theorem registrable_class (hp : Registrable p) (loc : Location) (c : ClassDef (List Stmt)) :
    c.name ∉ p.classes.map (·.name) ∧
      (c.fields.map (·.name) ++ c.methods.map (·.name)).Nodup ↔
      Registrable (p ++ [.classDef loc c]) := by
  have hfns : Program.functions (p ++ [.classDef loc c]) = p.functions :=
    (functions_append p _).trans (List.append_nil _)
  have hcls : Program.classes (p ++ [.classDef loc c]) = p.classes ++ [c] := classes_append p _
  have hnd : ((p.classes ++ [c]).map (·.name)).Nodup ↔ c.name ∉ p.classes.map (·.name) := by
    rw [List.map_append, List.map_singleton, nodup_concat_iff hp.classes]
  constructor
  · rintro ⟨hname, hmembers⟩
    refine ⟨hfns ▸ hp.unreserved, hfns ▸ hp.functions, hcls ▸ hnd.mpr hname, ?_⟩
    rw [hcls, List.forall_mem_append]
    exact ⟨hp.members, List.forall_mem_singleton.mpr hmembers⟩
  · intro h
    refine ⟨hnd.mp (hcls ▸ h.classes), h.members c ?_⟩
    rw [hcls]
    exact List.mem_append_right _ (List.mem_singleton_self c)

theorem decides_registerItem (hp : Registrable p) (hs : Registers p s) (st : Stmt) :
    Decides (registerItem st) s (Registrable (p ++ [st])) fun _ s' => Registers (p ++ [st]) s' := by
  have hoth : Program.functions [st] = [] → Program.classes [st] = [] →
      Decides (pure () : Lowering Unit) s (Registrable (p ++ [st])) fun _ s' =>
        Registers (p ++ [st]) s' := by
    intro hfns hcls
    have hf : Program.functions (p ++ [st]) = p.functions := by
      rw [functions_append, hfns, List.append_nil]
    have hc : Program.classes (p ++ [st]) = p.classes := by
      rw [classes_append, hcls, List.append_nil]
    refine .inl ⟨⟨?_, ?_, ?_, ?_⟩, Succeeds.pure ?_⟩
    · exact hf ▸ hp.unreserved
    · exact hf ▸ hp.functions
    · exact hc ▸ hp.classes
    · exact hc ▸ hp.members
    · unfold Registers Program.surroundings
      rw [hf, hc]
      exact hs
  cases st with
  | function loc f =>
    refine ((decides_registerFunction f hs).congr ?_).mono fun _ s' hs' => ?_
    · rw [← registrable_function hp loc f, Program.surroundings, List.map_map]
      rfl
    · have hcls : Program.classes (p ++ [.function loc f]) = p.classes :=
        (classes_append p _).trans (List.append_nil _)
      unfold Registers Program.surroundings
      rw [functions_append, hcls, List.map_append]
      exact hs'
  | classDef loc c =>
    refine ((decides_registerClass c hs).congr ?_).mono fun _ s' hs' => ?_
    · rw [← registrable_class hp loc c, List.map_map]
      rfl
    · have hfns : Program.functions (p ++ [.classDef loc c]) = p.functions :=
        (functions_append p _).trans (List.append_nil _)
      have hcls : Program.classes (p ++ [.classDef loc c]) = p.classes ++ [c] :=
        classes_append p _
      unfold Registers Program.surroundings
      rw [hfns, hcls, List.map_append, List.map_append]
      exact hs'
  | _ => exact hoth rfl rfl

theorem decides_registerItems (p : Program) (annotate : Bool) :
    Decides (p.forM registerItem) (start annotate) (Registrable p) fun _ s =>
      Registrable p ∧ Registers p s := by
  have hst : Registrable [] ∧ Registers [] (start annotate) :=
    ⟨⟨nofun, List.nodup_nil, List.nodup_nil, nofun⟩, rfl, rfl, rfl,
      fun _ => iff_of_false Bool.false_ne_true List.not_mem_nil, rfl, rfl⟩
  exact decides_forM (J := fun done s => Registrable done ∧ Registers done s) (W := Registrable)
    (fun _ _ h => h.1) (fun done st rest h => by
      rw [← List.singleton_append, ← List.append_assoc] at h
      exact h.of_append)
    (fun done st s h => (decides_registerItem h.1 h.2 st).keep) p [] hst

/-! ## Programs -/

theorem mem_classes_iff (hp : Registrable p) {cs : Classes}
    (hcs : cs.infos = p.classes.map ClassDef.info) (name : String) (n : Nat) :
    (name, n) ∈ p.surroundings.classes ↔
      (cs.find? name).map (·.initArity.getD 0) = some n := by
  rw [Option.map_eq_some_iff]
  constructor
  · intro hmem
    obtain ⟨c, hc, heq⟩ := List.mem_map.mp hmem
    cases heq
    refine ⟨c.info, ?_, c.getD_initArity⟩
    cases hfind : cs.find? c.name with
    | none =>
      have hnot := Classes.find?_eq_none hfind
      rw [hcs, List.map_map] at hnot
      exact absurd (List.mem_map.mpr ⟨c, hc, rfl⟩) hnot
    | some info =>
      have hname : info.name = c.name := by simpa using List.find?_some hfind
      have hinfo : info ∈ cs.infos := List.mem_of_find?_eq_some hfind
      rw [hcs] at hinfo
      obtain ⟨c', hc', rfl⟩ := List.mem_map.mp hinfo
      rw [List.inj_on_of_nodup_map hp.classes hc' hc hname]
  · rintro ⟨info, hfind, rfl⟩
    have hname : info.name = name := by simpa using List.find?_some hfind
    have hinfo : info ∈ cs.infos := List.mem_of_find?_eq_some hfind
    rw [hcs] at hinfo
    obtain ⟨c, hc, rfl⟩ := List.mem_map.mp hinfo
    rw [← hname, c.getD_initArity]
    exact List.mem_map.mpr ⟨c, hc, rfl⟩

theorem map_fst_functions (p : Program) :
    p.surroundings.functions.map Prod.fst = p.functions.map (·.name) :=
  List.map_map

theorem Registers.tracks (hp : Registrable p) (hs : Registers p s) :
    Session.Tracks p.pool ⟨p.surroundings, [], 0, []⟩ { s with pool := p.pool } where
  sane := by
    refine ⟨fun f hf => ?_, ?_⟩
    · obtain ⟨f', hf', rfl⟩ := List.mem_map.mp hf
      exact hp.unreserved f' hf'
    · rw [map_fst_functions]
      exact hp.functions
  pool := rfl
  functions := hs.functions
  classes := mem_classes_iff hp hs.classes
  receiver := by rw [hs.body]; rfl
  models := by
    refine ⟨?_, ?_, hs.named⟩
    · rw [hs.outer]
      exact .nil
    · rw [hs.inner]
      trivial
  draft := by
    rw [hs.body]
    exact Draft.ready_start "main" (.inr rfl)
  kind := by rw [hs.body]; exact iff_of_false nofun Bool.false_ne_true
  loops := iff_of_false Bool.false_ne_true fun h => h rfl
  slots i hi := by
    rw [hs.inner] at hi
    cases hi

theorem tests_openMain {Γ : Surroundings} {π : Pool} : Tests Γ π (drafting openMain) True := by
  refine tests_drafting fun R t l d hd => ?_
  refine (hd.parameter _ _).bind fun argc d hd => (hd.parameter _ _).bind fun argv d hd => ?_
  refine (hd.pushPrologue rfl).bind fun _ d hd => (hd.register _ _).bind fun bottom d hd => ?_
  exact (hd.pushPrologue rfl).bind fun _ d hd => (hd.pushPrologue rfl).bind fun _ d hd =>
    hd.pushPrologue rfl

/-- A compilation ends well exactly if what the program defines can be registered and its statements
keep the rules. -/
theorem decides_program (p : Program) (annotate : Bool) :
    Decides (program p) (start annotate) (Registrable p ∧
      p.surroundings.Accepts (Stmt.declared p) ∧ Stmt.ValidAll p.surroundings p) fun _ s =>
      s.pool = p.pool := by
  refine (decides_registerItems p annotate).bind ?_
  rintro _ s1 ⟨hp, hs1⟩
  refine Decides.after (R := fun _ s' => s'.Tracks p.pool ⟨p.surroundings, [], 0, []⟩)
    ⟨(), _, rfl, hs1.tracks hp⟩ fun _ s2 hs2 => ?_
  refine Decides.congr (Decides.bind (tests_openMain.steps s2 hs2) fun _ s3 hs3 => ?_)
    (iff_of_eq (true_and _))
  refine (fills_lowerAll p p.covers p.surroundings _ _ _ s3 hs3).before fun _ s4 hs4 => ?_
  refine Succeeds.bind (succeeds_drafting (hs4.draft.emitReturn none)) ?_
  rintro _ s5 ⟨⟨draft, rfl⟩, hd⟩
  refine (succeeds_drafting hd.finish).bind ?_
  rintro f _ ⟨⟨draft, rfl⟩, -⟩
  exact ⟨(), _, rfl, hs4.pool⟩

theorem classes_sublist_declared (p : Program) :
    (p.classes.map (·.name)).Sublist (Stmt.declared p) := by
  induction p with
  | nil => exact .slnil
  | cons st rest ih =>
    cases st with
    | classDef loc c => exact ih.cons_cons c.name
    | var loc name init => exact ih.cons name
    | _ => exact ih

theorem accepted_iff (p : Program) : p.Accepted ↔ Registrable p ∧
    p.surroundings.Accepts (Stmt.declared p) ∧ Stmt.ValidAll p.surroundings p := by
  have hfresh : ∀ name, p.surroundings.Fresh name ↔ name ∉ p.functions.map (·.name) := by
    intro name
    rw [← map_fst_functions]
    exact and_iff_right List.not_mem_nil
  unfold Surroundings.Accepts
  simp only [hfresh]
  constructor
  · intro h
    obtain ⟨hfns, hdecld, hdisjoint⟩ := List.nodup_append.mp h.distinct
    refine ⟨⟨h.unreserved, hfns, ?_, h.members⟩, ⟨hdecld, ?_⟩, h.body⟩
    · exact hdecld.sublist (classes_sublist_declared p)
    · exact fun name hname hmem => hdisjoint name hmem name hname rfl
  · rintro ⟨hp, ⟨hdecld, hdisjoint⟩, hbody⟩
    refine ⟨hp.unreserved, List.nodup_append.mpr ⟨hp.functions, hdecld, ?_⟩, hp.members, hbody⟩
    rintro name hname _ hmem rfl
    exact hdisjoint name hmem hname

end Lowering

namespace Program

open Lowering

/-- A program that keeps the rules is compiled. One that does not is rejected with a diagnostic
about it. -/
theorem lower_cases (p : Program) (annotate : Bool) :
    (p.Accepted ∧ ∃ m, p.lower annotate = .ok m ∧ m.texts = p.pool.texts) ∨
      (¬ p.Accepted ∧ ∃ d, p.lower annotate = .error (.diagnostic d) ∧ d.Regular) := by
  unfold Program.lower
  rw [accepted_iff]
  rcases decides_program p annotate with ⟨hp, _, s, heq, hpool⟩ | ⟨hp, d, s, heq, hd⟩
  · exact .inl ⟨hp, s.module, by rw [heq], congrArg Pool.texts hpool⟩
  · exact .inr ⟨hp, d, by rw [heq], hd⟩

/-- Acceptance is exactly the static rules. -/
theorem lower_isOk_iff (p : Program) (annotate : Bool) :
    (∃ m, p.lower annotate = .ok m) ↔ p.Accepted := by
  rcases p.lower_cases annotate with ⟨hp, m, heq, -⟩ | ⟨hp, d, heq, -⟩
  · exact iff_of_true ⟨m, heq⟩ hp
  · refine iff_of_false ?_ hp
    rintro ⟨m, hm⟩
    cases hm.symm.trans heq

end Program

end Ember
