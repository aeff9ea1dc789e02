import Ember.Lowering.Program
import Ember.Proofs.Lowering.Stmt

/-!
# Ember — what a program defines

The functions and classes of a program are registered before anything is compiled. A program that
passes has no function and no member of a class twice, so that symbols stand for one function each.

Main results: `Program.Distinct.arity_eq`, `Program.Distinct.method_arity_eq`.
-/

namespace Ember

open Ir (Draft Convention)

variable {f : ClassInfo → ClassInfo} {loc : Location} {n n' : Nat} {p : Program} {symbol : String}

namespace Lowering

/-! ## What a program defines -/

/-- The function that a statement defines, with the number of its parameters. -/
def functionsOf : Stmt → List (String × Nat)
  | .function _ f => [(f.name, f.params.length)]
  | _ => []

/-- The methods that a statement defines, with their classes and the numbers of their parameters. -/
def methodsOf : Stmt → List (String × String × Nat)
  | .classDef _ c => c.methods.map fun f => (c.name, f.name, f.params.length)
  | _ => []

/-- The fields that a statement defines, with their classes. -/
def fieldsOf : Stmt → List (String × String)
  | .classDef _ c => c.fields.map fun f => (c.name, f.name)
  | _ => []

/-- The members that a statement defines, with their classes. -/
def membersOf (st : Stmt) : List (String × String) :=
  fieldsOf st ++ (methodsOf st).map fun f => (f.1, f.2.1)

end Lowering

open Lowering in
/-- What a program defines. -/
def Program.interface (p : Program) : Ir.Interface where
  texts := p.pool.texts.size
  functions := p.flatMap functionsOf
  methods := p.flatMap methodsOf
  fields := p.flatMap fieldsOf

open Lowering in
/-- No function and no member of a class is defined twice. -/
structure Program.Distinct (p : Program) : Prop where
  functions : ((p.flatMap functionsOf).map Prod.fst).Nodup
  members : (p.flatMap membersOf).Nodup

namespace Lowering

variable {k : Convention} {α : Type}

theorem admits_interface {st : Stmt} (hst : st ∈ p) : Admits p.interface st := by
  unfold Admits
  split
  · exact List.mem_flatMap.mpr ⟨_, hst, List.mem_singleton_self _⟩
  · exact ⟨fun f hf => List.mem_flatMap.mpr ⟨_, hst, List.mem_map_of_mem hf⟩,
      fun f hf => List.mem_flatMap.mpr ⟨_, hst, List.mem_map_of_mem hf⟩⟩
  · trivial

theorem mem_symbols_of_names (hk : k ≠ .main) (hnmd : k.Names p.interface symbol) :
    ∃ st ∈ p, symbol ∈ symbols st := by
  cases k with
  | main => exact absurd rfl hk
  | function n =>
    obtain ⟨name, hname, rfl⟩ := hnmd
    obtain ⟨st, hst, hname⟩ := List.mem_flatMap.mp hname
    refine ⟨st, hst, ?_⟩
    cases st <;> simp_all [functionsOf, symbols]
  | method n =>
    obtain ⟨cls, name, hname, rfl⟩ := hnmd
    obtain ⟨st, hst, hname⟩ := List.mem_flatMap.mp hname
    refine ⟨st, hst, ?_⟩
    cases st with
    | classDef loc cls' =>
      obtain ⟨f, hf, heq⟩ := List.mem_map.mp hname
      obtain ⟨rfl, rfl, -⟩ : cls'.name = cls ∧ f.name = name ∧ f.params.length = n := by
        simpa using heq
      exact List.mem_append_right _ (List.mem_map_of_mem hf)
    | _ => cases hname
  | field =>
    obtain ⟨cls, name, hname, rfl⟩ := hnmd
    obtain ⟨st, hst, hname⟩ := List.mem_flatMap.mp hname
    refine ⟨st, hst, ?_⟩
    cases st with
    | classDef loc cls' =>
      obtain ⟨f, hf, heq⟩ := List.mem_map.mp hname
      obtain ⟨rfl, rfl⟩ : cls'.name = cls ∧ f.name = name := by simpa using heq
      exact List.mem_append_left _ (List.mem_map_of_mem hf)
    | _ => cases hname

theorem snd_eq_of_nodup {β : Type} {l : List (α × β)} (hl : (l.map Prod.fst).Nodup) {a : α} {b b' : β}
    (hb : (a, b) ∈ l) (hb' : (a, b') ∈ l) : b = b' :=
  congrArg Prod.snd (List.inj_on_of_nodup_map hl hb hb' rfl)

theorem append_right_inj {a b c : String} (h : a ++ b = a ++ c) : b = c := by
  have hlist := congrArg String.toList h
  rw [String.toList_append, String.toList_append] at hlist
  exact String.ext (List.append_cancel_left hlist)

/-- No name of a class has a dot in it. -/
def DotFree (p : Program) : Prop :=
  ∀ st ∈ p, ∀ m ∈ membersOf st, '.' ∉ m.1.toList

theorem split_unique {a : α} {l l' r r' : List α} (hl : a ∉ l) (hl' : a ∉ l')
    (h : l ++ a :: r = l' ++ a :: r') : l = l' ∧ r = r' := by
  induction l generalizing l' with
  | nil =>
    cases l' with
    | nil => exact ⟨rfl, List.tail_eq_of_cons_eq h⟩
    | cons b t' => exact absurd (List.head_eq_of_cons_eq h ▸ List.mem_cons_self) hl'
  | cons b t ih =>
    cases l' with
    | nil => exact absurd (List.head_eq_of_cons_eq h ▸ List.mem_cons_self) hl
    | cons b' t' =>
      obtain ⟨rfl, hrest⟩ := List.cons.inj h
      obtain ⟨rfl, rfl⟩ := ih (fun h => hl (.tail _ h))
        (fun h => hl' (.tail _ h)) hrest
      exact ⟨rfl, rfl⟩

theorem memberSymbol_inj {role cls cls' name name' : String} (hcls : '.' ∉ cls.toList)
    (hcls' : '.' ∉ cls'.toList) (h : memberSymbol role cls name = memberSymbol role cls' name') :
    cls = cls' ∧ name = name' := by
  have hlist := congrArg String.toList h
  simp only [memberSymbol, String.toList_append, List.append_assoc] at hlist
  obtain ⟨hc, hn⟩ := split_unique hcls hcls'
    (List.append_cancel_left (List.append_cancel_left hlist))
  exact ⟨String.ext hc, String.ext hn⟩

end Lowering

namespace Program

open Lowering

theorem Distinct.arity_eq (hp : p.Distinct) (hn : p.interface.HasFunction symbol n)
    (hn' : p.interface.HasFunction symbol n') : n = n' := by
  obtain ⟨name, hname, rfl⟩ := hn
  obtain ⟨name', hname', heq⟩ := hn'
  obtain rfl : name = name' := append_right_inj heq
  exact snd_eq_of_nodup hp.functions hname hname'

/-- Where no name of a class has a dot in it, the symbol of a method tells how many parameters it
has. -/
theorem Distinct.method_arity_eq (hp : p.Distinct) (hnms : DotFree p)
    (hn : p.interface.HasMethod symbol n) (hn' : p.interface.HasMethod symbol n') : n = n' := by
  obtain ⟨cls, name, hname, rfl⟩ := hn
  obtain ⟨cls', name', hname', heq⟩ := hn'
  have hmember : ∀ {f : String × String × Nat}, f ∈ p.interface.methods →
      ∃ st ∈ p, (f.1, f.2.1) ∈ membersOf st := fun hf => by
    obtain ⟨st, hst, hf⟩ := List.mem_flatMap.mp hf
    exact ⟨st, hst, List.mem_append_right _ (List.mem_map_of_mem hf)⟩
  obtain ⟨st, hst, hmem⟩ := hmember hname
  obtain ⟨st', hst', hmem'⟩ := hmember hname'
  obtain ⟨rfl, rfl⟩ := memberSymbol_inj (hnms st hst _ hmem) (hnms st' hst' _ hmem') heq
  have hkeys : (p.interface.methods.map fun f => (f.1, f.2.1)).Nodup := by
    refine List.Nodup.sublist ?_ hp.members
    show List.Sublist ((p.flatMap methodsOf).map _) _
    rw [List.map_flatMap]
    exact List.Sublist.flatMap_right _ fun st _ => List.sublist_append_right ..
  simpa using List.inj_on_of_nodup_map hkeys hname hname' rfl

end Program

/-! ## Registration -/

/-- A registry of classes of distinct names that have these members. -/
structure Classes.Holds (cs : Classes) (listed : List (String × String)) : Prop where
  names : (cs.infos.map (·.name)).Nodup
  members : ∀ cls name, (∃ info ∈ cs.infos, info.name = cls ∧ name ∈ info.members) ↔
    (cls, name) ∈ listed
  single : listed.Nodup

namespace Classes

variable {cs cs' : Classes} {members : List (String × String)} {cls name : String}

theorem find?_eq_none (h : cs.find? name = none) : name ∉ cs.infos.map (·.name) := by
  rw [find?, List.find?_eq_none] at h
  intro hmem
  obtain ⟨info, hinfo, rfl⟩ := List.mem_map.mp hmem
  exact h info hinfo (beq_self_eq_true _)

theorem Holds.register (hcs : cs.Holds members) (h : cs.register name loc = .ok cs') :
    cs'.Holds members := by
  unfold Classes.register at h
  split at h
  · cases h
  · next hnone =>
    cases h
    refine ⟨?_, fun cls name => ?_, hcs.single⟩
    · simp only [List.map_append, List.map_cons, List.map_nil]
      exact List.nodup_append.mpr ⟨hcs.names, List.nodup_singleton _, fun a ha b hb => by
        rintro rfl
        exact find?_eq_none hnone (List.mem_singleton.mp hb ▸ ha)⟩
    · rw [← hcs.members]
      simp

theorem map_name_update (hf : ∀ c, (f c).name = c.name) :
    (cs.update cls f).infos.map (·.name) = cs.infos.map (·.name) := by
  simp only [update, List.map_map]
  refine List.map_congr_left fun c _ => ?_
  simp only [Function.comp_apply]
  split
  · exact hf c
  · rfl

theorem exists_update (hf : ∀ c, (f c).name = c.name) {P : String → List String → Prop} :
    (∃ info ∈ (cs.update cls f).infos, P info.name info.members) ↔
      ∃ info ∈ cs.infos, P info.name (if info.name = cls then (f info).members else info.members) := by
  simp only [update, List.mem_map, exists_exists_and_eq_and]
  refine exists_congr fun c => and_congr_right fun _ => ?_
  split
  · rw [hf]
  · rfl

theorem Holds.addMember (hcs : cs.Holds members) (h : cs.addMember cls name loc = .ok (.ok cs')) :
    cs'.Holds (members ++ [(cls, name)]) := by
  unfold Classes.addMember at h
  split at h
  · cases h
  next info hfind =>
  split at h
  · cases h
  next hnew =>
  cases h
  have hinfo : info ∈ cs.infos := List.mem_of_find?_eq_some hfind
  have hname : info.name = cls := by simpa using List.find?_some hfind
  have hfresh : (cls, name) ∉ members := by
    rw [← hcs.members]
    rintro ⟨c, hc, heq, hmem⟩
    -- no other class of the registry has the name
    obtain rfl : c = info := List.inj_on_of_nodup_map hcs.names hc hinfo (heq.trans hname.symm)
    exact hnew (List.contains_iff_mem.mpr hmem)
  refine ⟨?_, fun cls' name' => ?_, ?_⟩
  · rw [map_name_update (by exact fun _ => rfl)]
    exact hcs.names
  · rw [exists_update (P := fun n ms => n = cls' ∧ name' ∈ ms) (by exact fun _ => rfl),
      List.mem_append, List.mem_singleton, ← hcs.members]
    constructor
    · rintro ⟨c, hc, rfl, hmem⟩
      split at hmem
      · next heq =>
        rcases List.mem_append.mp hmem with hmem | hmem
        · exact .inl ⟨c, hc, rfl, hmem⟩
        · exact .inr (by rw [heq, List.mem_singleton.mp hmem])
      · exact .inl ⟨c, hc, rfl, hmem⟩
    · rintro (⟨c, hc, rfl, hmem⟩ | heq)
      · refine ⟨c, hc, rfl, ?_⟩
        split
        · exact List.mem_append_left _ hmem
        · exact hmem
      · cases heq
        refine ⟨info, hinfo, hname, ?_⟩
        rw [if_pos hname]
        exact List.mem_append_right _ (List.mem_singleton_self _)
  · refine List.nodup_append.mpr ⟨hcs.single, List.nodup_singleton _, fun a ha b hb => ?_⟩
    rintro rfl
    exact hfresh (List.mem_singleton.mp hb ▸ ha)

theorem Holds.setInitArity (hcs : cs.Holds members) (cls : String) (arity : Nat) :
    (cs.setInitArity cls arity).Holds members := by
  unfold Classes.setInitArity
  refine ⟨?_, fun cls' name => ?_, hcs.single⟩
  · rw [map_name_update (by exact fun _ => rfl)]
    exact hcs.names
  · rw [exists_update (P := fun n ms => n = cls' ∧ name ∈ ms) (by exact fun _ => rfl), ← hcs.members]
    simp only [ite_self]

end Classes

namespace Lowering

/-- A session in which nothing is written or declared, and these functions and members are
registered. -/
structure Registered (defined : List (String × Nat)) (members : List (String × String))
    (s : Session) : Prop where
  body : s.body = { draft := Draft.start "main" .i32, kind := .program }
  globals : s.globals = []
  finished : s.finished = []
  bindings : s.scope.bindings = {}
  inner : s.scope.inner = []
  functions : s.functions.infos.map (fun f => (f.name, f.arity)) = defined
  distinct : (defined.map Prod.fst).Nodup
  classes : s.classes.Holds members

variable {functions : List (String × Nat)} {members : List (String × String)} {s : Session}
  {α : Type}

theorem yields_forM {J : List α → Session → Prop} {f : α → Lowering Unit}
    (hf : ∀ done a s, J done s → Yields (f a) s fun _ s' => J (done ++ [a]) s') (l done : List α)
    (hs : J done s) : Yields (l.forM f) s fun _ s' => J (done ++ l) s' := by
  induction l generalizing s done with
  | nil => exact .pure (by rwa [List.append_nil])
  | cons a rest ih =>
    refine (hf done a s hs).bind fun _ s1 hs1 => ?_
    have hrest := ih (done ++ [a]) hs1
    rwa [List.append_assoc] at hrest

theorem yields_registerFunction (f : FunctionDef (List Stmt)) (hs : Registered functions members s) :
    Yields (registerFunction f) s fun _ s' =>
      Registered (functions ++ [(f.name, f.params.length)]) members s' := by
  unfold registerFunction
  split
  · exact Yields.bind (R := fun _ _ => False) .throw fun _ _ h => h.elim
  refine .get_bind (yields_check.bind ?_)
  rintro registry _ ⟨rfl, hregistry⟩
  refine yields_check.bind ?_
  rintro scope _ ⟨rfl, hsc⟩
  unfold Functions.register at hregistry
  split at hregistry
  · cases hregistry
  · next hnone =>
    cases hregistry
    rw [Scope.declareFunction_eq] at hsc
    split at hsc
    · cases hsc
    cases hsc
    refine .set { hs with bindings := hs.bindings, inner := hs.inner, functions := ?_, distinct := ?_ }
    · simp only [List.map_append, hs.functions, List.map_cons, List.map_nil]
    · rw [List.map_append]
      refine List.nodup_append.mpr ⟨hs.distinct, List.nodup_singleton _, fun a ha b hb => ?_⟩
      rintro rfl
      obtain rfl : a = f.name := by simpa using hb
      rw [← hs.functions, List.map_map] at ha
      obtain ⟨info, hinfo, heq⟩ := List.mem_map.mp ha
      rw [Functions.find?, List.find?_eq_none] at hnone
      exact hnone info hinfo (beq_iff_eq.mpr heq)

theorem yields_registerMember (cls name : String) (loc : Location)
    (hs : Registered functions members s) :
    Yields (registerMember cls name loc) s fun _ s' =>
      Registered functions (members ++ [(cls, name)]) s' := by
  refine .get_bind (yields_sound.bind ?_)
  rintro _ _ ⟨rfl, hclasses⟩
  refine yields_check.bind ?_
  rintro classes _ ⟨rfl, rfl⟩
  exact .modifyGet { hs with classes := hs.classes.addMember hclasses }

theorem yields_registerClass (c : ClassDef (List Stmt)) (hs : Registered functions members s) :
    Yields (registerClass c) s fun _ s' => Registered functions (members ++
      (c.fields.map (fun f => (c.name, f.name)) ++ c.methods.map fun f => (c.name, f.name))) s' := by
  refine .get_bind (yields_check.bind ?_)
  rintro classes _ ⟨rfl, hclasses⟩
  refine Yields.bind (Yields.modifyGet (Q := fun _ s' => Registered functions members s')
    { hs with classes := hs.classes.register hclasses }) fun _ s1 hs1 => ?_
  refine (yields_forM (J := fun done => Registered functions
    (members ++ done.map fun f => (c.name, f.name))) (fun done f s hs => ?_) c.fields []
    (by simpa using hs1)).bind fun _ s2 hs2 => ?_
  · rw [List.map_append, ← List.append_assoc]
    exact yields_registerMember c.name f.name f.loc hs
  rw [← List.append_assoc]
  refine yields_forM (J := fun done => Registered functions
    (members ++ c.fields.map (fun f => (c.name, f.name)) ++ done.map fun f => (c.name, f.name)))
    (fun done f s hs => ?_) c.methods [] (by simpa using hs2)
  refine (yields_registerMember c.name f.name f.loc hs).bind fun _ s3 hs3 => ?_
  rw [List.map_append, ← List.append_assoc]
  split
  · exact .modifyGet { hs3 with classes := hs3.classes.setInitArity _ _ }
  · exact .pure hs3

theorem yields_registerItem (st : Stmt) (hs : Registered functions members s) :
    Yields (registerItem st) s fun _ s' =>
      Registered (functions ++ functionsOf st) (members ++ membersOf st) s' := by
  unfold registerItem
  split
  · have h := yields_registerFunction ‹FunctionDef (List Stmt)› hs
    simpa [functionsOf, membersOf, fieldsOf, methodsOf] using h
  · have h := yields_registerClass ‹ClassDef (List Stmt)› hs
    simpa [functionsOf, membersOf, fieldsOf, methodsOf, Function.comp_def] using h
  · next hfn hclass =>
    refine .pure ?_
    cases st with
    | function loc f => exact absurd rfl (hfn loc f)
    | classDef loc c => exact absurd rfl (hclass loc c)
    | _ => simpa [functionsOf, membersOf, fieldsOf, methodsOf] using hs

theorem yields_registerItems (p : Program) (annotate : Bool) :
    Yields (p.forM registerItem) (start annotate) fun _ s =>
      Registered (p.flatMap functionsOf) (p.flatMap membersOf) s := by
  have hstart : Registered [] [] (start annotate) :=
    ⟨rfl, rfl, rfl, rfl, rfl, rfl, List.nodup_nil, ⟨List.nodup_nil, by simp [start], List.nodup_nil⟩⟩
  refine yields_forM (J := fun done => Registered (done.flatMap functionsOf) (done.flatMap membersOf))
    (fun done st s hs => ?_) p [] hstart
  simp only [List.flatMap_append, List.flatMap_singleton]
  exact yields_registerItem st hs

theorem Registered.program (hs : Registered (p.flatMap functionsOf) (p.flatMap membersOf) s) :
    p.Distinct :=
  ⟨hs.distinct, hs.classes.single⟩

theorem Registered.calls (hs : Registered functions members s) {f : FunctionInfo}
    (hf : f ∈ s.functions.infos) : (f.name, f.arity) ∈ functions :=
  hs.functions ▸ List.mem_map_of_mem hf

end Lowering

end Ember
