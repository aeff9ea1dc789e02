import Ember.Proofs.Lowering.Decision

/-!
# Ember — scopes and what they stand for

The scopes of a compilation hold the variables that the surroundings of a place list, in the same
order. So a declaration is rejected exactly where its scope has the name already, and a use exactly
where no variable of the name is in scope.

Main results: `steps_declareVariable`, `steps_inScope`, `steps_define`.
-/

namespace Ember

open Ir (Draft Drafting LoopTargets)

variable {b : Binding} {hasReceiver : Bool} {R' : List Nat} {scope : List String}
  {value : Lowering Nat} {x : Lowering Unit} {t' : Nat}

/-! ## Surroundings -/

namespace Surroundings

variable {Γ : Surroundings} {name : String} {names names' : List String}

/-- The innermost scope does not have this name yet. Outside every scope, functions have taken their
names. -/
def Fresh (Γ : Surroundings) (name : String) : Prop :=
  match Γ.locals with
  | [] => name ∉ Γ.globals ∧ name ∉ Γ.functions.map Prod.fst
  | scope :: _ => name ∉ scope

/-- Declarations in the innermost scope, none of which repeats a name of it. -/
def Accepts (Γ : Surroundings) (names : List String) : Prop :=
  names.Nodup ∧ ∀ name ∈ names, Γ.Fresh name

theorem exists_declare (Γ : Surroundings) (name : String) :
    ∃ globals locals, Γ.declare name = { Γ with globals, locals } := by
  unfold declare
  cases Γ.locals with
  | nil => exact ⟨_, _, rfl⟩
  | cons scope rest => exact ⟨_, _, rfl⟩

theorem fresh_declare {other : String} :
    (Γ.declare name).Fresh other ↔ Γ.Fresh other ∧ other ≠ name := by
  unfold Fresh declare
  cases hlocals : Γ.locals with
  | nil =>
    simp only [List.mem_cons, not_or]
    tauto
  | cons scope rest =>
    simp only [List.mem_cons, not_or]
    tauto

theorem accepts_cons : Γ.Accepts (name :: names) ↔ Γ.Fresh name ∧ (Γ.declare name).Accepts names := by
  unfold Accepts
  simp only [List.nodup_cons, List.forall_mem_cons, fresh_declare]
  constructor
  · rintro ⟨⟨hmem, hnd⟩, hfresh, hall⟩
    refine ⟨hfresh, hnd, fun other hoth => ⟨hall other hoth, ?_⟩⟩
    rintro rfl
    exact hmem hoth
  · rintro ⟨hfresh, hnd, hall⟩
    exact ⟨⟨fun hmem => (hall name hmem).2 rfl, hnd⟩, hfresh, fun other hoth => (hall other hoth).1⟩

theorem accepts_append :
    Γ.Accepts (names ++ names') ↔ Γ.Accepts names ∧ (Γ.declareAll names).Accepts names' := by
  induction names generalizing Γ with
  | nil => simp [Accepts, declareAll]
  | cons name rest ih =>
    rw [List.cons_append, accepts_cons, ih, accepts_cons, and_assoc]
    rfl

theorem accepts_nil : Γ.Accepts [] := by
  simp [Accepts]

theorem accepts_singleton : Γ.Accepts [name] ↔ Γ.Fresh name := by
  simp [Accepts]

theorem accepts_enter : Γ.enter.Accepts names ↔ names.Nodup := by
  simp [Accepts, Fresh, enter]

theorem accepts_define : (Γ.define hasReceiver).Accepts names ↔ names.Nodup := by
  simp [Accepts, Fresh, define]

theorem declareAll_append : Γ.declareAll (names ++ names') = (Γ.declareAll names).declareAll names' :=
  List.foldl_append

theorem declareAll_of_locals {rest : List (List String)} (hlocals : Γ.locals = scope :: rest) :
    Γ.declareAll names = { Γ with locals := (names.reverse ++ scope) :: rest } := by
  induction names generalizing Γ scope with
  | nil =>
    rw [List.reverse_nil, List.nil_append, ← hlocals]
    rfl
  | cons name names ih =>
    have hdecl : Γ.declare name = { Γ with locals := (name :: scope) :: rest } := by
      unfold declare
      rw [hlocals]
    show (Γ.declare name).declareAll names = _
    rw [hdecl, ih rfl, List.reverse_cons, List.append_assoc]
    rfl

theorem declareAll_enter : Γ.enter.declareAll names =
    { Γ with locals := names.reverse :: Γ.locals } := by
  rw [declareAll_of_locals (Γ := Γ.enter) rfl, List.append_nil]
  rfl

/-- The surroundings of the scope of a definition. -/
def around (Γ : Surroundings) (hasReceiver : Bool) : Surroundings :=
  { Γ with inDefinition := true, hasReceiver, inLoop := false }

theorem define_eq_enter (Γ : Surroundings) (htop : Γ.locals = []) :
    Γ.define hasReceiver = (Γ.around hasReceiver).enter := by
  simp only [define, enter, around, htop]

theorem declareAll_define (htop : Γ.locals = []) :
    (Γ.define hasReceiver).declareAll names =
      { Γ.around hasReceiver with locals := names.reverse :: (Γ.around hasReceiver).locals } := by
  rw [Γ.define_eq_enter htop, declareAll_enter]

end Surroundings

/-! ## Scopes -/

namespace Scope

variable {s s' : Scope} {Γ : Surroundings} {depth i : Nat} {name : String} {ids : List Nat}
  {names : List String} {inner : List (List Nat)} {locals : List (List String)}

/-- A binding that can be named, under so many scopes. -/
def Declares (s : Scope) (depth i : Nat) (name : String) : Prop :=
  ∃ b, s.bindings.get? i = some b ∧ b.name = name ∧ b.depth = depth ∧ b.bound = true ∧
    (b.isGlobal = true ↔ depth = 0)

/-- Enclosing scopes and the names in them, innermost scope first. -/
def Nests (s : Scope) : List (List Nat) → List (List String) → Prop
  | [], [] => True
  | ids :: inner, names :: locals =>
    List.Forall₂ (s.Declares (inner.length + 1)) ids names ∧ s.Nests inner locals
  | _, _ => False

/-- Scopes that hold what the surroundings list. -/
structure Models (Γ : Surroundings) (s : Scope) : Prop where
  outer : List.Forall₂ (s.Declares 0) s.outer Γ.globals
  inner : s.Nests s.inner Γ.locals
  functions : ∀ name, s.hasFunction name = true ↔ name ∈ Γ.functions.map Prod.fst

theorem Declares.lt (h : s.Declares depth i name) : i < s.bindings.size := by
  obtain ⟨b, hb, -⟩ := h
  exact (Array.getElem?_eq_some_iff.mp hb).1

theorem Declares.mono (h : s.Declares depth i name)
    (hbinds : ∀ i, i < s.bindings.size → s'.bindings.get? i = s.bindings.get? i) :
    s'.Declares depth i name := by
  have hlt := h.lt
  obtain ⟨b, hb, h⟩ := h
  exact ⟨b, (hbinds i hlt).trans hb, h⟩

theorem Nests.mono (h : s.Nests inner locals)
    (hbinds : ∀ i, i < s.bindings.size → s'.bindings.get? i = s.bindings.get? i) :
    s'.Nests inner locals := by
  induction inner generalizing locals with
  | nil =>
    cases locals with
    | nil => trivial
    | cons => exact h.elim
  | cons ids inner ih =>
    cases locals with
    | nil => exact h.elim
    | cons names locals => exact ⟨h.1.imp fun _ _ hd => hd.mono hbinds, ih h.2⟩

theorem Nests.length (h : s.Nests inner locals) : inner.length = locals.length := by
  induction inner generalizing locals with
  | nil =>
    cases locals with
    | nil => rfl
    | cons => exact h.elim
  | cons ids inner ih =>
    cases locals with
    | nil => exact h.elim
    | cons names locals => exact congrArg Nat.succ (ih h.2)

theorem Nests.exists_cons (h : s.Nests inner (scope :: locals)) :
    ∃ ids rest, inner = ids :: rest ∧ List.Forall₂ (s.Declares (rest.length + 1)) ids scope ∧
      s.Nests rest locals := by
  cases inner with
  | nil => exact h.elim
  | cons ids rest => exact ⟨ids, rest, rfl, h⟩

theorem Nests.eq_nil (h : s.Nests inner []) : inner = [] := by
  cases inner with
  | nil => rfl
  | cons => exact h.elim

theorem exists_name (h : List.Forall₂ (s.Declares depth) ids names) (hi : i ∈ ids) :
    ∃ name ∈ names, s.Declares depth i name := by
  induction h with
  | nil => cases hi
  | cons hd _ ih =>
    rcases List.mem_cons.mp hi with rfl | hi
    · exact ⟨_, .head _, hd⟩
    · obtain ⟨name, hmem, h⟩ := ih hi
      exact ⟨name, .tail _ hmem, h⟩

theorem Nests.exists_name (h : s.Nests inner locals) (hi : i ∈ inner.flatten) :
    ∃ depth name, 0 < depth ∧ depth ≤ inner.length ∧ s.Declares depth i name := by
  induction inner generalizing locals with
  | nil => cases hi
  | cons ids inner ih =>
    cases locals with
    | nil => exact h.elim
    | cons names locals =>
      rcases List.mem_append.mp hi with hi | hi
      · obtain ⟨name, -, hd⟩ := Scope.exists_name h.1 hi
        exact ⟨_, name, Nat.succ_pos _, Nat.le_refl _, hd⟩
      · obtain ⟨depth, name, hpos, hle, hd⟩ := ih h.2 hi
        exact ⟨depth, name, hpos, Nat.le_succ_of_le hle, hd⟩

/-- The test for a visible binding of a name. -/
def names? (s : Scope) (name : String) (i : Nat) : Bool :=
  (s.bindings.get? i).any fun b => b.bound && b.name == name

theorem Declares.names?_eq (h : s.Declares depth i name) (other : String) :
    s.names? other i = (name == other) := by
  obtain ⟨b, hb, rfl, -, hbnd, -⟩ := h
  unfold names?
  rw [hb]
  simp [hbnd]

theorem find?_names (h : List.Forall₂ (s.Declares depth) ids names) (name : String) :
    (name ∈ names ∧ ∃ i, ids.find? (s.names? name) = some i ∧ s.Declares depth i name) ∨
      (name ∉ names ∧ ids.find? (s.names? name) = none) := by
  induction h with
  | nil => exact .inr ⟨List.not_mem_nil, rfl⟩
  | @cons i first ids names hd _ ih =>
    by_cases heq : first = name
    · subst heq
      refine .inl ⟨.head _, i, List.find?_cons_of_pos ?_, hd⟩
      rw [hd.names?_eq]
      exact beq_self_eq_true _
    · have hskip : ¬ s.names? name i = true := by
        rw [hd.names?_eq]
        simpa using heq
      rw [List.find?_cons_of_neg hskip, List.mem_cons]
      rcases ih with ⟨hmem, h⟩ | ⟨hmem, h⟩
      · exact .inl ⟨.inr hmem, h⟩
      · exact .inr ⟨by tauto, h⟩

theorem Nests.find?_names (h : s.Nests inner locals) (name : String) :
    ((∃ names ∈ locals, name ∈ names) ∧ ∃ i depth, inner.flatten.find? (s.names? name) = some i ∧
      0 < depth ∧ s.Declares depth i name ∧ i ∈ inner.flatten) ∨
      ((∀ names ∈ locals, name ∉ names) ∧ inner.flatten.find? (s.names? name) = none) := by
  induction inner generalizing locals with
  | nil =>
    cases locals with
    | nil => exact .inr ⟨nofun, rfl⟩
    | cons => exact h.elim
  | cons ids inner ih =>
    cases locals with
    | nil => exact h.elim
    | cons names locals =>
      rw [List.flatten_cons, List.find?_append]
      rcases Scope.find?_names h.1 name with ⟨hmem, i, hi, hd⟩ | ⟨hmem, hnone⟩
      · rw [hi]
        exact .inl ⟨⟨names, .head _, hmem⟩, i, _, rfl, Nat.succ_pos _, hd,
          List.mem_append_left _ (List.mem_of_find?_eq_some hi)⟩
      · rw [hnone, Option.none_or]
        rcases ih h.2 with ⟨⟨names', hnames', hmem'⟩, i, depth, hi, hpos, hd, hin⟩ | ⟨hmem', hnone'⟩
        · exact .inl ⟨⟨names', .tail _ hnames', hmem'⟩, i, depth, hi, hpos, hd,
            List.mem_append_right _ hin⟩
        · exact .inr ⟨List.forall_mem_cons.mpr ⟨hmem, hmem'⟩, hnone'⟩

theorem resolve_eq (s : Scope) (name : String) (loc : Location) :
    s.resolve name loc = match s.visible.find? (s.names? name) with
      | some i => .ok i
      | none => .error (.of loc (.undeclared name)) :=
  rfl

theorem Models.resolve (h : s.Models Γ) (name : String) (loc : Location) :
    (Γ.Sees name ∧ ∃ i depth, s.resolve name loc = .ok i ∧ s.Declares depth i name ∧
      (depth = 0 ↔ Γ.SeesGlobal name) ∧ (depth ≠ 0 → i ∈ s.inner.flatten)) ∨
      (¬ Γ.Sees name ∧ s.resolve name loc = .error (.of loc (.undeclared name))) := by
  rw [resolve_eq, visible_eq, List.find?_append]
  rcases h.inner.find?_names name with ⟨hmem, i, depth, hi, hpos, hd, hin⟩ | ⟨hmem, hnone⟩
  · rw [hi]
    refine .inl ⟨.inl hmem, i, depth, rfl, hd, iff_of_false (by omega) fun hglob => ?_, fun _ => hin⟩
    obtain ⟨names, hnms, hname⟩ := hmem
    exact hglob.1 names hnms hname
  · rw [hnone, Option.none_or]
    rcases Scope.find?_names h.outer name with ⟨hmem', i, hi, hd⟩ | ⟨hmem', hnone'⟩
    · rw [hi]
      exact .inl ⟨.inr hmem', i, 0, rfl, hd, iff_of_true rfl ⟨hmem, hmem'⟩, fun h => absurd rfl h⟩
    · rw [hnone']
      refine .inr ⟨?_, rfl⟩
      rintro (⟨names, hnms, hname⟩ | hname)
      · exact hmem names hnms hname
      · exact hmem' hname

theorem lookupAtDepth_isSome (s : Scope) (name : String) (depth : Nat) :
    (s.lookupAtDepth name depth).isSome = true ↔
      ∃ i ∈ s.visible, ∃ b, s.bindings.get? i = some b ∧ b.depth = depth ∧ b.name = name := by
  unfold lookupAtDepth findVisible?
  rw [List.find?_isSome]
  refine exists_congr fun i => and_congr_right fun _ => ?_
  cases s.bindings.get? i <;> simp

theorem mem_names_iff (h : List.Forall₂ (s.Declares depth) ids names) (name : String) :
    name ∈ names ↔ ∃ i ∈ ids, ∃ b, s.bindings.get? i = some b ∧ b.depth = depth ∧ b.name = name := by
  induction h with
  | nil => simp
  | @cons i first ids names hd _ ih =>
    obtain ⟨b, hb, hname, hdep, -⟩ := hd
    rw [List.mem_cons, ih]
    constructor
    · rintro (rfl | ⟨j, hj, h⟩)
      · exact ⟨i, .head _, b, hb, hdep, hname⟩
      · exact ⟨j, .tail _ hj, h⟩
    · rintro ⟨j, hj, b', hb', hdepth', hname'⟩
      rcases List.mem_cons.mp hj with rfl | hj
      · cases hb.symm.trans hb'
        exact .inl (hname'.symm.trans hname)
      · exact .inr ⟨j, hj, b', hb', hdepth', hname'⟩

/-- A declaration repeats a name of the innermost scope exactly if the surroundings say so. -/
theorem Models.clashes_iff (h : s.Models Γ) (name : String) :
    s.clashes name = true ↔ ¬ Γ.Fresh name := by
  unfold clashes Surroundings.Fresh
  rw [Bool.or_eq_true, Bool.and_eq_true, beq_iff_eq, lookupAtDepth_isSome, h.functions, visible_eq]
  have hinn := h.inner
  cases hlocals : Γ.locals with
  | nil =>
    rw [hlocals] at hinn
    have hnil := hinn.eq_nil
    have hdep : s.depth = 0 := inner_eq_nil_iff.mp hnil
    rw [hdep, hnil, mem_names_iff h.outer]
    simp only [true_and, List.flatten_nil, List.nil_append, not_and_or, not_not]
    exact or_comm
  | cons scope locals =>
    rw [hlocals] at hinn
    obtain ⟨ids, rest, heq, hsc, hrest⟩ := hinn.exists_cons
    have hdep : s.depth = rest.length + 1 := by rw [← length_inner, heq]; rfl
    -- bindings of outer scopes have smaller depths and cannot clash
    have hoth : ∀ i ∈ rest.flatten ++ s.outer, ∀ b, s.bindings.get? i = some b →
        b.depth ≠ rest.length + 1 := by
      intro i hi b hb
      rcases List.mem_append.mp hi with hi | hi
      · obtain ⟨depth, name, -, hle, b', hb', -, hdep, -⟩ := hrest.exists_name hi
        cases hb.symm.trans hb'
        omega
      · obtain ⟨name, -, b', hb', -, hdep, -⟩ := exists_name h.outer hi
        cases hb.symm.trans hb'
        omega
    rw [hdep, heq, not_not, mem_names_iff hsc, List.flatten_cons, List.append_assoc]
    constructor
    · rintro (⟨hzero, -⟩ | ⟨i, hi, b, hb, hdepth', hname⟩)
      · omega
      · rcases List.mem_append.mp hi with hi | hi
        · exact ⟨i, hi, b, hb, hdepth', hname⟩
        · exact absurd hdepth' (hoth i hi b hb)
    · rintro ⟨i, hi, h⟩
      exact .inr ⟨i, List.mem_append_left _ hi, h⟩

theorem exists_add (s : Scope) (name : String) (loc : Location) : ∃ b : Binding,
    (s.add name loc).bindings = s.bindings.push b ∧ b.name = name ∧ b.depth = s.depth ∧
      b.bound = false ∧ (b.isGlobal = true ↔ s.depth = 0) := by
  refine ⟨_, rfl, rfl, rfl, rfl, ?_⟩
  by_cases hzero : s.depth = 0 <;> simp [Binding.isGlobal, hzero]

theorem get?_add (s : Scope) (name : String) (loc : Location) :
    ∀ i, i < s.bindings.size → (s.add name loc).bindings.get? i = s.bindings.get? i := by
  obtain ⟨b, hb, -⟩ := s.exists_add name loc
  intro i hi
  rw [hb, Table.get?_push, if_neg (Nat.ne_of_lt hi)]

theorem visible_add (s : Scope) (name : String) (loc : Location) :
    (s.add name loc).visible = s.bindings.size :: s.visible :=
  rfl

theorem Models.resolve_add (h : s.Models Γ) (name : String) (loc : Location) (other : String)
    (loc' : Location) : (s.add name loc).resolve other loc' = s.resolve other loc' := by
  obtain ⟨b, hb, -, -, hbnd, -⟩ := s.exists_add name loc
  have hnew : ¬ (s.add name loc).names? other s.bindings.size = true := by
    unfold names?
    rw [hb, Table.get?_push, if_pos rfl]
    simp [hbnd]
  have hold : ∀ i ∈ s.visible, (s.add name loc).names? other i = s.names? other i := by
    intro i hi
    have hlt : i < s.bindings.size := by
      rw [visible_eq] at hi
      rcases List.mem_append.mp hi with hi | hi
      · obtain ⟨_, _, -, -, hd⟩ := h.inner.exists_name hi
        exact hd.lt
      · obtain ⟨_, -, hd⟩ := exists_name h.outer hi
        exact hd.lt
    unfold names?
    rw [get?_add s name loc i hlt]
  rw [resolve_eq, resolve_eq, visible_add, List.find?_cons_of_neg hnew, List.find?_congr hold]

theorem mem_inner_add (name : String) (loc : Location) (hi : i ∈ (s.add name loc).inner.flatten) :
    i = s.bindings.size ∧ s.depth ≠ 0 ∨ i ∈ s.inner.flatten := by
  cases hinn : s.inner with
  | nil =>
    rw [inner_add_of_nil hinn] at hi
    exact absurd hi (by simp)
  | cons scope rest =>
    rw [(s.add_of_cons name loc hinn).1] at hi
    rcases List.mem_cons.mp hi with rfl | hi
    · refine .inl ⟨rfl, fun hzero => ?_⟩
      rw [inner_eq_nil_iff.mpr hzero] at hinn
      cases hinn
    · exact .inr hi

theorem exists_bind (s : Scope) (name : String) (loc : Location) : ∃ b bindings,
    (s.add name loc).bind s.bindings.size = .ok { s.add name loc with bindings } ∧ b.name = name ∧
      b.depth = s.depth ∧ b.bound = true ∧ (b.isGlobal = true ↔ s.depth = 0) ∧
      ∀ i, bindings.get? i = if i = s.bindings.size then some b else s.bindings.get? i := by
  obtain ⟨b, hb, hname, hdep, -, hglob⟩ := s.exists_add name loc
  have hnew : (s.add name loc).bindings.get? s.bindings.size = some b := by
    rw [hb, Table.get?_push, if_pos rfl]
  have hbind := bind_eq hnew
  obtain ⟨b', hb', -, hget'⟩ := bind_eq_ok hbind
  cases hnew.symm.trans hb'
  refine ⟨{ b with bound := true }, _, hbind, hname, hdep, rfl, hglob, fun i => ?_⟩
  refine (hget' i).trans ?_
  rw [hb, Table.get?_push]
  split <;> rfl

theorem Models.bind (h : s.Models Γ) (name : String) (loc : Location) {bindings : Table Binding}
    (hname : b.name = name) (hdep : b.depth = s.depth) (hbnd : b.bound = true)
    (hglob : b.isGlobal = true ↔ s.depth = 0)
    (hbinds : ∀ i, bindings.get? i = if i = s.bindings.size then some b else s.bindings.get? i) :
    Models (Γ.declare name) { s.add name loc with bindings } := by
  have hold : ∀ i, i < s.bindings.size → bindings.get? i = s.bindings.get? i := fun i hi =>
    (hbinds i).trans (if_neg (Nat.ne_of_lt hi))
  have hinn := h.inner
  unfold Surroundings.declare
  -- outside every scope the variable is global, otherwise it joins the innermost scope
  cases hlocals : Γ.locals with
  | nil =>
    rw [hlocals] at hinn
    have hnil := hinn.eq_nil
    have hzero : s.depth = 0 := inner_eq_nil_iff.mp hnil
    have hnew : Declares { s with bindings } 0 s.bindings.size name :=
      ⟨b, (hbinds _).trans (if_pos rfl), hname, hdep.trans hzero, hbnd, hzero ▸ hglob⟩
    exact {
      outer := by
        show List.Forall₂ _ (s.add name loc).outer _
        rw [outer_add_of_nil hnil]
        exact .cons hnew (h.outer.imp fun _ _ hd => hd.mono hold)
      inner := by
        show Nests _ (s.add name loc).inner _
        rw [inner_add_of_nil hnil]
        trivial
      functions := h.functions }
  | cons scope locals =>
    rw [hlocals] at hinn
    obtain ⟨ids, rest, heq, hsc, hrest⟩ := hinn.exists_cons
    have hlen : s.depth = rest.length + 1 := by rw [← length_inner, heq]; rfl
    have hnew : Declares { s with bindings } (rest.length + 1) s.bindings.size name :=
      ⟨b, (hbinds _).trans (if_pos rfl), hname, hdep.trans hlen, hbnd, hlen ▸ hglob⟩
    exact {
      outer := by
        show List.Forall₂ _ (s.add name loc).outer _
        rw [(s.add_of_cons name loc heq).2]
        exact h.outer.imp fun _ _ hd => hd.mono hold
      inner := by
        show Nests _ (s.add name loc).inner _
        rw [(s.add_of_cons name loc heq).1]
        exact ⟨.cons hnew (hsc.imp fun _ _ hd => hd.mono hold), hrest.mono hold⟩
      functions := h.functions }

theorem Models.enter (h : s.Models Γ) : s.enter.Models Γ.enter where
  outer := by
    rw [outer_enter]
    exact h.outer
  inner := by
    rw [inner_enter]
    exact ⟨.nil, h.inner.mono fun _ _ => rfl⟩
  functions := h.functions

theorem Models.exit (h : s.Models { Γ with locals := names :: Γ.locals }) :
    ∃ s', s.exit = .ok s' ∧ s'.Models Γ ∧ s'.bindings = s.bindings ∧
      ∃ ids, s.inner = ids :: s'.inner := by
  obtain ⟨ids, rest, hinn, -, hrest⟩ := h.inner.exists_cons
  obtain ⟨s', hexit⟩ := exists_exit hinn
  obtain ⟨⟨ids', hinn'⟩, houter, hbinds, -, -, hfunctions⟩ := exit_eq_ok hexit
  obtain ⟨rfl, rfl⟩ := List.cons.inj (hinn.symm.trans hinn')
  have hsame : ∀ i, i < s.bindings.size → s'.bindings.get? i = s.bindings.get? i :=
    fun i _ => by rw [hbinds]
  refine ⟨s', hexit, ⟨?_, hrest.mono hsame, fun name => ?_⟩, hbinds, ids, hinn⟩
  · rw [houter]
    exact h.outer.imp fun _ _ hd => hd.mono hsame
  · rw [hasFunction, hfunctions]
    exact h.functions name

end Scope

/-! ## Stages of a compilation -/

/-- A place of a program, the blocks that are reserved there, and the regions and loops around it. -/
structure Stage where
  around : Surroundings
  reserved : List Nat
  tries : Nat
  loops : List LoopTargets

/-- A session that has come to a place. -/
structure Session.Tracks (π : Pool) (σ : Stage) (s : Session) : Prop
    extends s.Provides σ.around π where
  models : s.scope.Models σ.around
  draft : s.body.draft.Ready σ.reserved σ.tries σ.loops
  kind : s.body.kind = .definition ↔ σ.around.inDefinition = true
  loops : σ.around.inLoop = true ↔ σ.loops ≠ []
  /-- The local variables in scope have slots of the function. -/
  slots : ∀ i ∈ s.scope.inner.flatten, ∃ slot, s.body.slots.lookup i = some slot

variable {Γ : Surroundings} {π : Pool} {R : List Nat} {t : Nat} {l : List LoopTargets} {σ σ' : Stage}
  {s s' : Session} {α β : Type} {P P' : Prop}

theorem Session.Provides.elsewhere (h : s.Provides Γ π) (Γ' : Surroundings)
    (hfns : Γ'.functions = Γ.functions) (hcls : Γ'.classes = Γ.classes)
    (hrecv : Γ'.hasReceiver = Γ.hasReceiver) : s.Provides Γ' π where
  sane := ⟨hfns ▸ h.sane.unreserved, hfns ▸ h.sane.distinct⟩
  pool := h.pool
  functions := h.functions.trans hfns.symm
  classes := hcls ▸ h.classes
  receiver := h.receiver.trans hrecv.symm

theorem Session.Tracks.reads_of (hs : s.Tracks π σ) {scope : Scope}
    (hrslv : ∀ name loc, scope.resolve name loc = s.scope.resolve name loc)
    (hbinds : ∀ i, i < s.scope.bindings.size →
      scope.bindings.get? i = s.scope.bindings.get? i) :
    Session.Reads σ.around π { s with scope } := by
  refine { hs.toProvides with sees := fun name loc hsees => ?_, blind := fun name loc hsees => ?_ }
  · rcases hs.models.resolve name loc with ⟨-, i, depth, hi, hd, hdep, hin⟩ | ⟨hnot, -⟩
    · have hlt := hd.lt
      obtain ⟨b, hb, -, -, -, hglob⟩ := hd
      refine ⟨i, (hrslv name loc).trans hi, b, (hbinds i hlt).trans hb, hglob.trans hdep, ?_⟩
      intro hlocal
      refine hs.slots i (hin fun hzero => ?_)
      exact Bool.noConfusion (hlocal.symm.trans (hglob.mpr hzero))
    · exact absurd hsees hnot
  · rcases hs.models.resolve name loc with ⟨h, -⟩ | ⟨-, herror⟩
    · exact absurd h hsees
    · exact (hrslv name loc).trans herror

theorem Session.Tracks.reads (hs : s.Tracks π σ) : s.Reads σ.around π :=
  hs.reads_of (fun _ _ => rfl) fun _ _ => rfl

theorem Session.Tracks.of_same (hs : s.Tracks π ⟨Γ, R, t, l⟩) (h : s.Same s')
    (hd : s'.body.draft.Ready R' t' l) : s'.Tracks π ⟨Γ, R', t', l⟩ := by
  obtain ⟨d, rfl⟩ := h
  exact { hs with draft := hd }

namespace Lowering

/-- A step from one place to another goes on exactly if a rule is kept. -/
def Steps (π : Pool) (σ : Stage) (x : Lowering α) (P : Prop) (σ' : α → Stage) : Prop :=
  ∀ s, s.Tracks π σ → Decides x s P fun a s' => s'.Tracks π (σ' a)

namespace Steps

variable {x : Lowering α} {τ : α → Stage} {υ : β → Stage}

theorem congr (hx : Steps π σ x P τ) (hP : P ↔ P') : Steps π σ x P' τ :=
  fun s hs => (hx s hs).congr hP

theorem pure (a : α) : Steps π σ (Pure.pure a) True fun _ => σ :=
  fun _ hs => .pure hs

theorem bind {f : α → Lowering β} (hx : Steps π σ x P τ) (hf : ∀ a, Steps π (τ a) (f a) P' υ) :
    Steps π σ (x >>= f) (P ∧ P') υ :=
  fun s hs => (hx s hs).bind fun a s' hs' => hf a s' hs'

theorem after {f : α → Lowering β} (hx : Steps π σ x True τ) (hf : ∀ a, Steps π (τ a) (f a) P υ) :
    Steps π σ (x >>= f) P υ :=
  (hx.bind hf).congr (iff_of_eq (true_and _))

theorem before {f : α → Lowering β} (hx : Steps π σ x P τ) (hf : ∀ a, Steps π (τ a) (f a) True υ) :
    Steps π σ (x >>= f) P υ :=
  (hx.bind hf).congr (iff_of_eq (and_true _))

end Steps

theorem Judges.steps {x : Lowering α} {A : α → Prop} (hx : Judges Γ π x P A) :
    Steps π ⟨Γ, R, t, l⟩ x P fun _ => ⟨Γ, R, t, l⟩ :=
  fun s hs => (hx R t l s hs.reads hs.draft).mono fun _ _ ⟨hsame, hd, _⟩ => hs.of_same hsame hd

theorem steps_drafting {x : Drafting α} {R' : α → List Nat}
    (hx : ∀ d, Draft.Ready R t l d → Succeeds x d fun a d' => d'.Ready (R' a) t' l) :
    Steps π ⟨Γ, R, t, l⟩ (drafting x) True fun a => ⟨Γ, R' a, t', l⟩ :=
  fun _ hs => .of_succeeds ((succeeds_drafting (hx _ hs.draft)).mono fun _ _ h => hs.of_same h.1 h.2)

theorem steps_block (label : String) :
    Steps π ⟨Γ, R, t, l⟩ (drafting (Draft.block label)) True fun b => ⟨Γ, b :: R, t, l⟩ :=
  steps_drafting fun _ hd => hd.block label

theorem steps_moveTo (R1 : List Nat) (b : Nat) (R2 : List Nat) :
    Steps π ⟨Γ, R1 ++ b :: R2, t, l⟩ (drafting (Draft.moveTo b)) True fun _ => ⟨Γ, R1 ++ R2, t, l⟩ :=
  steps_drafting fun _ hd => hd.moveTo R1 b R2

theorem steps_enterTry :
    Steps π ⟨Γ, R, t, l⟩ (drafting Draft.enterTry) True fun _ => ⟨Γ, R, t + 1, l⟩ :=
  steps_drafting fun _ hd => .modifyGet { hd with tries := congrArg Nat.succ hd.tries }

theorem steps_exitTry :
    Steps π ⟨Γ, R, t + 1, l⟩ (drafting Draft.exitTry) True fun _ => ⟨Γ, R, t, l⟩ :=
  steps_drafting fun _ hd => hd.exitTry

theorem steps_inLoop (leave next : Nat) {x : Lowering Unit}
    (hx : Steps π ⟨Γ.loop, R, t, ⟨leave, next, t⟩ :: l⟩ x P fun _ =>
      ⟨Γ.loop, R, t, ⟨leave, next, t⟩ :: l⟩) :
    Steps π ⟨Γ, R, t, l⟩ (inLoop leave next x) P fun _ => ⟨Γ, R, t, l⟩ := by
  intro s hs
  have hpush : Succeeds (drafting (Draft.pushLoop leave next)) s fun _ s' =>
      s'.Tracks π ⟨Γ.loop, R, t, ⟨leave, next, t⟩ :: l⟩ := by
    refine ⟨(), _, rfl, ?_⟩
    have hloops : (⟨leave, next, s.body.draft.tryDepth⟩ : LoopTargets) :: s.body.draft.loops =
        ⟨leave, next, t⟩ :: l := by rw [hs.draft.tries, hs.draft.loops]
    exact {
      hs.toProvides.elsewhere Γ.loop rfl rfl rfl with
      models := ⟨hs.models.outer, hs.models.inner, hs.models.functions⟩
      draft := { hs.draft with loops := hloops }
      kind := hs.kind
      slots := hs.slots
      loops := iff_of_true rfl nofun }
  refine .after hpush fun _ s1 hs1 => ?_
  refine (hx s1 hs1).before fun _ s2 hs2 => ⟨(), _, rfl, ?_⟩
  exact {
    hs2.toProvides.elsewhere Γ rfl rfl rfl with
    models := ⟨hs2.models.outer, hs2.models.inner, hs2.models.functions⟩
    draft := { hs2.draft with loops := congrArg List.tail hs2.draft.loops }
    kind := hs2.kind
    slots := hs2.slots
    loops := hs.loops }

/-! ## Variables and scopes -/

theorem succeeds_allocate {id : Nat} (hb : s.scope.bindings.get? id = some b)
    (hd : s.body.draft.Ready R t l) :
    Succeeds (allocate id) s fun _ s' => ∃ draft globals slots,
      s' = { s with globals, body := { s.body with draft, slots } } ∧ draft.Ready R t l ∧
        (b.isGlobal = true ∧ slots = s.body.slots ∨
          b.isGlobal = false ∧ ∃ slot, slots = (id, slot) :: s.body.slots) := by
  refine .get_bind ?_
  unfold Table.get
  rw [hb]
  refine Succeeds.bind (R := fun b' s' => b = b' ∧ s = s') ⟨b, s, rfl, rfl, rfl⟩ ?_
  rintro _ _ ⟨rfl, rfl⟩
  dsimp only
  split
  · next hglob =>
    refine (succeeds_drafting (x := Draft.globalRoot b.symbol) (hd.pushPrologue rfl)).bind ?_
    rintro _ _ ⟨⟨draft, rfl⟩, hd'⟩
    exact ⟨_, _, rfl, draft, _, _, rfl, hd', .inl ⟨hglob, rfl⟩⟩
  · next hlocal =>
    refine (succeeds_drafting (x := Draft.localSlot b.symbol) (hd.slot _)).bind ?_
    rintro slot _ ⟨⟨draft, rfl⟩, hd'⟩
    exact ⟨_, _, rfl, draft, _, _, rfl, hd', .inr ⟨by simpa using hlocal, slot, rfl⟩⟩

/-- A variable is declared exactly if its scope does not have the name yet and its first value keeps
the rules. The first value does not see it. -/
theorem decides_declareVariable (hs : s.Tracks π ⟨Γ, R, t, l⟩) (name : String) (loc : Location)
    (hval : Tests Γ π value P) :
    Decides (declareVariable name loc value) s (Γ.Fresh name ∧ P) fun id s' =>
      s'.Tracks π ⟨Γ.declare name, R, t, l⟩ ∧ ∃ G, s'.Stores id G := by
  refine .get_bind ?_
  rw [Scope.declare_eq]
  have hclash := hs.models.clashes_iff name
  split
  · next h => exact .inr ⟨fun h' => hclash.mp h h'.1, _, _, rfl, nofun⟩
  next h =>
  have hfresh : Γ.Fresh name := not_not.mp fun h' => h (hclash.mpr h')
  refine Decides.congr (P := P) ?_ (and_iff_right hfresh).symm
  obtain ⟨b, hb, -, -, -, hisGlobal⟩ := s.scope.exists_add name loc
  obtain ⟨b', bindings, hbind, hname, hdep, hbnd, hisGlobal', hget⟩ := s.scope.exists_bind name loc
  have hnew : (s.scope.add name loc).bindings.get? s.scope.bindings.size = some b := by
    rw [hb, Table.get?_push, if_pos rfl]
  have hpend : Session.Reads Γ π { s with scope := s.scope.add name loc } :=
    hs.reads_of (hs.models.resolve_add name loc) (s.scope.get?_add name loc)
  refine Decides.after (R := fun r s' => (s.scope.bindings.size, s.scope.add name loc) = r ∧ s = s')
    ⟨_, _, rfl, rfl, rfl⟩ ?_
  rintro _ _ ⟨rfl, rfl⟩
  refine Decides.after (R := fun _ s' => { s with scope := s.scope.add name loc } = s')
    ⟨_, _, rfl, rfl⟩ ?_
  rintro _ _ rfl
  -- the value is judged in the old surroundings: its own name does not resolve yet
  refine (hval R t l _ hpend hs.draft).before ?_
  rintro r _ ⟨⟨draft, rfl⟩, hd, -⟩
  refine (succeeds_allocate hnew hd).bind ?_
  rintro dest _ ⟨draft, globals, slots, rfl, hd, hslt⟩
  refine Succeeds.bind (succeeds_drafting (Q := fun _ d => d.Ready R t l) (hd.push rfl)) ?_
  rintro _ _ ⟨⟨draft, rfl⟩, hd⟩
  refine .get_bind ?_
  dsimp only
  rw [hbind]
  have hslot : ∀ i, i = s.scope.bindings.size ∧ s.scope.depth ≠ 0 ∨ i ∈ s.scope.inner.flatten →
      ∃ slot, slots.lookup i = some slot := by
    intro i hi
    rcases hslt with ⟨hglob, rfl⟩ | ⟨-, slot, rfl⟩
    · rcases hi with ⟨-, hdep⟩ | hi
      · exact absurd (hisGlobal.mp hglob) hdep
      · exact hs.slots i hi
    · by_cases heq : i = s.scope.bindings.size
      · exact ⟨slot, heq ▸ List.lookup_cons_self⟩
      · obtain ⟨slot', hslot'⟩ := hs.slots i (hi.resolve_left fun h => heq h.1)
        refine ⟨slot', ?_⟩
        rw [List.lookup_cons, beq_false_of_ne heq]
        exact hslot'
  have hmodels := hs.models.bind name loc hname hdep hbnd hisGlobal' hget
  obtain ⟨outer, locals, hdecl⟩ := Γ.exists_declare name
  rw [hdecl] at hmodels ⊢
  refine ⟨_, _, rfl, ?_, b'.isGlobal = true, b', (hget _).trans (if_pos rfl), .rfl, fun hlocal => ?_⟩
  · exact {
      hs.toProvides.elsewhere { Γ with globals := outer, locals } rfl rfl rfl with
      models := hmodels
      draft := hd
      kind := hs.kind
      loops := hs.loops
      slots := fun i hi => hslot i (Scope.mem_inner_add name loc hi) }
  · refine hslot _ (.inl ⟨rfl, fun hdep => ?_⟩)
    exact Bool.noConfusion (hlocal.symm.trans (hisGlobal'.mpr hdep))

theorem steps_declareVariable (name : String) (loc : Location) (hval : Tests Γ π value P) :
    Steps π ⟨Γ, R, t, l⟩ (declareVariable name loc value) (Γ.Fresh name ∧ P) fun _ =>
      ⟨Γ.declare name, R, t, l⟩ :=
  fun _ hs => (decides_declareVariable hs name loc hval).mono fun _ _ h => h.1

theorem steps_declareParameters (loc : Location) {value : Nat → String → Lowering Nat}
    (hval : ∀ Γ i name, Tests Γ π (value i name) True) (names : List String) (i : Nat) :
    Steps π ⟨Γ, R, t, l⟩ (declareParameters loc value i names) (Γ.Accepts names) fun _ =>
      ⟨Γ.declareAll names, R, t, l⟩ := by
  induction names generalizing Γ i with
  | nil => exact (Steps.pure ()).congr (iff_of_true trivial Surroundings.accepts_nil)
  | cons name rest ih =>
    refine ((steps_declareVariable name loc (hval Γ i name)).bind fun _ => ih (i + 1)).congr ?_
    rw [Surroundings.accepts_cons, and_true]

theorem steps_scoped {Γ' : Surroundings} {scope : List String} {R' : List Nat} {t' : Nat}
    {l' : List LoopTargets} {x : Lowering α}
    (hx : Steps π ⟨Γ.enter, R, t, l⟩ x P fun _ =>
      ⟨{ Γ' with locals := scope :: Γ'.locals }, R', t', l'⟩) :
    Steps π ⟨Γ, R, t, l⟩ (inScope x) P fun _ => ⟨Γ', R', t', l'⟩ := by
  intro s hs
  have henter : Succeeds (modify fun s => { s with scope := s.scope.enter } : Lowering PUnit) s
      fun _ s' => s'.Tracks π ⟨Γ.enter, R, t, l⟩ := by
    refine ⟨(), _, rfl, ?_⟩
    exact {
      hs.toProvides.elsewhere Γ.enter rfl rfl rfl with
      models := hs.models.enter
      draft := hs.draft
      kind := hs.kind
      loops := hs.loops
      slots := fun i hi => hs.slots i (by rwa [Scope.inner_enter] at hi) }
  refine .after henter fun _ s1 hs1 => ?_
  refine (hx s1 hs1).before fun a s2 hs2 => .get_bind ?_
  obtain ⟨scope', hexit, hmodels, -, ids, hinn⟩ := hs2.models.exit
  rw [hexit]
  refine ⟨a, _, rfl, ?_⟩
  exact {
    hs2.toProvides.elsewhere Γ' rfl rfl rfl with
    models := hmodels
    draft := hs2.draft
    kind := hs2.kind
    loops := hs2.loops
    slots := fun i hi => hs2.slots i (by rw [hinn]; exact List.mem_append_right _ hi) }

theorem steps_inScope {x : Lowering α} {names : List String}
    (hx : Steps π ⟨Γ.enter, R, t, l⟩ x P fun _ => ⟨Γ.enter.declareAll names, R, t, l⟩) :
    Steps π ⟨Γ, R, t, l⟩ (inScope x) P fun _ => ⟨Γ, R, t, l⟩ := by
  rw [Surroundings.declareAll_enter] at hx
  exact steps_scoped hx

/-! ## Definitions -/

/-- Outside every scope, the code of a definition begins in a scope of its own. Behind it, writing
goes on where it was. -/
theorem steps_define (htop : Γ.locals = []) (symbol : String) (hasReceiver : Bool)
    (names : List String) {x : Lowering Unit}
    (hx : Steps π ⟨Γ.define false, [], 0, []⟩ x P fun _ =>
      ⟨(Γ.define hasReceiver).declareAll names, [], 0, []⟩) :
    Steps π ⟨Γ, R, t, l⟩ (define symbol x) P fun _ => ⟨Γ, R, t, l⟩ := by
  intro s hs
  have hinn : s.scope.inner = [] := (htop ▸ hs.models.inner : s.scope.Nests s.scope.inner []).eq_nil
  rw [Γ.define_eq_enter htop, Surroundings.declareAll_define htop] at hx
  refine .get_bind ?_
  have hst : Succeeds (modify fun s =>
      { s with body := { draft := Draft.start symbol .value, kind := .definition } } : Lowering PUnit) s
      fun _ s' => s'.Tracks π ⟨Γ.around false, [], 0, []⟩ := by
    refine ⟨(), _, rfl, ?_⟩
    exact {
      sane := ⟨hs.sane.unreserved, hs.sane.distinct⟩
      pool := hs.pool
      functions := hs.functions
      classes := hs.classes
      receiver := rfl
      models := ⟨hs.models.outer, hs.models.inner, hs.models.functions⟩
      draft := Draft.ready_start symbol (.inl rfl)
      kind := iff_of_true rfl rfl
      loops := iff_of_false nofun fun h => h rfl
      slots := fun i hi => by rw [hinn] at hi; cases hi }
  refine .after hst fun _ s1 hs1 => ?_
  refine (steps_scoped hx s1 hs1).before fun _ s2 hs2 => ?_
  -- no slot is owed to a scope: outside of every scope there is none
  have hinner2 : s2.scope.inner = [] :=
    (htop ▸ hs2.models.inner : s2.scope.Nests s2.scope.inner []).eq_nil
  refine Succeeds.bind (R := fun _ s' => ∃ draft finished,
    { s2 with finished, body := { s2.body with draft } } = s') ?_ ?_
  · refine (succeeds_drafting hs2.draft.finish).bind ?_
    rintro f _ ⟨⟨draft, rfl⟩, -⟩
    exact ⟨(), _, rfl, draft, _, rfl⟩
  · rintro _ _ ⟨draft, finished, rfl⟩
    refine ⟨(), _, rfl, ?_⟩
    exact {
      sane := hs.sane
      pool := hs2.pool
      functions := hs2.functions
      classes := hs2.classes
      receiver := hs.receiver
      models := ⟨hs2.models.outer, hs2.models.inner, hs2.models.functions⟩
      draft := hs.draft
      kind := hs.kind
      loops := hs.loops
      slots := fun i hi => by rw [hinner2] at hi; cases hi }

theorem steps_receiverParameter : Steps π ⟨Γ.define false, R, t, l⟩ receiverParameter True fun _ =>
    ⟨Γ.define true, R, t, l⟩ := by
  intro s hs
  refine .of_succeeds (Succeeds.bind (succeeds_drafting (hs.draft.parameter .value "this")) ?_)
  rintro this _ ⟨⟨draft, rfl⟩, hd⟩
  refine ⟨(), _, rfl, ?_⟩
  exact {
    sane := ⟨hs.sane.unreserved, hs.sane.distinct⟩
    pool := hs.pool
    functions := hs.functions
    classes := hs.classes
    receiver := rfl
    models := ⟨hs.models.outer, hs.models.inner, hs.models.functions⟩
    draft := hd
    kind := hs.kind
    loops := hs.loops
    slots := hs.slots }

end Lowering

end Ember
