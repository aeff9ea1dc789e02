import Ember.Scope

/-!
# Ember — nested scopes in one stack

All bindings in scope lie in one stack, and each open scope only remembers how tall the stack was
when it was entered. Read off these marks, the stack falls apart into the bindings of each open
scope (`inner`) and those outside every scope (`outer`), and opening, closing and declaring do to
this reading what they do to a list of scopes: `inner_enter`, `exit_eq_ok`, `inner_add`.
-/

namespace Ember.Scope

variable {s t : Scope} {v marks : List Nat} {mark : Nat} {ids : List Nat} {scopes : List (List Nat)}
  {name : String} {loc : Location} {i : Nat} {b : Binding}

/-- What lies above each mark of a stack, up to the mark before. -/
def above (v : List Nat) : List Nat → List (List Nat)
  | [] => []
  | mark :: marks => v.take (v.length - mark) :: above (v.drop (v.length - mark)) marks

/-- What lies below all marks of a stack. -/
def below (v : List Nat) : List Nat → List Nat
  | [] => v
  | mark :: marks => below (v.drop (v.length - mark)) marks

theorem length_above : (above v marks).length = marks.length := by
  induction marks generalizing v with
  | nil => rfl
  | cons mark marks ih => exact congrArg Nat.succ ih

theorem flatten_above : (above v marks).flatten ++ below v marks = v := by
  induction marks generalizing v with
  | nil => rfl
  | cons mark marks ih =>
    rw [above, below, List.flatten_cons, List.append_assoc, ih, List.take_append_drop]

/-- The bindings of each open scope, innermost scope and most recent binding first. -/
def inner (s : Scope) : List (List Nat) :=
  above s.visible s.regions

/-- The bindings outside every scope, most recent first. -/
def outer (s : Scope) : List Nat :=
  below s.visible s.regions

theorem length_inner (s : Scope) : s.inner.length = s.depth :=
  length_above.trans s.depth_eq.symm

theorem visible_eq (s : Scope) : s.visible = s.inner.flatten ++ s.outer :=
  flatten_above.symm

theorem inner_eq_nil_iff : s.inner = [] ↔ s.depth = 0 := by
  rw [← length_inner, List.length_eq_zero_iff]

theorem exists_inner_of_pos (h : 0 < s.depth) : ∃ ids scopes, s.inner = ids :: scopes := by
  cases hinn : s.inner with
  | nil => exact absurd (inner_eq_nil_iff.mp hinn) (Nat.ne_of_gt h)
  | cons ids scopes => exact ⟨ids, scopes, rfl⟩

/-! ## Opening and closing -/

theorem inner_enter (s : Scope) : s.enter.inner = [] :: s.inner := by
  simp [inner, enter, above]

theorem length_inner_enter (s : Scope) : s.enter.inner.length = s.inner.length + 1 := by
  rw [inner_enter, List.length_cons]

theorem inner_enter_ne_nil (s : Scope) : s.enter.inner ≠ [] := by
  rw [inner_enter]
  exact List.cons_ne_nil _ _

theorem outer_enter (s : Scope) : s.enter.outer = s.outer := by
  simp [outer, enter, below]

theorem inner_leave (h : s.regions = mark :: marks) :
    ∃ ids, s.inner = ids :: (s.leave mark marks h).inner := by
  refine ⟨s.visible.take (s.visible.length - mark), ?_⟩
  rw [inner, h]
  rfl

theorem outer_leave (h : s.regions = mark :: marks) : (s.leave mark marks h).outer = s.outer := by
  unfold outer
  rw [h]
  rfl

theorem exit_eq_ok (h : s.exit = .ok t) : (∃ ids, s.inner = ids :: t.inner) ∧ t.outer = s.outer ∧
    t.bindings = s.bindings ∧ t.nextGlobal = s.nextGlobal ∧ t.nextLocal = s.nextLocal ∧
    t.functions = s.functions := by
  unfold exit at h
  split at h
  · cases h
  · next hregions =>
    cases h
    exact ⟨inner_leave hregions, outer_leave hregions, rfl, rfl, rfl, rfl⟩

theorem exists_exit (h : s.inner = ids :: scopes) : ∃ t, s.exit = .ok t := by
  unfold exit
  split
  · next hregions =>
    rw [inner, hregions] at h
    cases h
  · exact ⟨_, rfl⟩

theorem depth_exit (h : s.exit = .ok t) : s.depth = t.depth + 1 := by
  obtain ⟨⟨ids, hinner⟩, -⟩ := exit_eq_ok h
  rw [← length_inner, ← length_inner, hinner, List.length_cons]

/-! ## Declaring -/

theorem outer_add_of_nil (h : s.inner = []) :
    (s.add name loc).outer = s.bindings.size :: s.outer := by
  have hregions : s.regions = [] := by
    rw [← List.length_eq_zero_iff, ← s.depth_eq]
    exact inner_eq_nil_iff.mp h
  unfold outer
  rw [hregions]
  show below (s.bindings.size :: s.visible) s.regions = _
  rw [hregions]
  rfl

/-- In an open scope the new binding lies above its mark: the mark is no taller than the stack. -/
theorem add_of_cons (s : Scope) (name : String) (loc : Location) (h : s.inner = ids :: scopes) :
    (s.add name loc).inner = (s.bindings.size :: ids) :: scopes ∧
      (s.add name loc).outer = s.outer := by
  unfold inner at h
  unfold inner outer
  show above (s.bindings.size :: s.visible) s.regions = _ ∧
    below (s.bindings.size :: s.visible) s.regions = _
  cases hregions : s.regions with
  | nil =>
    rw [hregions] at h
    cases h
  | cons mark marks =>
    have hfalling := s.falling
    rw [hregions, List.pairwise_cons] at hfalling
    have hmark : mark ≤ s.visible.length := hfalling.1 mark List.mem_cons_self
    rw [hregions] at h
    obtain ⟨rfl, rfl⟩ := List.cons.inj h
    -- hence the cut moves up with the stack, and the new binding falls on the innermost side
    have hsucc : (s.bindings.size :: s.visible).length - mark = s.visible.length - mark + 1 :=
      Nat.succ_sub hmark
    simp only [above, below, hsucc, List.take_succ_cons, List.drop_succ_cons, and_self]

theorem inner_add_of_nil (h : s.inner = []) : (s.add name loc).inner = [] :=
  have hzero : s.depth = 0 := inner_eq_nil_iff.mp h
  inner_eq_nil_iff.mpr hzero

theorem declaring_eq (s : Scope) (name : String) (loc : Location) : (declaring name loc).run s =
    if s.clashes name then .error (.of loc (.redeclared name .var)) s
    else .ok s.bindings.size (s.add name loc) :=
  rfl

theorem declaringFunction_eq (s : Scope) (name : String) (loc : Location) :
    (declaringFunction name loc).run s =
      if s.hasFunction name || (s.lookupAtDepth name 0).isSome then
        .error (.of loc (.redeclared name .function)) s
      else .ok () { s with functions := (name, loc) :: s.functions } :=
  rfl

theorem declare_eq (s : Scope) (name : String) (loc : Location) : s.declare name loc =
    if s.clashes name then .error (.of loc (.redeclared name .var))
    else .ok (s.bindings.size, s.add name loc) := by
  unfold declare
  rw [declaring_eq]
  cases s.clashes name <;> rfl

theorem declareFunction_eq (s : Scope) (name : String) (loc : Location) :
    s.declareFunction name loc =
      if s.hasFunction name || (s.lookupAtDepth name 0).isSome then
        .error (.of loc (.redeclared name .function))
      else .ok { s with functions := (name, loc) :: s.functions } := by
  unfold declareFunction
  rw [declaringFunction_eq]
  cases s.hasFunction name || (s.lookupAtDepth name 0).isSome <;> rfl

/-! ## Binding -/

theorem bind_eq (h : s.bindings.get? i = some b) : s.bind i = .ok { s with
    bindings := ⟨s.bindings.entries.setIfInBounds i { b with bound := true }⟩ } := by
  have hget : s.bindings.get i = .ok b := by rw [Table.get, h]
  have hset : s.bindings.set i { b with bound := true } =
      .ok ⟨s.bindings.entries.setIfInBounds i { b with bound := true }⟩ :=
    if_pos (Array.getElem?_eq_some_iff.mp h).1
  unfold Scope.bind
  rw [hget]
  simp only [Bind.bind, Except.bind, hset]
  rfl

/-- Binding a variable marks its entry and changes nothing else. -/
theorem bind_eq_ok (h : s.bind i = .ok t) :
    ∃ b, s.bindings.get? i = some b ∧ t = { s with bindings := t.bindings } ∧
      ∀ j, t.bindings.get? j = if j = i then some { b with bound := true } else s.bindings.get? j := by
  cases hb : s.bindings.get? i with
  | none =>
    have hget : s.bindings.get i = .error (.outOfRange i) := by rw [Table.get, hb]
    rw [Scope.bind, hget] at h
    cases h
  | some b =>
    cases (bind_eq hb).symm.trans h
    refine ⟨b, rfl, rfl, fun j => ?_⟩
    -- the entry is replaced in place, and every other one is as it was
    have hi : i < s.bindings.entries.size := (Array.getElem?_eq_some_iff.mp hb).1
    show (s.bindings.entries.setIfInBounds i _)[j]? = _
    by_cases hj : j = i
    · rw [if_pos hj, hj, Array.getElem?_setIfInBounds_self_of_lt hi]
    · rw [if_neg hj, Array.getElem?_setIfInBounds_ne (Ne.symm hj)]
      rfl

end Ember.Scope
