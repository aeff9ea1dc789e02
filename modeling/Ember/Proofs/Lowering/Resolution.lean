import Ember.Proofs.Lowering.Scoping

/-!
# Ember — names are resolved lexically

The scopes seen from outside, as what any sequence of commands makes of them: scopes are opened and
closed, variables and functions are declared, variables are bound. Whatever the sequence was, the
one stack of bindings is that of nested scopes (`layers`), a use finds the deepest bound binding of
its name, a name is refused where it is taken, and a scope that is closed again changes no name.

Main result: `resolution_of_commands`.
-/

namespace Ember.Scope

variable {b : Binding} {c : Command} {d : Diagnostic} {cs : List Command} {i j : Nat}

variable {s t u : Scope} {name : String} {loc : Location}

/-! ## Commands -/

/-- What the scopes can be asked to do. -/
inductive Command
  | enter
  | exit
  | declare (name : String) (loc : Location)
  | declareBound (name : String) (loc : Location)
  | bind (i : Nat)
  | declareFunction (name : String) (loc : Location)

/-- The scopes that a declaration leaves, whether it was refused or not. -/
def left {α : Type} : EStateM.Result Diagnostic Scope α → Scope
  | .ok _ t => t
  | .error _ t => t

/-- What a command makes of the scopes. -/
def perform (s : Scope) : Command → Except Fault Scope
  | .enter => .ok s.enter
  | .exit => s.exit
  | .declare name loc => .ok (left ((declaring name loc).run s))
  | .declareBound name loc =>
    match (declaring name loc).run s with
    | .ok i t => t.bind i
    | .error _ t => .ok t
  | .bind i => s.bind i
  | .declareFunction name loc => .ok (left ((declaringFunction name loc).run s))

/-- A sequence of commands. -/
def run (s : Scope) (commands : List Command) : Except Fault Scope :=
  commands.foldlM perform s

/-- Whether the scopes can carry out a command: a scope that is closed was opened, and a binding
that is bound was declared. -/
def Command.Permitted (s : Scope) : Command → Prop
  | .exit => 0 < s.depth
  | .bind i => i < s.bindings.size
  | _ => True

theorem perform_declare : s.perform (.declare name loc) =
    .ok (if s.clashes name then s else s.add name loc) := by
  simp only [perform, declaring_eq]
  cases s.clashes name <;> rfl

theorem perform_declareBound : s.perform (.declareBound name loc) =
    if s.clashes name then .ok s else (s.add name loc).bind s.bindings.size := by
  simp only [perform, declaring_eq]
  cases s.clashes name <;> rfl

theorem perform_declareFunction (s : Scope) (name : String) (loc : Location) : s.perform (.declareFunction name loc) = .ok s ∨
    s.perform (.declareFunction name loc) =
      .ok { s with functions := (name, loc) :: s.functions } := by
  simp only [perform, declaringFunction_eq]
  split
  · exact .inl rfl
  · exact .inr rfl

theorem exists_perform_iff (s : Scope) (c : Command) :
    (∃ t, s.perform c = .ok t) ↔ c.Permitted s := by
  cases c with
  | enter => exact iff_of_true ⟨_, rfl⟩ trivial
  | exit =>
    constructor
    · rintro ⟨t, ht⟩
      have hdep := depth_exit ht
      exact Nat.lt_of_lt_of_eq (Nat.succ_pos _) hdep.symm
    · intro hpos
      obtain ⟨ids, scopes, hinn⟩ := exists_inner_of_pos hpos
      exact exists_exit hinn
  | declare name loc => exact iff_of_true ⟨_, perform_declare⟩ trivial
  | declareBound name loc =>
    refine iff_of_true ?_ trivial
    rw [perform_declareBound]
    split
    · exact ⟨_, rfl⟩
    · obtain ⟨b, bindings, hbind, -⟩ := s.exists_bind name loc
      exact ⟨_, hbind⟩
  | bind i =>
    refine ⟨?_, fun hi => ⟨_, bind_eq (Array.getElem?_eq_getElem hi)⟩⟩
    rintro ⟨t, ht⟩
    obtain ⟨b, hb, -⟩ := bind_eq_ok ht
    exact (Array.getElem?_eq_some_iff.mp hb).1
  | declareFunction name loc => exact iff_of_true ⟨_, rfl⟩ trivial

theorem run_cons (c : Command) (cs : List Command) :
    s.run (c :: cs) = .ok t ↔ ∃ u, s.perform c = .ok u ∧ u.run cs = .ok t := by
  unfold run
  rw [List.foldlM_cons]
  cases s.perform c <;> simp [Bind.bind, Except.bind]

theorem run_append (cs ds : List Command) :
    s.run (cs ++ ds) = .ok t ↔ ∃ u, s.run cs = .ok u ∧ u.run ds = .ok t := by
  unfold run
  rw [List.foldlM_append]
  cases List.foldlM perform s cs <;> simp [Bind.bind, Except.bind]

/-! ## Layers -/

/-- The bindings of each open scope, innermost first, and last those outside every scope. -/
def layers (s : Scope) : List (List Nat) :=
  s.inner ++ [s.outer]

theorem flatten_layers (s : Scope) : s.layers.flatten = s.visible := by
  rw [layers, List.flatten_append, List.flatten_singleton, visible_eq]

theorem length_layers (s : Scope) : s.layers.length = s.depth + 1 := by
  rw [layers, List.length_append, length_inner, List.length_singleton]

theorem layers_enter (s : Scope) : s.enter.layers = [] :: s.layers := by
  rw [layers, inner_enter, outer_enter, List.cons_append, layers]

theorem layers_exit (h : s.exit = .ok t) : ∃ ids, s.layers = ids :: t.layers := by
  obtain ⟨⟨ids, hinn⟩, houter, -⟩ := exit_eq_ok h
  exact ⟨ids, by rw [layers, hinn, List.cons_append, layers, houter]⟩

theorem layers_bind (h : s.bind i = .ok t) : t.layers = s.layers := by
  obtain ⟨b, -, ht, -⟩ := bind_eq_ok h
  rw [ht]
  rfl

/-- The name that a binding was declared with. -/
def nameOf (s : Scope) (i : Nat) : Option String :=
  (s.bindings.get? i).map Binding.name

/-- Bindings in layers: those of a layer were declared under as many scopes as lie outside of it, and
under different names. Bindings outside every scope stay in scope, they are the globals, and no two
locals have one ordinal. -/
structure Layered (s : Scope) : Prop where
  level : ∀ k ids, s.layers[k]? = some ids → ∀ i ∈ ids,
    ∃ b, s.bindings.get? i = some b ∧ b.depth + k = s.depth
  apart : ∀ ids ∈ s.layers, (ids.map s.nameOf).Nodup
  outermost : ∀ i b, s.bindings.get? i = some b → b.depth = 0 → i ∈ s.outer
  kind : ∀ i b, s.bindings.get? i = some b → (b.isGlobal = true ↔ b.depth = 0)
  issued : ∀ i b n, s.bindings.get? i = some b → b.storage = .local n → n < s.nextLocal
  ordinal : ∀ i j b c n, s.bindings.get? i = some b → s.bindings.get? j = some c →
    b.storage = .local n → c.storage = .local n → i = j

theorem Layered.empty : Layered {} := by
  have hnone : ∀ i b, ({} : Scope).bindings.get? i = some b → False := nofun
  exact {
    level := by
      intro k ids hk i hi
      obtain rfl : ids = [] := by
        rcases k with _ | k
        · exact (Option.some.inj hk).symm
        · cases hk
      cases hi
    apart := by
      intro ids hids
      obtain rfl := List.mem_singleton.mp hids
      exact List.nodup_nil
    outermost := fun i b hb => (hnone i b hb).elim
    kind := fun i b hb => (hnone i b hb).elim
    issued := fun i b _ hb => (hnone i b hb).elim
    ordinal := fun i _ b _ _ hb => (hnone i b hb).elim }

theorem Layered.enter (h : s.Layered) : s.enter.Layered :=
  { h with
    level := by
      intro k ids hk i hi
      rw [layers_enter] at hk
      rcases k with _ | k
      · obtain rfl : ids = [] := (Option.some.inj hk).symm
        cases hi
      · obtain ⟨b, hb, hdep⟩ := h.level k ids hk i hi
        exact ⟨b, hb, congrArg Nat.succ hdep⟩
    apart := by
      intro ids hids
      rw [layers_enter] at hids
      rcases List.mem_cons.mp hids with rfl | hids
      · exact List.nodup_nil
      · exact h.apart ids hids
    outermost := by
      rw [outer_enter]
      exact h.outermost }

theorem Layered.exit (h : s.Layered) (hexit : s.exit = .ok t) : t.Layered := by
  obtain ⟨ids, hlayers⟩ := layers_exit hexit
  obtain ⟨-, houter, hbinds, -, hnext, -⟩ := exit_eq_ok hexit
  have hdep := depth_exit hexit
  -- the layers that are left are one place nearer to the innermost
  exact {
    level := by
      intro k ids' hk i hi
      rw [← List.getElem?_cons_succ (a := ids), ← hlayers] at hk
      obtain ⟨b, hb, hb'⟩ := h.level (k + 1) ids' hk i hi
      exact ⟨b, hbinds ▸ hb, by omega⟩
    apart := by
      intro ids' hids'
      have happ := h.apart ids' (hlayers ▸ List.mem_cons_of_mem _ hids')
      unfold nameOf at happ ⊢
      rwa [hbinds]
    outermost := by rw [hbinds, houter]; exact h.outermost
    kind := by rw [hbinds]; exact h.kind
    issued := by rw [hbinds, hnext]; exact h.issued
    ordinal := by rw [hbinds]; exact h.ordinal }

theorem Layered.bind (h : s.Layered) (hbind : s.bind i = .ok t) : t.Layered := by
  obtain ⟨b0, hb0, ht, hget⟩ := bind_eq_ok hbind
  -- every entry but for its mark is the one that was there before
  have hsame : ∀ j c, t.bindings.get? j = some c → ∃ c', s.bindings.get? j = some c' ∧
      c.name = c'.name ∧ c.depth = c'.depth ∧ c.storage = c'.storage := by
    intro j c hc
    rw [hget] at hc
    split at hc
    · next hji =>
      subst hji
      cases hc
      exact ⟨b0, hb0, rfl, rfl, rfl⟩
    · exact ⟨c, hc, rfl, rfl, rfl⟩
  have hname : ∀ j, t.nameOf j = s.nameOf j := by
    intro j
    unfold nameOf
    rw [hget]
    split
    · next hji => rw [hji, hb0]; rfl
    · rfl
  have hlayers := layers_bind hbind
  have hdep : t.depth = s.depth := by rw [ht]
  have hnext : t.nextLocal = s.nextLocal := by rw [ht]
  have houter : t.outer = s.outer := by rw [ht]; rfl
  exact {
    level := by
      intro k ids hk j hj
      obtain ⟨b, hb, hb'⟩ := h.level k ids (hlayers ▸ hk) j hj
      rw [hget, hdep]
      split
      · next hji =>
        subst hji
        cases hb0.symm.trans hb
        exact ⟨_, rfl, hb'⟩
      · exact ⟨b, hb, hb'⟩
    apart := by
      intro ids hids
      rw [funext hname]
      exact h.apart ids (hlayers ▸ hids)
    outermost := by
      intro j c hc hzero
      obtain ⟨c', hc', -, hd, -⟩ := hsame j c hc
      rw [houter]
      exact h.outermost j c' hc' (hd ▸ hzero)
    kind := by
      intro j c hc
      obtain ⟨c', hc', -, hd, hs⟩ := hsame j c hc
      rw [hd, ← h.kind j c' hc']
      unfold Binding.isGlobal
      rw [hs]
    issued := by
      intro j c n hc hn
      obtain ⟨c', hc', -, -, hs⟩ := hsame j c hc
      rw [hnext]
      exact h.issued j c' n hc' (hs ▸ hn)
    ordinal := by
      intro j k c d n hc hd hn hm
      obtain ⟨c', hc', -, -, hs⟩ := hsame j c hc
      obtain ⟨d', hd', -, -, hs'⟩ := hsame k d hd
      exact h.ordinal j k c' d' n hc' hd' (hs ▸ hn) (hs' ▸ hm) }

theorem layers_add (s : Scope) (name : String) (loc : Location) : ∃ ids rest,
    s.layers = ids :: rest ∧ (s.add name loc).layers = (s.bindings.size :: ids) :: rest := by
  unfold layers
  cases hinn : s.inner with
  | nil =>
    rw [inner_add_of_nil hinn, outer_add_of_nil hinn]
    exact ⟨_, _, rfl, rfl⟩
  | cons ids rest =>
    obtain ⟨hinn', houter⟩ := s.add_of_cons name loc hinn
    rw [hinn', houter]
    exact ⟨ids, rest ++ [s.outer], rfl, rfl⟩

theorem depth_add (s : Scope) (name : String) (loc : Location) :
    (s.add name loc).depth = s.depth :=
  rfl

theorem outer_add (s : Scope) (name : String) (loc : Location) :
    (s.add name loc).outer = if s.depth = 0 then s.bindings.size :: s.outer else s.outer := by
  split
  · next hzero => exact outer_add_of_nil (inner_eq_nil_iff.mpr hzero)
  · next hopen =>
    obtain ⟨ids, scopes, hinn⟩ := exists_inner_of_pos (Nat.pos_of_ne_zero hopen)
    exact (s.add_of_cons name loc hinn).2

theorem nextLocal_add (s : Scope) (name : String) (loc : Location) :
    s.nextLocal ≤ (s.add name loc).nextLocal ∧
      ∀ b n, (s.add name loc).bindings.get? s.bindings.size = some b → b.storage = .local n →
        n = s.nextLocal ∧ n < (s.add name loc).nextLocal := by
  have hget : (s.add name loc).bindings.get? s.bindings.size = some ⟨name,
      if s.depth = 0 then .global s.nextGlobal else .local s.nextLocal, s.depth, false, loc⟩ :=
    (Table.get?_push ..).trans (if_pos rfl)
  have hnext : (s.add name loc).nextLocal =
      if s.depth = 0 then s.nextLocal else s.nextLocal + 1 := rfl
  rw [hget, hnext]
  split
  · refine ⟨Nat.le_refl _, fun b n hb hn => ?_⟩
    cases hb
    cases hn
  · refine ⟨Nat.le_succ _, fun b n hb hn => ?_⟩
    cases hb
    cases hn
    exact ⟨rfl, Nat.lt_succ_self _⟩

theorem lt_size (hb : s.bindings.get? i = some b) : i < s.bindings.size :=
  (Array.getElem?_eq_some_iff.mp hb).1

theorem Layered.add (h : s.Layered) (hfree : ¬ s.clashes name = true) :
    (s.add name loc).Layered := by
  obtain ⟨new, hpush, hname, hdep, -, hglob⟩ := s.exists_add name loc
  obtain ⟨ids, rest, hlayers, hlayers'⟩ := s.layers_add name loc
  obtain ⟨hnext, hnew⟩ := s.nextLocal_add name loc
  have hget : ∀ i, (s.add name loc).bindings.get? i =
      if i = s.bindings.size then some new else s.bindings.get? i := by
    intro i
    rw [hpush, Table.get?_push]
  have hold : ∀ i b, s.bindings.get? i = some b → (s.add name loc).bindings.get? i = some b := by
    intro i b hb
    rw [s.get?_add name loc i (lt_size hb), hb]
  -- an entry is the new one, or it was there before
  have hcases : ∀ i b, (s.add name loc).bindings.get? i = some b →
      i = s.bindings.size ∧ b = new ∨ s.bindings.get? i = some b := by
    intro i b hb
    rw [hget] at hb
    split at hb
    · next hi => exact .inl ⟨hi, (Option.some.inj hb).symm⟩
    · exact .inr hb
  -- the bindings that were in scope keep their layer and their names
  have hlevel : ∀ k ids, s.layers[k]? = some ids → ∀ i ∈ ids,
      ∃ b, (s.add name loc).bindings.get? i = some b ∧ b.depth + k = (s.add name loc).depth := by
    intro k ids hk i hi
    obtain ⟨b, hb, hb'⟩ := h.level k ids hk i hi
    exact ⟨b, hold i b hb, by rw [depth_add, hb']⟩
  have hnms : ∀ ids ∈ s.layers, ids.map (s.add name loc).nameOf = ids.map s.nameOf := by
    intro ids hids
    obtain ⟨k, hk⟩ := List.mem_iff_getElem?.mp hids
    refine List.map_congr_left fun i hi => ?_
    obtain ⟨b, hb, -⟩ := h.level k ids hk i hi
    unfold nameOf
    rw [hold i b hb, hb]
  exact {
    level := by
      intro k ids' hk i hi
      rw [hlayers'] at hk
      rcases k with _ | k
      · obtain rfl : s.bindings.size :: ids = ids' := Option.some.inj hk
        rcases List.mem_cons.mp hi with rfl | hi
        · exact ⟨new, (hget _).trans (if_pos rfl), by rw [depth_add]; exact hdep⟩
        · exact hlevel 0 ids (by rw [hlayers]; rfl) i hi
      · exact hlevel (k + 1) ids' (by rw [hlayers]; exact hk) i hi
    apart := by
      intro ids' hids'
      rw [hlayers'] at hids'
      rcases List.mem_cons.mp hids' with rfl | hids'
      · have hfst : ids ∈ s.layers := hlayers ▸ List.mem_cons_self
        rw [List.map_cons, hnms ids hfst]
        refine List.nodup_cons.mpr ⟨fun hmem => hfree ?_, h.apart ids hfst⟩
        have hnew : (s.add name loc).nameOf s.bindings.size = some name := by
          unfold nameOf
          rw [hget, if_pos rfl, ← hname]
          rfl
        rw [hnew] at hmem
        obtain ⟨i, hi, hiname⟩ := List.mem_map.mp hmem
        obtain ⟨b, hb, hb'⟩ := h.level 0 ids (by rw [hlayers]; rfl) i hi
        have hvis : i ∈ s.visible :=
          s.flatten_layers ▸ List.mem_flatten.mpr ⟨ids, hfst, hi⟩
        have hbname : b.name = name := by
          unfold nameOf at hiname
          rw [hb] at hiname
          exact Option.some.inj hiname
        exact Bool.or_eq_true _ _ ▸
          .inr ((s.lookupAtDepth_isSome name s.depth).mpr ⟨i, hvis, b, hb, hb', hbname⟩)
      · have hids : ids' ∈ s.layers := hlayers ▸ List.mem_cons_of_mem _ hids'
        rw [hnms ids' hids]
        exact h.apart ids' hids
    outermost := by
      intro i b hb hzero
      rw [outer_add]
      rcases hcases i b hb with ⟨rfl, rfl⟩ | hb
      · rw [if_pos (hdep.symm.trans hzero)]
        exact .head _
      · have hmem := h.outermost i b hb hzero
        split
        · exact .tail _ hmem
        · exact hmem
    kind := by
      intro i b hb
      rcases hcases i b hb with ⟨rfl, rfl⟩ | hb
      · rw [hdep]
        exact hglob
      · exact h.kind i b hb
    issued := by
      intro i b n hb hn
      rcases hcases i b hb with ⟨rfl, rfl⟩ | hb'
      · exact (hnew b n hb hn).2
      · exact Nat.lt_of_lt_of_le (h.issued i b n hb' hn) hnext
    ordinal := by
      intro i j b c n hb hc hn hm
      rcases hcases i b hb with ⟨rfl, rfl⟩ | hb' <;> rcases hcases j c hc with ⟨rfl, rfl⟩ | hc'
      · rfl
      · have := h.issued j c n hc' hm
        have := (hnew b n hb hn).1
        omega
      · have := h.issued i b n hb' hn
        have := (hnew c n hc hm).1
        omega
      · exact h.ordinal i j b c n hb' hc' hn hm }

theorem declare_eq_ok (h : s.declare name loc = .ok (i, t)) :
    ¬ s.clashes name = true ∧ i = s.bindings.size ∧ t = s.add name loc := by
  rw [declare_eq] at h
  split at h
  · cases h
  · next hfree =>
    cases h
    exact ⟨hfree, rfl, rfl⟩

theorem Layered.perform (h : s.Layered) (hc : s.perform c = .ok t) : t.Layered := by
  cases c with
  | enter =>
    cases hc
    exact h.enter
  | exit => exact h.exit hc
  | declare name loc =>
    rw [perform_declare] at hc
    cases hc
    split
    · exact h
    · next hfree => exact h.add hfree
  | declareBound name loc =>
    rw [perform_declareBound] at hc
    split at hc
    · exact Except.ok.inj hc ▸ h
    · next hfree => exact (h.add hfree).bind hc
  | bind i => exact h.bind hc
  | declareFunction name loc =>
    rcases s.perform_declareFunction name loc with hperf | hperf
    · exact Except.ok.inj (hperf.symm.trans hc) ▸ h
    · cases hperf.symm.trans hc
      exact { h with }

theorem Layered.run (h : s.Layered) (hrun : s.run cs = .ok t) : t.Layered := by
  induction cs generalizing s with
  | nil => exact Except.ok.inj hrun ▸ h
  | cons c cs ih =>
    obtain ⟨u, hc, hcs⟩ := (run_cons c cs).mp hrun
    exact ih (h.perform hc) hcs

/-! ## What layers say about names -/

/-- A binding in scope, with its number. -/
def Sees (s : Scope) (i : Nat) (b : Binding) : Prop :=
  i ∈ s.visible ∧ s.bindings.get? i = some b

/-- Along the bindings in scope, most recent first, depths do not grow, and two bindings of one depth
differ in their names. -/
theorem Layered.pairwise (h : s.Layered) : s.visible.Pairwise fun i j =>
    ∀ b c, s.bindings.get? i = some b → s.bindings.get? j = some c →
      c.depth ≤ b.depth ∧ ¬ (b.name = c.name ∧ b.depth = c.depth) := by
  rw [← flatten_layers, List.pairwise_flatten]
  constructor
  · -- inside a layer all depths are equal, and the names differ
    intro ids hids
    obtain ⟨k, hk⟩ := List.mem_iff_getElem?.mp hids
    refine (List.pairwise_map.mp (h.apart ids hids)).imp_of_mem fun hi hj hne b c hb hc => ?_
    obtain ⟨b', hb', hbk⟩ := h.level k ids hk _ hi
    obtain ⟨c', hc', hck⟩ := h.level k ids hk _ hj
    cases hb.symm.trans hb'
    cases hc.symm.trans hc'
    refine ⟨by omega, fun heq => hne ?_⟩
    unfold nameOf
    rw [hb, hc]
    exact congrArg some heq.1
  · -- an earlier layer lies strictly deeper
    rw [List.pairwise_iff_getElem]
    intro k l hk hl hkl i hi j hj b c hb hc
    obtain ⟨b', hb', hbk⟩ := h.level k _ (List.getElem?_eq_getElem hk) i hi
    obtain ⟨c', hc', hcl⟩ := h.level l _ (List.getElem?_eq_getElem hl) j hj
    cases hb.symm.trans hb'
    cases hc.symm.trans hc'
    exact ⟨by omega, fun heq => by omega⟩

theorem Layered.exists_of_mem_visible (h : s.Layered) (hi : i ∈ s.visible) :
    ∃ b, s.bindings.get? i = some b ∧ b.depth ≤ s.depth := by
  rw [← flatten_layers] at hi
  obtain ⟨ids, hids, hi⟩ := List.mem_flatten.mp hi
  obtain ⟨k, hk⟩ := List.mem_iff_getElem?.mp hids
  obtain ⟨b, hb, hbk⟩ := h.level k ids hk i hi
  exact ⟨b, hb, by omega⟩

theorem Layered.mem_visible (h : s.Layered) (hb : s.bindings.get? i = some b)
    (hzero : b.depth = 0) : i ∈ s.visible := by
  rw [visible_eq]
  exact List.mem_append_right _ (h.outermost i b hb hzero)

theorem Layered.eq_of_sees {c : Binding} (h : s.Layered) (hb : s.Sees i b) (hc : s.Sees j c)
    (hname : b.name = c.name) (hdep : b.depth = c.depth) : i = j := by
  obtain ⟨k, hk, rfl⟩ := List.mem_iff_getElem.mp hb.1
  obtain ⟨l, hl, rfl⟩ := List.mem_iff_getElem.mp hc.1
  have hapart := List.pairwise_iff_getElem.mp h.pairwise
  rcases Nat.lt_trichotomy k l with hkl | rfl | hlk
  · exact absurd ⟨hname, hdep⟩ (hapart k l hk hl hkl b c hb.2 hc.2).2
  · rfl
  · exact absurd ⟨hname.symm, hdep.symm⟩ (hapart l k hl hk hlk c b hc.2 hb.2).2

theorem names?_iff : s.names? name i = true ↔
    ∃ b, s.bindings.get? i = some b ∧ b.bound = true ∧ b.name = name := by
  unfold names?
  cases s.bindings.get? i <;> simp

theorem Layered.resolve_eq_ok_iff (h : s.Layered) : s.resolve name loc = .ok i ↔
    ∃ b, s.Sees i b ∧ b.bound = true ∧ b.name = name ∧
      ∀ j c, s.Sees j c → c.bound = true → c.name = name → c.depth ≤ b.depth := by
  -- visible bindings are sorted by depth, so that the first match is the deepest one
  have hdeepest : ∀ i, s.visible.find? (s.names? name) = some i →
      ∃ b, s.Sees i b ∧ b.bound = true ∧ b.name = name ∧
        ∀ j c, s.Sees j c → c.bound = true → c.name = name → c.depth ≤ b.depth := by
    intro i hi
    obtain ⟨hnms, before, after, hsplit, hbef⟩ := List.find?_eq_some_iff_append.mp hi
    obtain ⟨b, hb, hbnd, hname⟩ := names?_iff.mp hnms
    refine ⟨b, ⟨List.mem_of_find?_eq_some hi, hb⟩, hbnd, hname, fun j c hc hcbound hcname => ?_⟩
    have hj := names?_iff.mpr ⟨c, hc.2, hcbound, hcname⟩
    have hmem := hc.1
    rw [hsplit] at hmem
    rcases List.mem_append.mp hmem with hmem | hmem
    · exact absurd (hbef j hmem) (by simp [hj])
    · rcases List.mem_cons.mp hmem with rfl | hmem
      · exact Nat.le_of_eq (congrArg Binding.depth (Option.some.inj (hc.2.symm.trans hb)))
      · have hpairs := h.pairwise
        rw [hsplit, List.pairwise_append, List.pairwise_cons] at hpairs
        exact (hpairs.2.1.1 j hmem b c hb hc.2).1
  rw [resolve_eq]
  constructor
  · intro hres
    split at hres
    · next hfind => exact Except.ok.inj hres ▸ hdeepest _ hfind
    · cases hres
  · rintro ⟨b, hb, hbnd, hname, hmax⟩
    cases hfind : s.visible.find? (s.names? name) with
    | none =>
      exact absurd (names?_iff.mpr ⟨b, hb.2, hbnd, hname⟩) (List.find?_eq_none.mp hfind i hb.1)
    | some j =>
      obtain ⟨c, hc, hcbound, hcname, hcmax⟩ := hdeepest j hfind
      have hdep : c.depth = b.depth :=
        Nat.le_antisymm (hmax j c hc hcbound hcname) (hcmax i b hb hbnd hname)
      exact congrArg Except.ok (h.eq_of_sees hc hb (hcname.trans hname.symm) hdep)

theorem resolve_eq_error_iff : s.resolve name loc = .error d ↔
    d = .of loc (.undeclared name) ∧ ¬ ∃ i b, s.Sees i b ∧ b.bound = true ∧ b.name = name := by
  rw [resolve_eq]
  cases hfind : s.visible.find? (s.names? name) with
  | none =>
    refine ⟨fun h => ⟨(Except.error.inj h).symm, ?_⟩, fun h => h.1 ▸ rfl⟩
    rintro ⟨i, b, ⟨hi, hb⟩, h⟩
    exact List.find?_eq_none.mp hfind i hi (names?_iff.mpr ⟨b, hb, h⟩)
  | some i =>
    refine ⟨nofun, fun h => absurd ?_ h.2⟩
    obtain ⟨b, hb, h⟩ := names?_iff.mp (List.find?_some hfind)
    exact ⟨i, b, ⟨List.mem_of_find?_eq_some hfind, hb⟩, h⟩

theorem hasFunction_iff : s.hasFunction name = true ↔ name ∈ s.functions.map Prod.fst := by
  simp [hasFunction]

/-- A name is taken by a binding of the innermost scope or, outside every scope, by a function. -/
theorem clashes_iff : s.clashes name = true ↔
    (∃ i b, s.Sees i b ∧ b.name = name ∧ b.depth = s.depth) ∨
      s.depth = 0 ∧ name ∈ s.functions.map Prod.fst := by
  unfold clashes Sees
  rw [Bool.or_eq_true, Bool.and_eq_true, beq_iff_eq, hasFunction_iff, lookupAtDepth_isSome]
  constructor
  · rintro (h | ⟨i, hi, b, hb, hdep, hname⟩)
    · exact .inr h
    · exact .inl ⟨i, b, ⟨hi, hb⟩, hname, hdep⟩
  · rintro (⟨i, b, ⟨hi, hb⟩, hname, hdep⟩ | h)
    · exact .inr ⟨i, hi, b, hb, hdep, hname⟩
    · exact .inl h

theorem Layered.declareFunction_eq_error_iff (h : s.Layered) :
    s.declareFunction name loc = .error d ↔ d = .of loc (.redeclared name .function) ∧
      (name ∈ s.functions.map Prod.fst ∨
        ∃ i b, s.bindings.get? i = some b ∧ b.name = name ∧ b.depth = 0) := by
  have htaken : (s.hasFunction name || (s.lookupAtDepth name 0).isSome) = true ↔
      (name ∈ s.functions.map Prod.fst ∨
        ∃ i b, s.bindings.get? i = some b ∧ b.name = name ∧ b.depth = 0) := by
    rw [Bool.or_eq_true, hasFunction_iff, lookupAtDepth_isSome]
    refine or_congr_right ⟨?_, ?_⟩
    · rintro ⟨i, -, b, hb, hdep, hname⟩
      exact ⟨i, b, hb, hname, hdep⟩
    · rintro ⟨i, b, hb, hname, hdep⟩
      exact ⟨i, h.mem_visible hb hdep, b, hb, hdep, hname⟩
  rw [← htaken, declareFunction_eq]
  split
  · next htrue => exact ⟨fun h => ⟨(Except.error.inj h).symm, htrue⟩, fun h => h.1 ▸ rfl⟩
  · next hfalse => exact ⟨fun h => (by cases h), fun h => absurd h.2 hfalse⟩

theorem Layered.eq_of_symbol {c : Binding} (h : s.Layered) (hb : s.bindings.get? i = some b)
    (hc : s.bindings.get? j = some c) (hglob : b.isGlobal = true) (hglobal' : c.isGlobal = true)
    (hsym : b.symbol = c.symbol) : i = j := by
  have hbzero := (h.kind i b hb).mp hglob
  have hczero := (h.kind j c hc).mp hglobal'
  -- the symbol of a global is its name behind a fixed text
  have hname : b.name = c.name := by
    unfold Binding.isGlobal at hglob hglobal'
    unfold Binding.symbol at hsym
    split at hglob
    · split at hglobal'
      · next hs _ _ hs' =>
        rw [hs, hs'] at hsym
        exact (String.append_right_inj _).mp hsym
      · cases hglobal'
    · cases hglob
  exact h.eq_of_sees ⟨h.mem_visible hb hbzero, hb⟩ ⟨h.mem_visible hc hczero, hc⟩ hname
    (hbzero.trans hczero.symm)

/-! ## Scopes that are closed again -/

/-- Commands that close every scope they open, and no other. -/
inductive Balanced : List Command → Prop
  | nil : Balanced []
  | cons {c : Command} {cs : List Command} (hc : c ≠ .enter ∧ c ≠ .exit) (hcs : Balanced cs) :
      Balanced (c :: cs)
  | block {body cs : List Command} (hbody : Balanced body) (hcs : Balanced cs) :
      Balanced (.enter :: body ++ .exit :: cs)

/-- What work inside a scope leaves of the scopes around it: all their bindings, where some variables
may have been bound. -/
structure Shelters (marked : Nat → Prop) (s t : Scope) : Prop where
  depth : t.depth = s.depth
  inner : t.inner.tail = s.inner.tail
  outer : t.outer = s.outer
  bindings : ∀ i b, s.bindings.get? i = some b → t.bindings.get? i = some b ∨
    marked i ∧ t.bindings.get? i = some { b with bound := true }

variable {marked : Nat → Prop}

theorem Shelters.refl (s : Scope) : Shelters marked s s :=
  ⟨rfl, rfl, rfl, fun _ _ hb => .inl hb⟩

theorem Shelters.trans (hst : Shelters marked s t) (htu : Shelters marked t u) :
    Shelters marked s u where
  depth := htu.depth.trans hst.depth
  inner := htu.inner.trans hst.inner
  outer := htu.outer.trans hst.outer
  bindings := by
    intro i b hb
    rcases hst.bindings i b hb with hb | ⟨hi, hb⟩
    · exact htu.bindings i b hb
    · rcases htu.bindings i _ hb with hb | ⟨-, hb⟩
      · exact .inr ⟨hi, hb⟩
      · exact .inr ⟨hi, hb⟩

theorem Shelters.bind (hi : marked i) (hbind : s.bind i = .ok t) : Shelters marked s t := by
  obtain ⟨b0, hb0, ht, hget⟩ := bind_eq_ok hbind
  refine ⟨by rw [ht], by rw [ht]; rfl, by rw [ht]; rfl, fun j b hb => ?_⟩
  rw [hget]
  split
  · next hji =>
    subst hji
    cases hb0.symm.trans hb
    exact .inr ⟨hi, rfl⟩
  · exact .inl hb

theorem Shelters.add (hpos : 0 < s.depth) : Shelters marked s (s.add name loc) where
  depth := s.depth_add name loc
  inner := by
    obtain ⟨ids, scopes, hinn⟩ := exists_inner_of_pos hpos
    rw [(s.add_of_cons name loc hinn).1, hinn]
    rfl
  outer := by rw [outer_add, if_neg (Nat.ne_of_gt hpos)]
  bindings := fun i _ hb => .inl ((s.get?_add name loc i (lt_size hb)).trans hb)

theorem Shelters.add_bind (hpos : 0 < s.depth)
    (hbind : (s.add name loc).bind s.bindings.size = .ok t) : Shelters marked s t := by
  have hadd : Shelters (fun i => i = s.bindings.size) s (s.add name loc) := .add hpos
  have hall := hadd.trans (.bind rfl hbind)
  refine { hall with bindings := fun i b hb => ?_ }
  rcases hall.bindings i b hb with hb' | ⟨rfl, -⟩
  · exact .inl hb'
  · exact absurd (lt_size hb) (Nat.lt_irrefl _)

theorem Shelters.perform (hpos : 0 < s.depth) (hplain : c ≠ .enter ∧ c ≠ .exit)
    (hmarked : ∀ i, c = .bind i → marked i) (hc : s.perform c = .ok t) : Shelters marked s t := by
  cases c with
  | enter => exact absurd rfl hplain.1
  | exit => exact absurd rfl hplain.2
  | declare name loc =>
    rw [perform_declare] at hc
    cases hc
    split
    · exact .refl s
    · exact .add hpos
  | declareBound name loc =>
    rw [perform_declareBound] at hc
    split at hc
    · exact Except.ok.inj hc ▸ .refl s
    · exact .add_bind hpos hc
  | bind i => exact .bind (hmarked i rfl) hc
  | declareFunction name loc =>
    rcases s.perform_declareFunction name loc with hperf | hperf
    · exact Except.ok.inj (hperf.symm.trans hc) ▸ .refl s
    · cases hperf.symm.trans hc
      exact ⟨rfl, rfl, rfl, fun _ _ hb => .inl hb⟩

theorem Shelters.exit (h : Shelters marked s.enter t) (hexit : t.exit = .ok u) :
    Shelters marked s u ∧ u.inner = s.inner := by
  obtain ⟨⟨ids, hinn⟩, houter, hbinds, -⟩ := exit_eq_ok hexit
  -- only the layer of the closed scope itself may have grown
  have heq : u.inner = s.inner := by
    have htail := h.inner
    rwa [hinn, inner_enter] at htail
  refine ⟨⟨?_, congrArg List.tail heq, ?_, ?_⟩, heq⟩
  · rw [← length_inner, heq, length_inner]
  · rw [houter, h.outer, outer_enter]
  · rw [hbinds]
    exact h.bindings

theorem Balanced.shelters (h : Balanced cs) (hpos : 0 < s.depth)
    (hmarked : ∀ i, .bind i ∈ cs → marked i) (hrun : s.run cs = .ok t) : Shelters marked s t := by
  induction h generalizing s t with
  | nil => exact Except.ok.inj hrun ▸ .refl s
  | cons hc _ ih =>
    obtain ⟨u, hperf, hrest⟩ := (run_cons _ _).mp hrun
    have hfst : Shelters marked s u :=
      .perform hpos hc (fun i hi => hmarked i (hi ▸ List.mem_cons_self)) hperf
    exact hfst.trans (ih (hfst.depth ▸ hpos)
      (fun i hi => hmarked i (.tail _ hi)) hrest)
  | @block body cs _ _ ihbody ihrest =>
    obtain ⟨u, hbody, hrest⟩ := (run_append (.enter :: body) (.exit :: cs)).mp hrun
    obtain ⟨_, henter, hbody⟩ := (run_cons _ _).mp hbody
    cases henter
    -- the scope of the block is closed before the commands go on
    obtain ⟨v, hexit, hrest⟩ := (run_cons _ _).mp hrest
    have hin : Shelters marked s.enter u := ihbody (Nat.succ_pos _)
      (fun i hi => hmarked i (List.mem_append_left _ (.tail _ hi))) hbody
    have hblk := (hin.exit hexit).1
    exact hblk.trans (ihrest (hblk.depth ▸ hpos)
      (fun i hi => hmarked i (List.mem_append_right _ (.tail _ hi))) hrest)

/-- A scope that is opened and closed again, inside of which no variable from outside is bound that
was not, changes no name. -/
theorem Balanced.resolve_eq {body : List Command} (h : Balanced body) (hs : s.Layered)
    (hpend : ∀ i b, .bind i ∈ body → s.Sees i b → b.bound = true)
    (hrun : s.run (.enter :: body ++ [.exit]) = .ok t) (name : String) (loc : Location) :
    t.resolve name loc = s.resolve name loc := by
  obtain ⟨u, hbody, hlast⟩ := (run_append (.enter :: body) [.exit]).mp hrun
  obtain ⟨_, henter, hbody⟩ := (run_cons _ _).mp hbody
  cases henter
  obtain ⟨v, hexit, hdone⟩ := (run_cons _ _).mp hlast
  obtain rfl : v = t := Except.ok.inj hdone
  have hin : Shelters (fun i => .bind i ∈ body) s.enter u :=
    h.shelters (Nat.succ_pos _) (fun _ hi => hi) hbody
  obtain ⟨hblk, hinn⟩ := hin.exit hexit
  have hvis : v.visible = s.visible := by rw [visible_eq, hinn, hblk.outer, visible_eq]
  -- and what is in scope answers to the same names
  have hnms : ∀ i ∈ s.visible, v.names? name i = s.names? name i := by
    intro i hi
    obtain ⟨b, hb, -⟩ := hs.exists_of_mem_visible hi
    unfold names?
    rcases hblk.bindings i b hb with hb' | ⟨hbind, hb'⟩
    · rw [hb, hb']
    · -- the variable was bound before
      rw [hb, hb', Option.any_some, Option.any_some, hpend i b hbind ⟨hi, hb⟩]
  rw [Scope.resolve_eq, Scope.resolve_eq, hvis, List.find?_congr hnms]

/-! ## The rules of resolution -/

/-- The rules by which scopes answer. -/
structure Lexical (s : Scope) : Prop where
  /-- Depths do not fall from an older binding in scope to a newer one, and no two bindings in scope
  share both their name and their depth. -/
  ordered : s.visible.reverse.Pairwise fun i j => ∃ b c, s.bindings.get? i = some b ∧
    s.bindings.get? j = some c ∧ b.depth ≤ c.depth ∧ ¬ (b.name = c.name ∧ b.depth = c.depth)
  /-- The one stack of bindings in scope is that of the open scopes, each on the one around it. -/
  nested : s.layers.flatten = s.visible ∧ s.layers.length = s.depth + 1
  bounded : ∀ i ∈ s.visible, ∃ b, s.bindings.get? i = some b ∧ b.depth ≤ s.depth
  /-- A use means the bound binding of its name with the greatest depth. -/
  resolved : ∀ name loc i, s.resolve name loc = .ok i ↔
    ∃ b, s.Sees i b ∧ b.bound = true ∧ b.name = name ∧
      ∀ j c, s.Sees j c → c.bound = true → c.name = name → c.depth ≤ b.depth
  undeclared : ∀ name loc d, s.resolve name loc = .error d ↔
    d = .of loc (.undeclared name) ∧ ¬ ∃ i b, s.Sees i b ∧ b.bound = true ∧ b.name = name
  /-- A scope that is opened is empty and lies on those that are open. -/
  entered : s.enter.layers = [] :: s.layers ∧ s.enter.depth = s.depth + 1 ∧
    s.enter.bindings = s.bindings ∧ s.enter.functions = s.functions
  /-- A scope that is closed takes along exactly the bindings of the greatest depth. -/
  exited : ∀ t, s.exit = .ok t → (∃ ids, s.layers = ids :: t.layers) ∧ s.depth = t.depth + 1 ∧
    t.bindings = s.bindings ∧ t.functions = s.functions ∧
    ∀ i b, t.Sees i b ↔ s.Sees i b ∧ b.depth < s.depth
  /-- Binding a variable marks its entry and changes nothing else. -/
  bound : ∀ i t, s.bind i = .ok t → t.layers = s.layers ∧ t.depth = s.depth ∧
    t.functions = s.functions ∧ ∃ b, s.bindings.get? i = some b ∧
      ∀ j, t.bindings.get? j = if j = i then some { b with bound := true } else s.bindings.get? j
  /-- A variable is refused where its name is taken, bound or not. Otherwise it gets a new entry and
  lies in the innermost scope, pending. -/
  refused : ∀ name loc d, s.declare name loc = .error d ↔ d = .of loc (.redeclared name .var) ∧
    ((∃ i b, s.Sees i b ∧ b.name = name ∧ b.depth = s.depth) ∨
      s.depth = 0 ∧ name ∈ s.functions.map Prod.fst)
  declared : ∀ name loc i t, s.declare name loc = .ok (i, t) →
    i = s.bindings.size ∧ t.depth = s.depth ∧ t.functions = s.functions ∧
    (∃ ids rest, s.layers = ids :: rest ∧ t.layers = (i :: ids) :: rest) ∧
    (∃ b, t.Sees i b ∧ b.name = name ∧ b.depth = s.depth ∧ b.bound = false) ∧
    ∀ j, j ≠ i → t.bindings.get? j = s.bindings.get? j
  /-- A function is refused if a function or a variable outside every scope has its name. -/
  refusedFunction : ∀ name loc d, s.declareFunction name loc = .error d ↔
    d = .of loc (.redeclared name .function) ∧ (name ∈ s.functions.map Prod.fst ∨
      ∃ i b, s.bindings.get? i = some b ∧ b.name = name ∧ b.depth = 0)
  declaredFunction : ∀ name loc t, s.declareFunction name loc = .ok t →
    t = { s with functions := (name, loc) :: s.functions }
  /-- What is refused leaves the scopes as they are. -/
  unchanged : ∀ name loc d t, ((declaring name loc).run s = .error d t → t = s ∧
      s.perform (.declare name loc) = .ok s ∧ s.perform (.declareBound name loc) = .ok s) ∧
    ((declaringFunction name loc).run s = .error d t → t = s ∧
      s.perform (.declareFunction name loc) = .ok s)
  /-- A scope that is closed again changes no name, unless it binds a variable from outside. -/
  balanced : ∀ body t, Balanced body → s.run (.enter :: body ++ [.exit]) = .ok t →
    (∀ i b, .bind i ∈ body → s.Sees i b → b.bound = true) →
    ∀ name loc, t.resolve name loc = s.resolve name loc
  /-- Ordinals and storage names are handed out once. -/
  ordinals : ∀ i j b c n, s.bindings.get? i = some b → s.bindings.get? j = some c →
    b.storage = .local n → c.storage = .local n → i = j
  symbols : ∀ i j b c, s.bindings.get? i = some b → s.bindings.get? j = some c →
    b.isGlobal = true → c.isGlobal = true → b.symbol = c.symbol → i = j
  /-- Any command can follow that closes no scope too many and binds what was declared. -/
  permitted : ∀ c, (∃ t, s.perform c = .ok t) ↔ c.Permitted s

theorem declare_eq_error_iff : s.declare name loc = .error d ↔
    d = .of loc (.redeclared name .var) ∧ s.clashes name = true := by
  rw [declare_eq]
  split
  · next htaken => exact ⟨fun h => ⟨(Except.error.inj h).symm, htaken⟩, fun h => h.1 ▸ rfl⟩
  · next hfree => exact ⟨nofun, fun h => absurd h.2 hfree⟩

theorem get?_add_of_ne (s : Scope) (name : String) (loc : Location) (j : Nat)
    (hj : j ≠ s.bindings.size) : (s.add name loc).bindings.get? j = s.bindings.get? j :=
  (Table.get?_push ..).trans (if_neg hj)

theorem unchanged_of_refused (h : (declaring name loc).run s = .error d t) : t = s ∧
    s.perform (.declare name loc) = .ok s ∧ s.perform (.declareBound name loc) = .ok s := by
  rw [perform_declare, perform_declareBound]
  rw [declaring_eq] at h
  split at h
  · next hclash =>
    cases h
    simp [hclash]
  · cases h

theorem unchanged_of_refusedFunction (h : (declaringFunction name loc).run s = .error d t) : t = s ∧
    s.perform (.declareFunction name loc) = .ok s := by
  have hperf : s.perform (.declareFunction name loc) = .ok t := by
    simp only [perform, h]
    rfl
  rw [declaringFunction_eq] at h
  split at h
  · cases h
    exact ⟨rfl, hperf⟩
  · cases h

theorem Layered.exited (h : s.Layered) (hexit : s.exit = .ok t) :
    (∃ ids, s.layers = ids :: t.layers) ∧ s.depth = t.depth + 1 ∧ t.bindings = s.bindings ∧
      t.functions = s.functions ∧ ∀ i b, t.Sees i b ↔ s.Sees i b ∧ b.depth < s.depth := by
  obtain ⟨ids, hlayers⟩ := layers_exit hexit
  obtain ⟨-, -, hbinds, -, -, hfunctions⟩ := exit_eq_ok hexit
  have hdep := depth_exit hexit
  have hvis : s.visible = ids ++ t.visible := by
    rw [← flatten_layers, hlayers, List.flatten_cons, flatten_layers]
  refine ⟨⟨ids, hlayers⟩, hdep, hbinds, hfunctions, fun i b => ?_⟩
  constructor
  · rintro ⟨hi, hb⟩
    obtain ⟨b', hb', hle⟩ := (h.exit hexit).exists_of_mem_visible hi
    cases hb.symm.trans hb'
    exact ⟨⟨hvis ▸ List.mem_append_right _ hi, hbinds ▸ hb⟩, by omega⟩
  · rintro ⟨⟨hi, hb⟩, hlt⟩
    rw [hvis] at hi
    rcases List.mem_append.mp hi with hi | hi
    · -- a binding of the scope itself lies at the full depth
      obtain ⟨b', hb', hfull⟩ := h.level 0 ids (by rw [hlayers]; rfl) i hi
      cases hb.symm.trans hb'
      omega
    · exact ⟨hi, hbinds ▸ hb⟩

theorem sees_add (s : Scope) (name : String) (loc : Location) :
    ∃ b, (s.add name loc).Sees s.bindings.size b ∧ b.name = name ∧ b.depth = s.depth ∧
      b.bound = false := by
  obtain ⟨b, hpush, hname, hdep, hbnd, -⟩ := s.exists_add name loc
  refine ⟨b, ⟨?_, ?_⟩, hname, hdep, hbnd⟩
  · rw [visible_add]
    exact .head _
  · rw [hpush, Table.get?_push, if_pos rfl]

theorem Layered.ordered (h : s.Layered) :
    s.visible.reverse.Pairwise fun i j => ∃ b c, s.bindings.get? i = some b ∧
      s.bindings.get? j = some c ∧ b.depth ≤ c.depth ∧ ¬ (b.name = c.name ∧ b.depth = c.depth) := by
  rw [List.pairwise_reverse]
  refine h.pairwise.imp_of_mem fun hi hj hpair => ?_
  obtain ⟨b, hb, -⟩ := h.exists_of_mem_visible hi
  obtain ⟨c, hc, -⟩ := h.exists_of_mem_visible hj
  obtain ⟨hle, hne⟩ := hpair b c hb hc
  exact ⟨c, b, hc, hb, hle, fun heq => hne ⟨heq.1.symm, heq.2.symm⟩⟩

/-- **Names are resolved lexically**, after every sequence of commands. -/
theorem resolution_of_commands {cs : List Command} (hrun : Scope.run {} cs = .ok s) : s.Lexical := by
  have h : s.Layered := Layered.empty.run hrun
  -- every rule follows from the layers alone
  exact {
    ordered := h.ordered
    nested := ⟨s.flatten_layers, s.length_layers⟩
    bounded := fun i hi => h.exists_of_mem_visible hi
    resolved := fun name loc i => h.resolve_eq_ok_iff
    undeclared := fun name loc d => resolve_eq_error_iff
    entered := ⟨s.layers_enter, rfl, rfl, rfl⟩
    exited := fun t ht => h.exited ht
    bound := by
      intro i t ht
      obtain ⟨b, hb, heq, hget⟩ := bind_eq_ok ht
      exact ⟨layers_bind ht, by rw [heq], by rw [heq], b, hb, hget⟩
    refused := fun name loc d => by rw [declare_eq_error_iff, clashes_iff]
    declared := by
      intro name loc i t hdecl
      obtain ⟨-, rfl, rfl⟩ := declare_eq_ok hdecl
      exact ⟨rfl, rfl, rfl, s.layers_add name loc, s.sees_add name loc, s.get?_add_of_ne name loc⟩
    refusedFunction := fun name loc d => h.declareFunction_eq_error_iff
    declaredFunction := by
      intro name loc t hdecl
      rw [declareFunction_eq] at hdecl
      split at hdecl
      · cases hdecl
      · exact (Except.ok.inj hdecl).symm
    unchanged := fun name loc d t => ⟨unchanged_of_refused, unchanged_of_refusedFunction⟩
    balanced := fun body t hbody ht hpend => hbody.resolve_eq h hpend ht
    ordinals := h.ordinal
    symbols := fun i j b c hb hc => h.eq_of_symbol hb hc
    permitted := s.exists_perform_iff }

/-- A global `x`, a function, and two scopes in which `x` is declared again, once left pending. -/
def sampleCommands : List Command :=
  [.declareBound "x" default, .declareFunction "f" default, .enter, .declareBound "x" default, .enter,
    .declare "x" default, .declareFunction "x" default]

theorem resolution_of_sample : ∃ s, Scope.run {} sampleCommands = .ok s ∧ s.Lexical := by
  have hsome : (Scope.run {} sampleCommands).toOption.isSome = true := by decide +kernel
  cases hrun : Scope.run {} sampleCommands with
  | error f =>
    rw [hrun] at hsome
    cases hsome
  | ok s => exact ⟨s, rfl, resolution_of_commands hrun⟩

end Ember.Scope
