import Ember.Proofs.Ir.Drafting
import Ember.Proofs.Lowering.Scopes

/-!
# Ember — sessions that fit a certificate

While a program is compiled, the function that is being written fits a certificate, the finished ones
have theirs, and the variables that can be named have registered storage.

Main result: `advances_declareVariable`.
-/

namespace Ember

open Ir (Draft Drafting EntryPoint Callee Typed Operand Ty Convention Cert Role Interface)

variable {d : Draft} {e : EntryPoint} {ρs : List Role} {arguments : List Typed} {id r : Nat}
  {o : Operand} {scope scope' : Scope}

/-- A session in which every function fits a certificate. A variable can be named only once it has
storage, and none but the main function makes storage of the whole program. -/
structure Session.Sound (I : Interface) (k : Convention) (c : Cert) (s : Session) : Prop where
  draft : s.body.draft.Sound I s.globals k s.body.draft.tryDepth c
  kind : s.body.kind = .program ↔ k = .main
  slots : ∀ p ∈ s.body.slots, c.HasRole p.2 .slot
  receiver : ∀ r, s.body.receiver = some r → c.HasRole r .value ∧ r ∈ c.inputs
  scope : ∀ i b, s.scope.bindings.get? i = some b → b.bound = true → b.isGlobal = true →
    b.symbol ∈ s.globals
  inner : k ≠ .main → s.scope.inner ≠ []
  finished : ∀ f ∈ s.finished, ∃ k' c', k' ≠ .main ∧ f.Certified I s.globals k' c'
  texts : s.pool.texts.size = I.texts
  calls : ∀ f ∈ s.functions.infos, (f.name, f.arity) ∈ I.functions

/-- Two sessions that differ in the draft only. -/
def Session.Same (s s' : Session) : Prop :=
  ∃ draft, s' = { s with body := { s.body with draft } }

/-- What later sessions keep of a session. -/
structure Session.Follows (k : Convention) (c : Cert) (s : Session) (c' : Cert)
    (s' : Session) : Prop extends Draft.Follows c s.body.draft c' s'.body.draft where
  inner : s'.scope.inner.length = s.scope.inner.length
  finished : s.finished <+: s'.finished
  globals : s.globals <+: s'.globals
  definition : k ≠ .main → s'.globals = s.globals ∧ s'.finished = s.finished

namespace Session

variable {I : Interface} {k : Convention} {c c' c'' : Cert} {s s' s'' : Session}

theorem Same.refl (s : Session) : s.Same s :=
  ⟨_, rfl⟩

theorem Same.trans (h1 : s.Same s') (h2 : s'.Same s'') : s.Same s'' := by
  obtain ⟨d1, rfl⟩ := h1
  obtain ⟨d2, rfl⟩ := h2
  exact ⟨d2, rfl⟩

theorem Follows.of_le (k : Convention) (s : Session) (hle : c ≤ c') : Follows k c s c' s :=
  ⟨⟨hle, rfl, rfl, rfl, fun _ => List.suffix_refl _⟩, rfl, List.prefix_refl _, List.prefix_refl _,
    fun _ => ⟨rfl, rfl⟩⟩

theorem Follows.refl (k : Convention) (c : Cert) (s : Session) : Follows k c s c s :=
  .of_le k s (le_refl c)

theorem Follows.trans (h1 : Follows k c s c' s') (h2 : Follows k c' s' c'' s'') :
    Follows k c s c'' s'' :=
  ⟨h1.toFollows.trans h2.toFollows, h2.inner.trans h1.inner, h1.finished.trans h2.finished,
    h1.globals.trans h2.globals, fun hk => ⟨(h2.definition hk).1.trans (h1.definition hk).1,
      (h2.definition hk).2.trans (h1.definition hk).2⟩⟩

theorem Sound.withDraft (hs : s.Sound I k c) (hle : c ≤ c')
    (hd : d.Sound I s.globals k d.tryDepth c') :
    Sound I k c' { s with body := { s.body with draft := d } } where
  draft := hd
  kind := hs.kind
  slots p hp := (hs.slots p hp).mono hle
  receiver r hr := ⟨(hs.receiver r hr).1.mono hle, hle.2.2.1.subset (hs.receiver r hr).2⟩
  scope := hs.scope
  inner := hs.inner
  finished := hs.finished
  texts := hs.texts
  calls := hs.calls

theorem Follows.of_same (h : s.Same s') (hf : Draft.Follows c s.body.draft c' s'.body.draft) :
    Follows k c s c' s' := by
  obtain ⟨d, rfl⟩ := h
  exact ⟨hf, rfl, List.prefix_refl _, List.prefix_refl _, fun _ => ⟨rfl, rfl⟩⟩

end Session

namespace Lowering

variable {I : Interface} {k : Convention} {c c' : Cert} {s s' : Session} {α β : Type}

/-- Steps that write to the current block and change nothing else. -/
def Emits (I : Interface) (k : Convention) (c : Cert) (s : Session) (x : Lowering α)
    (Q : α → Cert → Draft → Prop) : Prop :=
  Yields x s fun a s' => ∃ c', s'.Sound I k c' ∧
    Draft.Continues c s.body.draft [] c' s'.body.draft ∧ s.Same s' ∧ Q a c' s'.body.draft

/-- Steps whose register holds what its role asks for. -/
abbrev Makes (I : Interface) (k : Convention) (c : Cert) (s : Session) (x : Lowering Nat)
    (ρ : Ir.Role) : Prop :=
  Emits I k c s x fun r c' d' => d'.Holds c' r ρ

/-- Steps of a compilation. -/
def Advances (I : Interface) (k : Convention) (c : Cert) (s : Session) (x : Lowering α)
    (Q : α → Cert → Session → Prop) : Prop :=
  Yields x s fun a s' => ∃ c', s'.Sound I k c' ∧ Session.Follows k c s c' s' ∧ Q a c' s'

namespace Emits

variable {x : Lowering α} {f : α → Lowering β} {P R : α → Cert → Draft → Prop}
  {Q : β → Cert → Draft → Prop}

theorem mono (hx : Emits I k c s x P) (hP : ∀ a c' d', P a c' d' → R a c' d') : Emits I k c s x R :=
  Yields.mono hx fun a _ ⟨c', hs', hd, hsame, ha⟩ => ⟨c', hs', hd, hsame, hP a c' _ ha⟩

theorem pure (hs : s.Sound I k c) {a : α} (ha : P a c s.body.draft) :
    Emits I k c s (Pure.pure a) P :=
  Yields.pure ⟨c, hs, .refl c _, .refl s, ha⟩

theorem throw {e : Rejection} : Emits I k c s (MonadExcept.throw e) P :=
  Yields.throw

theorem bind (hx : Emits I k c s x R)
    (hf : ∀ a c' s', s'.Sound I k c' → Draft.Continues c s.body.draft [] c' s'.body.draft →
      R a c' s'.body.draft → Emits I k c' s' (f a) Q) : Emits I k c s (x >>= f) Q := by
  refine Yields.bind hx ?_
  rintro a s' ⟨c', hs', hd, hsame, ha⟩
  refine Yields.mono (hf a c' s' hs' hd ha) ?_
  rintro b s'' ⟨c'', hs'', hd', hsame', hb⟩
  exact ⟨c'', hs'', hd.trans hd', hsame.trans hsame', hb⟩

theorem advances (hx : Emits I k c s x P) :
    Advances I k c s x fun a c' s' =>
      Draft.Continues c s.body.draft [] c' s'.body.draft ∧ P a c' s'.body.draft :=
  Yields.mono hx fun _ _ ⟨c', hs', hd, hsame, ha⟩ =>
    ⟨c', hs', .of_same hsame hd.toFollows, hd, ha⟩

theorem read {p : α → Prop} (hx : Yields x s fun a s' => s = s' ∧ p a)
    (hf : ∀ a, p a → Emits I k c s (f a) Q) : Emits I k c s (x >>= f) Q := by
  refine Yields.bind hx ?_
  rintro a _ ⟨rfl, ha⟩
  exact hf a ha

end Emits

namespace Advances

variable {x : Lowering α} {f : α → Lowering β} {P R : α → Cert → Session → Prop}
  {Q : β → Cert → Session → Prop}

theorem mono' (hx : Advances I k c s x P)
    (hP : ∀ a c' s', Session.Follows k c s c' s' → P a c' s' → R a c' s') :
    Advances I k c s x R :=
  Yields.mono hx fun a s' ⟨c', hs', hf, ha⟩ => ⟨c', hs', hf, hP a c' s' hf ha⟩

theorem mono (hx : Advances I k c s x P) (hP : ∀ a c' s', P a c' s' → R a c' s') :
    Advances I k c s x R :=
  hx.mono' fun a c' s' _ ha => hP a c' s' ha

theorem pure (hs : s.Sound I k c) {a : α} (ha : P a c s) : Advances I k c s (Pure.pure a) P :=
  Yields.pure ⟨c, hs, .refl k c s, ha⟩

theorem bind (hx : Advances I k c s x R)
    (hf : ∀ a c' s', s'.Sound I k c' → Session.Follows k c s c' s' → R a c' s' →
      Advances I k c' s' (f a) Q) : Advances I k c s (x >>= f) Q := by
  refine Yields.bind hx ?_
  rintro a s' ⟨c', hs', hfollows, ha⟩
  refine Yields.mono (hf a c' s' hs' hfollows ha) ?_
  rintro b s'' ⟨c'', hs'', hfollows', hb⟩
  exact ⟨c'', hs'', hfollows.trans hfollows', hb⟩

theorem read {p : α → Prop} (hx : Yields x s fun a s' => s = s' ∧ p a)
    (hf : ∀ a, p a → Advances I k c s (f a) Q) : Advances I k c s (x >>= f) Q := by
  refine Yields.bind hx ?_
  rintro a _ ⟨rfl, ha⟩
  exact hf a ha

theorem of_le (hx : Advances I k c' s x P) (hle : c ≤ c') : Advances I k c s x P :=
  Yields.mono hx fun _ _ ⟨c'', hs', hf, ha⟩ => ⟨c'', hs', (Session.Follows.of_le k s hle).trans hf, ha⟩

end Advances

theorem yields_drafting {x : Drafting α} {P : α → Draft → Prop} (hx : Yields x s.body.draft P) :
    Yields (drafting x) s fun a s' => s.Same s' ∧ P a s'.body.draft := by
  intro a s' heq
  unfold drafting at heq
  cases hr : x s.body.draft with
  | ok b d =>
    rw [hr] at heq
    cases heq
    exact ⟨⟨d, rfl⟩, hx a d hr⟩
  | error f d =>
    rw [hr] at heq
    cases heq

theorem drafting_bind (x : Drafting α) (f : α → Drafting β) :
    drafting (x >>= f) = drafting x >>= fun a => drafting (f a) := by
  funext s
  simp only [drafting, bind, EStateM.bind]
  cases x s.body.draft <;> rfl

theorem drafting_pure (a : α) : drafting (pure a) = pure a :=
  rfl

theorem emits_writes (hs : s.Sound I k c) {x : Drafting α} {P : α → Cert → Draft → Prop}
    (hx : Yields x s.body.draft fun a d' => ∃ c' l,
      Draft.Writes I s.globals k s.body.draft.tryDepth c s.body.draft l c' d' ∧ P a c' d') :
    Emits I k c s (drafting x) P := by
  refine Yields.mono (yields_drafting hx) ?_
  rintro a _ ⟨⟨d, rfl⟩, c', l, hw, ha⟩
  exact ⟨c', hs.withDraft hw.follows.le (hw.follows.tryDepth ▸ hw.sound), hw.continues, ⟨d, rfl⟩, ha⟩

/-! ## Constants and calls -/

/-- An operand that names a pooled text. -/
def IsText (I : Interface) (t : Typed) : Prop :=
  ∃ id, t = .text id ∧ id < I.texts

theorem IsText.gives {t : Typed} (ht : IsText I t) : d.Gives I c t .text := by
  obtain ⟨id, rfl, hid⟩ := ht
  exact .text hid

theorem yields_constant (hs : s.Sound I k c) (text : String) (loc : Location) :
    Yields (constant text loc) s fun t s' => s = s' ∧ IsText I t := by
  refine .get_bind ?_
  split
  · next id hid =>
    refine .pure ⟨rfl, id, rfl, ?_⟩
    unfold Pool.lookup Pool.find? at hid
    split at hid
    · next i hi =>
      cases hid
      rw [← hs.texts]
      exact (Array.findIdx?_eq_some_iff_findIdx_eq.mp hi).1
    · cases hid
  · exact .throw

theorem yields_site (hs : s.Sound I k c) (loc : Location) :
    Yields (site loc) s fun ts s' => s = s' ∧
      List.Forall₂ (s.body.draft.Gives I c) ts Ir.siteRoles := by
  refine (yields_constant hs loc.file loc).bind ?_
  rintro file _ ⟨rfl, hfile⟩
  exact .pure ⟨rfl, .cons (.int rfl) (.cons hfile.gives .nil)⟩

theorem isCalm_of_signature (he : e.signature? = some ρs) (dest : Option Nat) (ty : Ty)
    (arguments : List Typed) : (Ir.Instr.call dest ty (.entry e) arguments).isCalm := by
  cases e <;> first | rfl | cases he

section

variable (hs : s.Sound I k c) (he : e.signature? = some ρs) (hres : e.result ≠ .void)
  (hgvn : List.Forall₂ (s.body.draft.Gives I c) arguments ρs)

include hs he hres hgvn

theorem emits_call :
    Emits I k c s (invoke e arguments) fun r c' d' =>
      d'.Holds c' r e.result.role ∧ Ir.Assigns d'.trail r := by
  have hcal : (Callee.entry e).result ≠ .void := hres
  refine emits_writes hs ((Draft.yields_callFor hs.draft hcal
    (fun dest => isCalm_of_signature he dest _ _) fun r c' hle hr x hx hstdy _ => ?_).mono
    fun r d' ⟨c', hw, hr⟩ => ⟨c', _, hw, hr, hw.assigns (.head _) rfl⟩)
  exact .ordinary hstdy he (hgvn.imp fun _ _ ht => ht.at hx hle) ⟨hres, hr⟩

theorem emits_invoke : Makes I k c s (invoke e arguments) e.result.role :=
  (emits_call hs he hres hgvn).mono fun _ _ _ h => h.1

end

theorem emits_perform (hs : s.Sound I k c) (he : e.signature? = some ρs)
    (hres : e.result = .void) (hgvn : List.Forall₂ (s.body.draft.Gives I c) arguments ρs) :
    Emits I k c s (perform e arguments) fun _ _ d' =>
      d'.trail = .call none .void (.entry e) arguments :: s.body.draft.trail := by
  have hcal : (Callee.entry e).result = .void := hres
  refine emits_writes hs ((Draft.yields_callVoid hs.draft hcal (isCalm_of_signature he none _ _)
    fun x hx hstdy _ => ?_).mono fun _ d' hw => ⟨c, _, hw, hw.trail⟩)
  have hfits : Ir.Fits I s.globals k c s.body.draft.current x s.body.draft.trail
      (.call none e.result (.entry e) arguments) :=
    .ordinary hstdy he (hgvn.imp fun _ _ ht => ht.at hx (le_refl c)) hres
  rwa [hres] at hfits

section

variable (hs : s.Sound I k c) (loc : Location) (ρs : List Role) (he : e.signature? = some
  (ρs ++ Ir.siteRoles))

include hs he

theorem emits_invokeAt (hres : e.result ≠ .void)
    (hgvn : List.Forall₂ (s.body.draft.Gives I c) arguments ρs) :
    Makes I k c s (invokeAt loc e arguments) e.result.role := by
  refine Emits.read (yields_site hs loc) fun ts hts => ?_
  exact emits_invoke hs he hres (List.rel_append hgvn hts)

theorem emits_performAt (hres : e.result = .void)
    (hgvn : List.Forall₂ (s.body.draft.Gives I c) arguments ρs) :
    Emits I k c s (performAt loc e arguments) fun _ _ d' => ∃ ts,
      d'.trail = .call none .void (.entry e) ts :: s.body.draft.trail := by
  refine Emits.read (yields_site hs loc) fun ts hts => ?_
  have hall : List.Forall₂ (s.body.draft.Gives I c) (arguments ++ ts) (ρs ++ Ir.siteRoles) :=
    List.rel_append hgvn hts
  exact (emits_perform hs he hres hall).mono fun _ _ _ h => ⟨_, h⟩

end

section

variable (hs : s.Sound I k c)

include hs

theorem emits_null : Makes I k c s null .value :=
  emits_invoke hs rfl (by decide) .nil

theorem emits_string (text : String) (loc : Location) : Makes I k c s (string text loc) .value := by
  refine Emits.read (yields_constant hs text loc) fun t ht => ?_
  exact emits_invoke hs rfl (by decide) (.cons ht.gives .nil)

theorem emits_boxInt (hr : s.body.draft.Holds c r (.int .full)) : Makes I k c s (boxInt r) .value :=
  emits_invoke hs rfl (by decide) (.cons hr.gives .nil)

theorem emits_truthy (hr : s.body.draft.Holds c r .value) : Makes I k c s (truthy r) (.int .bit) :=
  emits_invoke hs rfl (by decide) (.cons hr.gives .nil)

theorem emits_operate (loc : Location) (op : Operator) {lhs rhs : Nat}
    (hlhs : s.body.draft.Holds c lhs .value) (hrhs : s.body.draft.Holds c rhs .value) :
    Makes I k c s (operate loc op lhs rhs) .value :=
  emits_invokeAt hs loc [.operator, .value, .value] rfl (by decide)
    (.cons .operator (.cons hlhs.gives (.cons hrhs.gives .nil)))

theorem emits_elementAt (loc : Location) {container position : Nat}
    (hcont : s.body.draft.Holds c container .value)
    (hpos : s.body.draft.Holds c position .value) :
    Makes I k c s (elementAt loc container position) .value :=
  emits_invokeAt hs loc [.value, .value] rfl (by decide)
    (.cons hcont.gives (.cons hpos.gives .nil))

/-- Nothing was left open, and what follows is not reached. -/
structure Ends (c : Cert) (c' : Cert) (s' : Session) : Prop where
  left : s'.body.draft.Left c'
  now : c'.now = c.now
  owed : c'.owed = c.owed

theorem advances_leaves {x : Drafting α} (hx : Yields x s.body.draft fun _ d' => ∃ c',
      Draft.Leaves I s.globals k s.body.draft.tryDepth c s.body.draft c' d') :
    Advances I k c s (drafting x) fun _ c' s' => Ends c c' s' := by
  refine Yields.mono (yields_drafting hx) ?_
  rintro a _ ⟨⟨d, rfl⟩, c', h⟩
  exact ⟨c', hs.withDraft h.follows.le (h.follows.tryDepth ▸ h.sound), .of_same ⟨d, rfl⟩ h.follows,
    h.left, h.now, h.owed⟩

theorem advances_raiseValue (loc : Location) (hr : s.body.draft.Holds c r .value) :
    Advances I k c s (raiseValue loc r) fun _ c' s' => Ends c c' s' := by
  refine (emits_performAt hs loc [.value] rfl rfl (.cons hr.gives .nil)).advances.bind ?_
  rintro _ c1 s1 hs1 - ⟨hd1, ts, htrail⟩
  refine (advances_leaves hs1 (Draft.yields_end hs1.draft (fun _ _ _ _ => .raised htrail) _)).mono ?_
  exact fun _ c2 s2 h => ⟨h.left, h.now.trans hd1.now, h.owed.trans hd1.owed⟩

end

/-! ## Variables -/

theorem yields_check {r : Except Diagnostic α} :
    Yields (check r) s fun a s' => s = s' ∧ r = .ok a := by
  cases r with
  | ok a => exact .pure ⟨rfl, rfl⟩
  | error d => exact .throw

theorem yields_sound {r : Except Fault α} :
    Yields (sound r) s fun a s' => s = s' ∧ r = .ok a := by
  cases r with
  | ok a => exact .pure ⟨rfl, rfl⟩
  | error d => exact .throw

theorem get?_of_get {t : Table α} {i : Nat} {a : α} (h : t.get i = .ok a) : t.get? i = some a := by
  unfold Table.get at h
  split at h
  · next b hb => exact hb.trans (congrArg some (Except.ok.inj h))
  · cases h

theorem yields_storage (hs : s.Sound I k c) (loc : Location)
    (hbnd : ∀ b, s.scope.bindings.get? id = some b → b.bound = true) :
    Yields (storage id loc) s fun o s' => s = s' ∧ c.Keeps s.globals o := by
  refine .get_bind (yields_sound.bind ?_)
  rintro binding _ ⟨rfl, hget⟩
  have hget := get?_of_get hget
  split
  · next hglob =>
    exact .pure ⟨rfl, .global (hs.scope id binding hget (hbnd _ hget) hglob)⟩
  · split
    · next slot hslot =>
      refine .pure ⟨rfl, .slot ?_⟩
      obtain ⟨before, after, hslt, -⟩ := List.lookup_eq_some_iff.mp hslot
      exact hs.slots (id, slot) (by rw [hslt]; simp)
    · exact .throw

theorem yields_resolve (hs : s.Sound I k c) (name : String) (loc : Location) :
    Yields (resolve name loc) s fun o s' => s = s' ∧ c.Keeps s.globals o := by
  refine .get_bind (yields_check.bind ?_)
  rintro id _ ⟨rfl, hid⟩
  refine yields_storage hs loc fun b hb => ?_
  unfold Scope.resolve Scope.findVisible? at hid
  split at hid
  · next i hi =>
    cases hid
    have hfound := List.find?_some hi
    simp [hb] at hfound
    exact hfound.1
  · cases hid

theorem emits_load (hs : s.Sound I k c) (ho : c.Keeps s.globals o) :
    Makes I k c s (drafting (Draft.load .value o)) .value :=
  emits_writes hs ((Draft.yields_load hs.draft ho).mono fun _ _ ⟨c', hw, hr⟩ => ⟨c', _, hw, hr⟩)

theorem emits_store (hs : s.Sound I k c) (hr : s.body.draft.Holds c r .value)
    (ho : c.Keeps s.globals o) :
    Emits I k c s (drafting (Draft.store (.value r) o)) fun _ _ _ => True :=
  emits_writes hs ((Draft.yields_store hs.draft hr ho).mono fun _ _ hw => ⟨c, _, hw, trivial⟩)

/-- A declaration adds a binding that is not visible yet. It belongs to the whole program exactly if
no scope is open. -/
theorem declare_ok {scope scope' : Scope} {name : String} {loc : Location} {id : Nat}
    (h : scope.declare name loc = .ok (id, scope')) :
    ∃ b : Binding, b.bound = false ∧ (b.isGlobal = true → scope.inner = []) ∧
      id = scope.bindings.size ∧ scope'.bindings = scope.bindings.push b ∧
      scope'.inner.length = scope.inner.length := by
  rw [Scope.declare_eq] at h
  split at h
  · cases h
  · cases h
    refine ⟨_, rfl, fun hglob => Scope.inner_eq_nil_iff.mpr ?_, rfl, rfl, ?_⟩
    · by_contra hopen
      simp [Binding.isGlobal, hopen] at hglob
    · rw [Scope.length_inner, Scope.length_inner]
      rfl

/-- A certificate of an inner function does not depend on how many slots the program has. -/
theorem certified_mono {f : Ir.Function} {G G' : List String} (hf : f.Certified I G k c)
    (hk : k ≠ .main) (hG : G ⊆ G') : f.Certified I G' k c :=
  { hf with
    opens := hf.opens.mono fun _ _ hi => hi.mono (le_refl c) hG
    fits := fun b x hb0 hb2 hx =>
      (hf.fits b x hb0 hb2 hx).mono fun _ _ hi => hi.mono (le_refl c) hG
    globals := fun h => absurd h hk
    exits := hf.exits.change hk }

theorem advances_allocate (hs : s.Sound I k c) {b : Binding}
    (hb : s.scope.bindings.get? id = some b) (hglob : b.isGlobal = true → k = .main) :
    Advances I k c s (allocate id) fun o c' s' => c'.Keeps s'.globals o ∧ s'.scope = s.scope ∧
      (b.isGlobal = true → b.symbol ∈ s'.globals) ∧
      Draft.Continues c s.body.draft [] c' s'.body.draft ∧
      s'.body.draft.trail = s.body.draft.trail ∧ c'.inputs = c.inputs ∧
      (k ≠ .main → c'.slots = c.slots + 1) := by
  refine Yields.get_bind (yields_sound.bind ?_)
  rintro b' _ ⟨rfl, hget⟩
  obtain rfl : b = b' := Option.some.inj (hb.symm.trans (get?_of_get hget))
  simp only
  split
  · next hisGlobal =>
    obtain rfl := hglob hisGlobal
    -- a global is rooted by its symbol, and finished functions may not know it yet
    refine Yields.bind (yields_drafting (Draft.yields_globalRoot hs.draft b.symbol)) ?_
    rintro _ _ ⟨⟨d, rfl⟩, hw⟩
    refine .modify_bind ?_
    have hd : d.Sound I (s.globals ++ [b.symbol]) .main d.tryDepth c :=
      hw.follows.tryDepth ▸ hw.sound
    have hsym : b.symbol ∈ s.globals ++ [b.symbol] := by simp
    refine .pure ⟨c, ⟨hd, hs.kind, hs.slots, hs.receiver, ?_, hs.inner, ?_, hs.texts, hs.calls⟩,
      ⟨hw.follows, rfl, List.prefix_refl _, List.prefix_append .., absurd rfl⟩,
      .global hsym, rfl, fun _ => hsym, hw.continues, hw.trail, rfl, absurd rfl⟩
    · exact fun i b hget hbnd hglob => List.mem_append_left _ (hs.scope i b hget hbnd hglob)
    · intro f hf
      obtain ⟨k', c', hk', hcert⟩ := hs.finished f hf
      exact ⟨k', c', hk', certified_mono hcert hk' (List.subset_append_left ..)⟩
  · next hlocal =>
    refine Yields.bind (yields_drafting (Draft.yields_slot hs.draft (some b.symbol))) ?_
    rintro slot _ ⟨⟨d, rfl⟩, c1, hw, hslot, hins, hslt⟩
    refine .modify_bind ?_
    have hs1 := hs.withDraft hw.follows.le (hw.follows.tryDepth ▸ hw.sound)
    refine .pure ⟨c1, { hs1 with slots := ?_ }, ⟨hw.follows, rfl, List.prefix_refl _,
      List.prefix_refl _, fun _ => ⟨rfl, rfl⟩⟩, .slot hslot, rfl,
      fun h => absurd h hlocal, hw.continues, hw.trail, hins, fun _ => hslt⟩
    intro p hp
    rcases List.mem_cons.mp hp with rfl | hp
    · exact hslot
    · exact hs1.slots p hp

/-- A variable is declared, its first value is compiled and stored, and only then can the variable be
named. -/
theorem advances_declareVariable (hs : s.Sound I k c) (name : String) (loc : Location)
    {value : Lowering Nat} {P : Nat → Cert → Draft → Prop}
    (hval : ∀ s1, s1.Sound I k c → s1.body = s.body →
      Emits I k c s1 value fun r c' d' => d'.Holds c' r .value ∧ P r c' d') :
    Advances I k c s (declareVariable name loc value) fun id c' s' =>
      (∀ b, s'.scope.bindings.get? id = some b → b.bound = true) ∧
      Draft.Continues c s.body.draft [] c' s'.body.draft ∧
      ∃ r o c2 d2, P r c2 d2 ∧ s'.body.draft.trail = .store (.value r) o :: d2.trail ∧
        c'.inputs = c2.inputs ∧ (k ≠ .main → c.slots + 1 ≤ c'.slots) := by
  refine Yields.get_bind (yields_check.bind ?_)
  rintro ⟨id, scope⟩ _ ⟨rfl, hdecl⟩
  obtain ⟨b, hunbound, hglob, rfl, hbinds, hinn⟩ := declare_ok hdecl
  refine .modify_bind ?_
  -- the binding is not bound yet, so that nothing is asked of its storage
  have hs1 : Session.Sound I k c { s with scope } := by
    refine { hs with scope := ?_, inner := ?_ }
    · intro i b' hget hbnd
      have hget : scope.bindings.get? i = some b' := hget
      rw [hbinds, Table.get?_push] at hget
      split at hget
      · rw [← Option.some.inj hget, hunbound] at hbnd
        cases hbnd
      · exact hs.scope i b' hget hbnd
    · intro hk heq
      have heq : scope.inner = [] := heq
      rw [heq] at hinn
      exact hs.inner hk (List.eq_nil_of_length_eq_zero hinn.symm)
  refine Yields.bind (hval _ hs1 rfl) ?_
  rintro r _ ⟨c2, hs2, hd2, ⟨d, rfl⟩, hr, hP⟩
  have hb : scope.bindings.get? s.scope.bindings.size = some b := by
    rw [hbinds, Table.get?_push, if_pos rfl]
  have hmain : b.isGlobal = true → k = .main := fun h => by
    by_contra hk
    exact hs.inner hk (hglob h)
  refine Yields.bind (advances_allocate hs2 hb hmain) ?_
  rintro dest s3 ⟨c3, hs3, hf3, hkeeps, hsc, hsym, hd3, htrail3, hins, hslt⟩
  refine Yields.bind (yields_drafting (Draft.yields_store hs3.draft (hr.mono hd3) hkeeps)) ?_
  rintro _ _ ⟨⟨d4, rfl⟩, hw4⟩
  -- the name is bound after its first value was stored, so that the value cannot refer to it
  refine Yields.get_bind (yields_sound.bind ?_)
  rintro scope4 _ ⟨rfl, hbind⟩
  obtain ⟨b', hb', hscope4, hget4⟩ := Scope.bind_eq_ok hbind
  have hinner4 : scope4.inner = s3.scope.inner := by
    rw [hscope4]
    rfl
  refine .modify_bind ?_
  have hb3 : s3.scope.bindings.get? s.scope.bindings.size = some b := hsc ▸ hb
  obtain rfl : b = b' := Option.some.inj (hb3.symm.trans hb')
  have hs4 := hs3.withDraft hw4.follows.le (hw4.follows.tryDepth ▸ hw4.sound)
  have hd4 : Draft.Continues c s.body.draft [] c3 d4 := (hd2.trans hd3).trans hw4.continues
  refine .pure ⟨c3, { hs4 with scope := ?_, inner := ?_ },
    ⟨hd4.toFollows, ?_, hf3.finished, hf3.globals, hf3.definition⟩,
    ?_, hd4, r, dest, c2, d, hP, ?_, hins, fun hk => ?_⟩
  · intro i b'' hget hbnd hglobal'
    have hget : scope4.bindings.get? i = some b'' := hget
    rw [hget4] at hget
    split at hget
    · cases hget
      exact hsym hglobal'
    · exact hs3.scope i b'' hget hbnd hglobal'
  · exact hinner4 ▸ hs3.inner
  · show scope4.inner.length = s.scope.inner.length
    rw [hinner4, hsc]
    exact hinn
  · intro b'' hget
    have hget : scope4.bindings.get? s.scope.bindings.size = some b'' := hget
    rw [hget4, if_pos rfl] at hget
    exact Option.some.inj hget ▸ rfl
  · exact hw4.trail.trans (congrArg _ htrail3)
  · rw [hslt hk]
    exact Nat.succ_le_succ (Cert.slots_mono hd2.le)

end Lowering

end Ember
