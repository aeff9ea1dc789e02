import Ember.Proofs.Lowering.Session

/-!
# Ember — statements inside statements

The code of a statement surrounds the code of the statements inside it. A compilation that gets
through the outer code starts the inner one in a session that fits its certificate, under as many
protected regions as were opened on the way, and afterwards only adds to what the inner one wrote.

Main result: `yields_define`.
-/

namespace Ember

variable {Q : Cert → Session → Prop} {x : Lowering Unit} {C : Lowering Unit → Lowering Unit}
  {e : Nat} {P nested : Prop} {s1 t : Session} {symbol : String}

namespace Lowering

open Ir (Draft Convention Cert Interface trailOf)

variable {I : Interface} {k : Convention} {c c' : Cert} {s s' : Session} {α β : Type}

/-- What is behind is the same, and no blocks more than `bs` are to be written. -/
structure Owes (c : Cert) (bs : List Nat) (c' : Cert) : Prop where
  now : c'.now = c.now
  owed : ∀ b ∈ c'.owed, b ∈ bs ∨ b ∈ c.owed

/-- No block more is to be written. -/
abbrev Settles (c c' : Cert) : Prop :=
  Owes c [] c'

/-- Writing goes on at the block `b`. -/
structure Reaches (c : Cert) (b : Nat) (c' : Cert) (s' : Session) : Prop where
  now : c'.now = c.now
  owed : ∀ b' ∈ c'.owed, b' ≠ b ∧ b' ∈ c.owed
  current : s'.body.draft.current = b

namespace Owes

variable {c'' : Cert} {bs : List Nat}

theorem refl (c : Cert) : Owes c [] c :=
  ⟨rfl, fun _ => .inr⟩

theorem trans {bs' : List Nat} (h1 : Owes c bs c') (h2 : Owes c' bs' c'') : Owes c (bs' ++ bs) c'' := by
  refine ⟨h2.now.trans h1.now, fun b hb => ?_⟩
  rcases h2.owed b hb with hb | hb
  · exact .inl (List.mem_append_left _ hb)
  · exact (h1.owed b hb).imp (List.mem_append_right _) id

theorem of_continues {d d' : Draft} (h : Draft.Continues c d bs c' d') : Owes c bs c' :=
  ⟨h.now, fun _ hb => List.mem_append.mp (h.owed ▸ hb)⟩

theorem of_ends (h : Ends c c' s') : Owes c [] c' :=
  ⟨h.now, fun _ hb => .inr (h.owed ▸ hb)⟩

theorem reach {b : Nat} (bs' : List Nat) (h1 : Owes c bs c') (h2 : Reaches c' b c'' s')
    (hbs : ∀ b' ∈ bs, b' = b ∨ b' ∈ bs') : Owes c bs' c'' := by
  refine ⟨h2.now.trans h1.now, fun b' hb' => ?_⟩
  obtain ⟨hne, hb'⟩ := h2.owed b' hb'
  exact (h1.owed b' hb').imp (fun h => (hbs b' h).resolve_left hne) id

end Owes

theorem bind_eq_ok {x : Lowering α} {f : α → Lowering β} {b : β}
    (h : (x >>= f) s = .ok b s') : ∃ a s1, x s = .ok a s1 ∧ f a s1 = .ok b s' := by
  cases hx : x s with
  | ok a s1 => exact ⟨a, s1, rfl, by simpa only [bind, EStateM.bind, hx] using h⟩
  | error e s1 =>
    simp only [bind, EStateM.bind, hx] at h
    cases h

theorem bind_of_ok {x : Lowering α} {f : α → Lowering β} {a : α} (h : x s = .ok a s1) :
    (x >>= f) s = f a s1 := by
  simp only [bind, EStateM.bind, h]

theorem bind_of_error {x : Lowering α} {f : α → Lowering β} {r : Rejection} {s1 : Session}
    (h : x s = .error r s1) : (x >>= f) s = .error r s1 := by
  simp only [bind, EStateM.bind, h]

/-- Outer code `C`, compiled from a session `s` on, starts its inner code in the session `t`: where
the inner code stops, from there on, everything stops. -/
def Starts (C : Lowering Unit → Lowering Unit) (s t : Session) : Prop :=
  ∀ x r u, x t = .error r u → C x s = .error r u

theorem Starts.comp {D : Lowering Unit → Lowering Unit} {u : Session} (hC : Starts C s t)
    (hD : Starts D t u) : Starts (fun x => C (D x)) s u :=
  fun x r v hx => hC (D x) r v (hD x r v hx)

/-- The blocks of a session have only grown. -/
def Grows (s s' : Session) : Prop :=
  ∀ b, trailOf s.body.draft.blocks b <:+ trailOf s'.body.draft.blocks b

theorem Grows.trans {s'' : Session} (h1 : Grows s s') (h2 : Grows s' s'') : Grows s s'' :=
  fun b => (h1 b).trans (h2 b)

/-- The inner code starts in a sound session, under `e` regions more, in the same function and in no
fewer scopes. Where it is `nested`, it is not at the top level. -/
structure Enters (I : Interface) (k : Convention) (c : Cert) (s : Session)
    (c₁ : Cert) (t : Session) (e : Nat) (nested : Prop) : Prop where
  sound : t.Sound I k c₁
  le : c ≤ c₁
  tryDepth : t.body.draft.tryDepth = s.body.draft.tryDepth + e
  finished : k ≠ .main → t.finished = s.finished
  scope : s.scope.inner.length ≤ t.scope.inner.length
  inner : nested → t.scope.inner ≠ []

/-- Outer code that starts its inner code in a sound session, under `e` regions more, and is sound
where the inner code is. -/
def Surrounds (I : Interface) (k : Convention) (c : Cert) (s : Session)
    (C : Lowering Unit → Lowering Unit) (e : Nat) (nested : Prop) (Q : Cert → Session → Prop) :
    Prop :=
  ∀ x s', C x s = .ok () s' → ∃ t t' c₁, Starts C s t ∧ x t = .ok () t' ∧
    Enters I k c s c₁ t e nested ∧
    ∀ c₂, t'.Sound I k c₂ → Session.Follows k c₁ t c₂ t' → Settles c₁ c₂ →
      ∃ c₃, s'.Sound I k c₃ ∧ Session.Follows k c s c₃ s' ∧ c₂ ≤ c₃ ∧ Grows t' s' ∧ Q c₃ s'

theorem Enters.le_scope {c1 : Cert} (h : Enters I k c s c1 t e nested)
    (hs : s.scope.inner ≠ []) : t.scope.inner ≠ [] := by
  have hs := List.length_pos_iff.mpr hs
  have ht := h.scope
  exact List.length_pos_iff.mp (by omega)

namespace Surrounds

variable {C D : Lowering Unit → Lowering Unit} {e e' : Nat} {nested nested' : Prop}
  {Q R : Cert → Session → Prop}

theorem mono' (hC : Surrounds I k c s C e nested R)
    (hR : ∀ c' s', s'.Sound I k c' → Session.Follows k c s c' s' → R c' s' → Q c' s') :
    Surrounds I k c s C e nested Q := by
  intro x s' hrun
  obtain ⟨t, t', c1, hsts, hx, ht, hafter⟩ := hC x s' hrun
  refine ⟨t, t', c1, hsts, hx, ht, fun c2 ht' hf hsettl => ?_⟩
  obtain ⟨c3, hs', hf', hle, hgrows, hR'⟩ := hafter c2 ht' hf hsettl
  exact ⟨c3, hs', hf', hle, hgrows, hR c3 s' hs' hf' hR'⟩

theorem mono (hC : Surrounds I k c s C e nested R) (hR : ∀ c' s', R c' s' → Q c' s') :
    Surrounds I k c s C e nested Q :=
  hC.mono' fun c' s' _ _ h => hR c' s' h

theorem weaken {P' : Prop} (hC : Surrounds I k c s C e P Q) (hP : P' → P) :
    Surrounds I k c s C e P' Q := by
  intro x s' hrun
  obtain ⟨t, t', c1, hsts, hx, ht, hafter⟩ := hC x s' hrun
  exact ⟨t, t', c1, hsts, hx, { ht with inner := fun h => ht.inner (hP h) }, hafter⟩

theorem hole (hs : s.Sound I k c) :
    Surrounds I k c s (fun x => x) 0 (s.scope.inner ≠ []) fun c' _ => Settles c c' :=
  fun _ s' hrun => ⟨s, s', c, fun _ _ _ h => h, hrun,
    ⟨hs, le_refl c, rfl, fun _ => rfl, Nat.le_refl _, id⟩,
    fun c2 hs' hf hsettl => ⟨c2, hs', hf, le_refl c2, fun _ => List.suffix_refl _, hsettl⟩⟩

theorem before {x : Lowering α} {C : α → Lowering Unit → Lowering Unit}
    {P : α → Cert → Session → Prop} (hx : Advances I k c s x P)
    (hC : ∀ a c1 s1, s1.Sound I k c1 → Session.Follows k c s c1 s1 → P a c1 s1 →
      Surrounds I k c1 s1 (C a) e nested Q) :
    Surrounds I k c s (fun y => x >>= fun a => C a y) e nested Q := by
  intro y s' hrun
  obtain ⟨a, s1, ha, hrest⟩ := bind_eq_ok hrun
  obtain ⟨c1, hs1, hf1, hP⟩ := hx a s1 ha
  obtain ⟨t, t', c2, hsts, hy, ht, hafter⟩ := hC a c1 s1 hs1 hf1 hP y s' hrest
  refine ⟨t, t', c2, fun z r u hz => (bind_of_ok ha).trans (hsts z r u hz), hy,
    ⟨ht.sound, hf1.le.trans ht.le, ?_, fun hk => ?_, hf1.inner ▸ ht.scope, ht.inner⟩,
    fun c3 ht' hf hsettl => ?_⟩
  · rw [ht.tryDepth, hf1.tryDepth]
  · rw [ht.finished hk, (hf1.definition hk).2]
  · obtain ⟨c4, hs', hf', hle, hgrows, hQ⟩ := hafter c3 ht' hf hsettl
    exact ⟨c4, hs', hf1.trans hf', hle, hgrows, hQ⟩

theorem after {y : Lowering Unit} (hC : Surrounds I k c s C e nested R)
    (hy : ∀ c1 s1, s1.Sound I k c1 → Session.Follows k c s c1 s1 → R c1 s1 →
      Advances I k c1 s1 y fun _ c' s' => Q c' s') :
    Surrounds I k c s (fun x => C x >>= fun _ => y) e nested Q := by
  intro x s' hrun
  obtain ⟨⟨⟩, s1, hx, hrest⟩ := bind_eq_ok hrun
  obtain ⟨t, t', c1, hsts, hinn, ht, hafter⟩ := hC x s1 hx
  refine ⟨t, t', c1, fun z r u hz => bind_of_error (hsts z r u hz), hinn, ht,
    fun c2 ht' hf hsettl => ?_⟩
  obtain ⟨c3, hs1, hf1, hle, hgrows, hR⟩ := hafter c2 ht' hf hsettl
  obtain ⟨c4, hs', hf', hQ⟩ := hy c3 s1 hs1 hf1 hR () s' hrest
  exact ⟨c4, hs', hf1.trans hf', hle.trans hf'.le, hgrows.trans hf'.grows, hQ⟩

theorem comp (hC : Surrounds I k c s C e nested Q)
    (hD : ∀ c1 s1, Enters I k c s c1 s1 e nested →
      Surrounds I k c1 s1 D e' nested' fun c2 _ => Settles c1 c2) :
    Surrounds I k c s (fun x => C (D x)) (e + e') (nested ∨ nested') Q := by
  intro x s' hrun
  obtain ⟨t, t', c1, hsts, hinn, ht, hafter⟩ := hC (D x) s' hrun
  obtain ⟨u, u', c2, hstarts', hx, hu, hafter'⟩ := hD c1 t ht x t' hinn
  refine ⟨u, u', c2, hsts.comp hstarts', hx, ⟨hu.sound, ht.le.trans hu.le, ?_, fun hk => ?_,
    ht.scope.trans hu.scope, ?_⟩, fun c3 hu' hf hsettl => ?_⟩
  · rw [hu.tryDepth, ht.tryDepth, Nat.add_assoc]
  · rw [hu.finished hk, ht.finished hk]
  · rintro (h | h)
    · exact hu.le_scope (ht.inner h)
    · exact hu.inner h
  · obtain ⟨c4, ht', hf', hle, hgrows, hsettles'⟩ := hafter' c3 hu' hf hsettl
    obtain ⟨c5, hs', hf'', hle', hgrows', hQ⟩ := hafter c4 ht' hf' hsettles'
    exact ⟨c5, hs', hf'', hle.trans hle', hgrows.trans hgrows', hQ⟩

section

variable (hC : Surrounds I k c s C e nested Q)
  (hx : ∀ c1 s1, Enters I k c s c1 s1 e nested → Advances I k c1 s1 x fun _ c2 _ => Settles c1 c2)

include hC hx

/-- Outer code with sound inner code is sound, and keeps what the inner code started with. -/
theorem run (hrun : C x s = .ok () s') : ∃ t c1 c2, Starts C s t ∧ Enters I k c s c1 t e nested ∧
      s'.Sound I k c2 ∧ Session.Follows k c s c2 s' ∧ c1 ≤ c2 ∧ Grows t s' ∧ Q c2 s' := by
  obtain ⟨t, t', c1, hsts, hinn, ht, hafter⟩ := hC x s' hrun
  obtain ⟨c2, ht', hf, hsettl⟩ := hx c1 t ht () t' hinn
  obtain ⟨c3, hs', hf', hle, hgrows, hQ⟩ := hafter c2 ht' hf hsettl
  exact ⟨t, c1, c3, hsts, ht, hs', hf', hf.le.trans hle, Grows.trans hf.grows hgrows, hQ⟩

theorem fill : Advances I k c s (C x) fun _ c' s' => Q c' s' := by
  intro _ s' hrun
  obtain ⟨t, c1, c2, -, -, hs', hf, -, -, hQ⟩ := hC.run hx hrun
  exact ⟨c2, hs', hf, hQ⟩

end

theorem enclose {x : Lowering α} {C : α → Lowering Unit → Lowering Unit} {y : α → Lowering Unit}
    (hx : Yields x s fun a t => ∃ c1, Enters I k c s c1 t e nested ∧
      Surrounds I k c1 t (C a) e' nested' (fun c2 _ => Settles c1 c2) ∧
      ∀ c2 t', t'.Sound I k c2 → Session.Follows k c1 t c2 t' → Settles c1 c2 →
        Yields (y a) t' fun _ s' =>
          ∃ c3, s'.Sound I k c3 ∧ Session.Follows k c s c3 s' ∧ c2 ≤ c3 ∧ Grows t' s' ∧ Q c3 s') :
    Surrounds I k c s (fun z => x >>= fun a => C a z >>= fun _ => y a) (e + e') (nested ∨ nested')
      Q := by
  intro z s' hrun
  obtain ⟨a, t, ha, hrest⟩ := bind_eq_ok hrun
  obtain ⟨⟨⟩, t', hz, hrest⟩ := bind_eq_ok hrest
  obtain ⟨c1, ht, hC, hafter⟩ := hx a t ha
  obtain ⟨u, u', c2, hsts, hz, hu, hafter'⟩ := hC z t' hz
  refine ⟨u, u', c2, fun w r v hw => ?_, hz, ⟨hu.sound, ht.le.trans hu.le, ?_, fun hk => ?_,
    ht.scope.trans hu.scope, ?_⟩, fun c3 hu' hf hsettl => ?_⟩
  · exact (bind_of_ok ha).trans (bind_of_error (hsts w r v hw))
  · rw [hu.tryDepth, ht.tryDepth, Nat.add_assoc]
  · rw [hu.finished hk, ht.finished hk]
  · rintro (h | h)
    · exact hu.le_scope (ht.inner h)
    · exact hu.inner h
  · obtain ⟨c4, ht', hf', hle, hgrows, hsettles'⟩ := hafter' c3 hu' hf hsettl
    obtain ⟨c5, hs', hf'', hle', hgrows', hQ⟩ := hafter c4 t' ht' hf' hsettles' () s' hrest
    exact ⟨c5, hs', hf'', hle.trans hle', hgrows.trans hgrows', hQ⟩

end Surrounds

/-- Nested statements are sound wherever they are compiled. -/
def Compiles (I : Interface) (x : Lowering Unit) : Prop :=
  ∀ k c s, s.Sound I k c → s.scope.inner ≠ [] → Advances I k c s x fun _ c' _ => Settles c c'

theorem Surrounds.nest {C : Lowering Unit → Lowering Unit} {e : Nat} {nested : Prop}
    {Q : Cert → Session → Prop} (hC : Surrounds I k c s C e nested Q) (hnested : nested)
    {x : Lowering Unit} (hx : Compiles I x) : Advances I k c s (C x) fun _ c' s' => Q c' s' :=
  hC.fill fun c1 s1 h1 => hx k c1 s1 h1.sound (h1.inner hnested)

/-! ## Scopes and loops -/

/-- A session with one more scope open. -/
def entered (s : Session) : Session :=
  { s with scope := s.scope.enter }

theorem sound_entered (hs : s.Sound I k c) : (entered s).Sound I k c :=
  { hs with inner := fun _ => s.scope.inner_enter_ne_nil }

/-- The end of a scope. -/
def leaveScope : Lowering Unit := do
  let scope ← sound (← get).scope.exit
  modify fun s => { s with scope }

theorem yields_leaveScope (s : Session) :
    Yields leaveScope s fun _ s' => ∃ scope, s' = { s with scope } ∧
      scope.bindings = s.scope.bindings ∧ s.scope.inner.length = scope.inner.length + 1 := by
  refine Yields.get_bind (yields_sound.bind ?_)
  rintro scope _ ⟨rfl, hexit⟩
  refine .modifyGet ⟨scope, rfl, ?_⟩
  obtain ⟨⟨ids, hinner⟩, -, hbinds, -⟩ := Scope.exit_eq_ok hexit
  exact ⟨hbinds, by rw [hinner, List.length_cons]⟩

theorem surrounds_scoped (hs : s.Sound I k c)
    (hC : Surrounds I k c (entered s) C e P fun c' _ => Settles c c') :
    Surrounds I k c s (fun x => inScope (C x)) e True fun c' _ => Settles c c' := by
  have hscoped : Surrounds I k c s (fun x => inScope (C x)) (0 + e) (True ∨ P)
      fun c' _ => Settles c c' := by
    refine Surrounds.enclose (y := fun _ => leaveScope) (Yields.modifyGet ⟨c,
      ⟨sound_entered hs, le_refl c, rfl, fun _ => rfl,
        s.scope.length_inner_enter ▸ Nat.le_succ _, fun _ => s.scope.inner_enter_ne_nil⟩, hC, ?_⟩)
    intro c2 t ht hf hsettl
    refine (yields_leaveScope t).mono ?_
    rintro _ _ ⟨scope, rfl, hbinds, hinn⟩
    have hlen : scope.inner.length = s.scope.inner.length :=
      Nat.succ.inj (hinn.symm.trans (hf.inner.trans s.scope.length_inner_enter))
    refine ⟨c2, { ht with scope := ?_, inner := ?_ },
      ⟨hf.toFollows, hlen, hf.finished, hf.globals, hf.definition⟩, le_refl c2,
      fun _ => List.suffix_refl _, hsettl⟩
    · intro i b hget
      have hget : scope.bindings.get? i = some b := hget
      rw [hbinds] at hget
      exact ht.scope i b hget
    · intro hk heq
      have heq : scope.inner = [] := heq
      rw [heq] at hlen
      exact hs.inner hk (List.eq_nil_of_length_eq_zero hlen.symm)
  rw [Nat.zero_add] at hscoped
  exact hscoped.weaken fun _ => .inl trivial

theorem surrounds_inScope (hs : s.Sound I k c) :
    Surrounds I k c s inScope 0 True fun c' _ => Settles c c' :=
  surrounds_scoped hs (.hole (sound_entered hs))

/-- A session inside a loop. -/
def looping (s : Session) (leave next : Nat) : Session :=
  { s with body := { s.body with draft := { s.body.draft with
      loops := ⟨leave, next, s.body.draft.tryDepth⟩ :: s.body.draft.loops } } }

/-- The body of a loop, between the blocks where it is left and where the next round begins. -/
theorem surrounds_loopBody (hs : s.Sound I k c) {leave next : Nat}
    (hleave : c.Leads c.now s.body.draft.tryDepth leave)
    (hnext : c.Leads c.now s.body.draft.tryDepth next) :
    Surrounds I k c s (fun x => inLoop leave next (inScope x)) 0 True fun c' _ => Settles c c' := by
  refine Surrounds.weaken (P := False ∨ True) ?_ fun _ => .inr trivial
  show Surrounds I k c s _ (0 + 0) _ _
  refine Surrounds.enclose (x := drafting (Draft.pushLoop leave next)) (C := fun _ => inScope)
    (y := fun _ => drafting Draft.popLoop) ((yields_drafting (Yields.modifyGet 
      (Q := fun _ d => d = (looping s leave next).body.draft) rfl)).mono ?_)
  rintro _ _ ⟨⟨d, rfl⟩, hd⟩
  obtain rfl : d = _ := hd
  have hlooping : (looping s leave next).Sound I k c := hs.withDraft (le_refl c) (hs.draft.pushLoop hleave hnext)
  refine ⟨c, ⟨hlooping, le_refl c, rfl, fun _ => rfl, Nat.le_refl _, ?_⟩,
    surrounds_inScope hlooping, fun c2 t ht hf hsettl => ?_⟩
  · exact False.elim
  refine (yields_drafting (Yields.modifyGet
    (Q := fun _ d => d = { t.body.draft with loops := t.body.draft.loops.tail }) rfl)).mono ?_
  rintro _ _ ⟨⟨d, rfl⟩, hd⟩
  obtain rfl : d = _ := hd
  refine ⟨c2, ht.withDraft (le_refl c2) ht.draft.popLoop, ⟨⟨hf.le, hf.symbol, hf.tryDepth, ?_,
    hf.grows⟩, hf.inner, hf.finished, hf.globals, hf.definition⟩, le_refl c2,
    fun _ => List.suffix_refl _, hsettl⟩
  show t.body.draft.loops.tail = s.body.draft.loops
  rw [hf.loops]
  rfl

/-! ## Functions -/

/-- A function is written to its end: nothing is open, nothing is left to be written, and all
parameters are there. -/
structure Completed (k : Convention) (c : Cert) (s : Session) : Prop where
  left : s.body.draft.Left c
  owed : c.owed = []
  full : c.inputs.length = k.roles.length
  room : k.passed ≤ c.slots

theorem yields_finishBody {n : Nat} (hd : s.body.draft.Sound I s.globals k n c)
    (hcompl : Completed k c s) :
    Yields finishBody s fun _ s' => ∃ g d c', c ≤ c' ∧ g.Certified I s.globals k c' ∧
      g.symbol = s.body.draft.symbol ∧
      (∀ b, trailOf s.body.draft.blocks b <:+ trailOf g.blocks b) ∧
      s' = { s with finished := s.finished ++ [g], body := { s.body with draft := d } } := by
  refine Yields.bind (yields_drafting (Draft.yields_finish hd hcompl.left hcompl.owed
    hcompl.full hcompl.room)) ?_
  rintro g _ ⟨⟨d, rfl⟩, c', hle, hg, hsym, hgrows⟩
  exact .modifyGet ⟨g, d, c', hle, hg, hsym, hgrows, rfl⟩

/-- A session that begins to write another function. -/
def defining (s : Session) (symbol : String) : Session :=
  entered { s with body := { draft := Draft.start symbol .value, kind := .definition } }

theorem sound_defining (hs : s.Sound I .main c) (hk : k ≠ .main) (hnmd : k.Names I symbol) :
    (defining s symbol).Sound I k (Draft.fresh [.result]) where
  draft := Draft.sound_start hk hnmd
  kind := ⟨nofun, fun h => absurd h hk⟩
  slots := nofun
  receiver := nofun
  scope := hs.scope
  inner _ := s.scope.inner_enter_ne_nil
  finished := hs.finished
  texts := hs.texts
  calls := hs.calls

/-- A function of the symbol is among those that are finished. -/
def Has (s : Session) (symbol : String) : Prop :=
  ∃ g ∈ s.finished, g.symbol = symbol

theorem Has.mono (h : Has s symbol) (hf : s.finished <+: s'.finished) : Has s' symbol := by
  obtain ⟨g, hg, hsym⟩ := h
  exact ⟨g, hf.subset hg, hsym⟩

theorem yields_define (hs : s.Sound I .main c) {symbol : String} (hk : k ≠ .main)
    {x : Lowering Unit} {Q : Cert → Session → Prop}
    (hx : Advances I k (Draft.fresh [.result]) (defining s symbol) x fun _ c' s' =>
      Completed k c' s' ∧ Q c' s') :
    Yields (define symbol x) s fun _ s' => s'.Sound I .main c ∧ Session.Follows .main c s c s' ∧
      Has s' symbol ∧
      ∃ t c1 c2 g, Q c1 t ∧ c1 ≤ c2 ∧ g.Certified I s'.globals k c2 ∧
        (∀ b, trailOf t.body.draft.blocks b <:+ trailOf g.blocks b) ∧
        s'.finished = s.finished ++ [g] := by
  refine Yields.get_bind ?_
  refine Yields.bind (Yields.modifyGet (Q := fun _ s' => s' =
    { s with body := { draft := Draft.start symbol .value, kind := .definition } }) rfl) ?_
  rintro _ _ rfl
  refine Yields.bind (R := fun _ s' => ∃ t c1 scope, t.Sound I k c1 ∧
    Session.Follows k (Draft.fresh [.result]) (defining s symbol) c1 t ∧ Completed k c1 t ∧ Q c1 t ∧
    s' = { t with scope } ∧ scope.bindings = t.scope.bindings ∧
    t.scope.inner.length = scope.inner.length + 1) ?_ ?_
  · refine Yields.bind (Yields.modifyGet (Q := fun _ s' => s' = defining s symbol) rfl) ?_
    rintro _ _ rfl
    refine Yields.bind hx ?_
    rintro ⟨⟩ t ⟨c1, ht, hf, hcompl, hQ⟩
    refine (yields_leaveScope t).mono ?_
    rintro _ s' ⟨scope, hs', hsc⟩
    exact ⟨t, c1, scope, ht, hf, hcompl, hQ, hs', hsc⟩
  -- the scope is closed, and the function is finished from the session inside
  rintro _ _ ⟨t, c1, scope, ht, hf, hcompl, hQ, rfl, hbinds, hinn⟩
  refine Yields.bind (yields_finishBody (s := { t with scope }) ht.draft
    ⟨hcompl.left, hcompl.owed, hcompl.full, hcompl.room⟩) ?_
  rintro _ _ ⟨g, d, c2, hle, hg, hsym, hgrows, rfl⟩
  have hG : t.globals = s.globals := (hf.definition hk).1
  refine .modifyGet ⟨?_, ?_, ?_, t, c1, c2, g, hQ, hle, hg, hgrows, ?_⟩
  · refine ⟨?_, hs.kind, hs.slots, hs.receiver, ?_, nofun, ?_, ht.texts, ht.calls⟩
    · exact hG ▸ hs.draft
    · intro i b hget
      have hget : scope.bindings.get? i = some b := hget
      rw [hbinds] at hget
      exact ht.scope i b hget
    · intro f hf
      rcases List.mem_append.mp hf with hf | hf
      · exact ht.finished f hf
      · exact ⟨k, c2, hk, List.mem_singleton.mp hf ▸ hg⟩
  · refine ⟨.refl c _, ?_, ?_, ?_, absurd rfl⟩
    · exact Nat.succ.inj (hinn.symm.trans (hf.inner.trans s.scope.length_inner_enter))
    · exact hf.finished.trans (List.prefix_append ..)
    · exact hf.globals
  · refine ⟨g, List.mem_append_right _ (List.mem_singleton_self g), hsym.trans ?_⟩
    exact hf.symbol
  · show t.finished ++ [g] = _
    rw [(hf.definition hk).2]
    rfl

end Lowering

end Ember
