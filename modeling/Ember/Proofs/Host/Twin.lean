import Ember.Proofs.Host.Tame

/-!
# Ember — twin hosts

Collections happen inside allocations, at moments that depend on thresholds. Two hosts are twins when
they differ at most in objects that nothing holds on to. This module shows what it takes for an action
to treat twins alike: to give the same result in both, to leave twins behind, and to keep alive what
the machine stack, the registered slots or the exception refer to.

Main results: `Alike.bind`, `Alike.withFrame`, `Alike.allocate`.
-/

namespace Ember.Host

open Heap (Live Reads)

variable {pinned : Bool} {c : Cell} {vs : List Value} {a bytes objects : Nat} {o : Object}
  {v : Value}

variable {L : Linkage} {h h1 h2 g g1 g2 k1 k2 : Host} {α β : Type}

/-! ## Anchors -/

/-- An address that a scanned word, a registered slot or the exception holds. -/
def IsAnchor (h : Host) (a : Nat) : Prop :=
  UInt64.ofNat a ∈ h.stack.scan ∨
  (∃ slot ∈ h.roots.slots, ∃ v, h.slots[slot]? = some v ∧ v.address? = some a) ∨
  (∃ v, h.exception = some v ∧ v.address? = some a)

/-- A value that a collection keeps alive. Classes are kept in any case. -/
def Anchored (h : Host) (v : Value) : Prop :=
  v.tag = .cls ∨ ∀ a : Nat, v.address? = some a → h.IsAnchor a

theorem Anchored.congr (hv : h.Anchored v) (hstk : g.stack = h.stack) (hrts : g.roots = h.roots)
    (hslt : g.slots = h.slots) (hexc : g.exception = h.exception) : g.Anchored v := by
  unfold Anchored IsAnchor at *
  rw [hstk, hrts, hslt, hexc]
  exact hv

theorem SameFrame.anchored (hs : SameFrame h g) (hv : h.Anchored v) : g.Anchored v :=
  hv.congr hs.stack hs.roots hs.slots hs.exception

theorem address_lt (ho : h.Orderly) (hc : h.heap.cells[a]? = some c) : a < 0x10000000000000000 := by
  have := ho.wellFormed.lt_next hc
  have := ho.wellFormed.next_high
  omega

theorem retained_of_anchored (ho : h.Orderly)
    (hpinned : ∀ (a : Nat) (c : Cell), h.heap.cells[a]? = some c → (c.pinned = true ↔ c.object.kind = .cls))
    (hsized : ∀ (a : Nat) (c : Cell), h.heap.cells[a]? = some c → 0 < c.size) (hv : v.LiveIn h.heap)
    (hanch : h.Anchored v) (ha : v.address? = some a) : h.Retained a := by
  have hmem := hv.mem ha
  obtain ⟨c, hc⟩ := (NatMap.mem_iff_getElem? _ _).mp hmem
  rcases hanch with hcls | hanchor
  · -- classes are pinned
    cases v <;> simp [Value.tag] at hcls
    cases ha
    obtain ⟨o, hget, hkind⟩ := Heap.kindAt_eq_some_iff.mp hv
    obtain ⟨d, hd, rfl⟩ := Heap.get?_eq_some_iff.mp hget
    exact .inr ⟨d, hd, (hpinned _ d hd).mpr hkind⟩
  · refine .inl (.root ?_ hmem)
    rcases hanchor a ha with hword | hslot | hexc
    · refine .inl ⟨_, hword, ?_⟩
      rw [UInt64.toNat_ofNat_of_lt' (address_lt ho hc)]
      exact Heap.ownerOf_address ho.wellFormed hc (hsized a c hc)
    · exact .inr (.inl hslot)
    · exact .inr (.inr hexc)

theorem liveIn_collected (ho : h.Orderly) (ht : h.heap.Typed L) (hv : v.LiveIn h.heap)
    (hanch : h.Anchored v) : v.LiveIn h.collected := by
  refine hv.mono fun a k ha hk => ?_
  rw [kindAt_collected ho (retained_of_anchored ho ht.pinned ht.sized hv hanch ha), hk]

theorem retained_of_reference (ht : h.heap.Typed L) {b : Nat} (hr : h.Retained a)
    (hc : h.heap.cells[a]? = some c) (hb : b ∈ c.object.references) : h.Retained b := by
  have hlv := ht.live a c.object (Heap.get?_eq_some_iff.mpr ⟨c, hc, rfl⟩)
  rcases hr with hr | ⟨d, hd, hpinned⟩
  · exact .inl (.follow hr hc hb (hlv.mem hb))
  · -- a pinned object is a class and refers to nothing
    cases hc.symm.trans hd
    have hkind := (ht.pinned a c hc).mp hpinned
    cases ho : c.object <;> simp [ho, Object.kind] at hkind
    simp [ho, Object.references] at hb

theorem typed_collected (ho : h.Orderly) (ht : h.heap.Typed L) : h.collected.Typed L := by
  constructor
  case live =>
    intro a o hget
    obtain ⟨c, hc, rfl⟩ := Heap.get?_eq_some_iff.mp hget
    obtain ⟨hr, hc⟩ := getElem?_of_collected ho hc
    refine (ht.live a _ (Heap.get?_eq_some_iff.mpr ⟨c, hc, rfl⟩)).mono fun b k hb hk => ?_
    rw [kindAt_collected ho (retained_of_reference ht hr hc hb), hk]
  case pinned => exact fun a c hc => ht.pinned a c (getElem?_of_collected ho hc).2
  case sized => exact fun a c hc => ht.sized a c (getElem?_of_collected ho hc).2

theorem grown_collected (ho : h.Orderly) : h.heap.Grown h.collected := by
  refine ⟨Nat.le_of_eq (nextFree_collected h).symm, fun a o _ hget => ?_⟩
  obtain ⟨c, hc, rfl⟩ := Heap.get?_eq_some_iff.mp hget
  exact ⟨_, Heap.get?_eq_some_iff.mpr ⟨c, (getElem?_of_collected ho hc).2, rfl⟩, .refl _⟩

/-! ## Twins -/

/-- Hosts that differ at most in their thresholds and in objects that nothing holds on to. -/
structure Mirror (L : Linkage) (h1 h2 : Host) : Prop where
  orderly₁ : h1.Orderly
  orderly₂ : h2.Orderly
  heaps : Heap.Twin L h1.heap h2.heap
  memoryLimit : h2.config.memoryLimit = h1.config.memoryLimit
  dictBuckets : h2.config.dictBuckets = h1.config.dictBuckets
  slots : h2.slots = h1.slots
  roots : h2.roots = h1.roots
  stack : h2.stack = h1.stack
  checkpoints : h2.checkpoints = h1.checkpoints
  exception : h2.exception = h1.exception
  arguments : h2.arguments = h1.arguments
  console : h2.console = h1.console
  caught : ∀ v, h1.exception = some v → Live h1.heap h2.heap v

/-- Such hosts in which the bottom of the scanned part of the stack lies below whatever the stack
will be cut to. -/
structure Twin (L : Linkage) (h1 h2 : Host) : Prop extends Mirror L h1 h2 where
  bottom : h1.stack.bottom ≤ h1.stack.depth
  bottoms : ∀ c ∈ h1.checkpoints, h1.stack.bottom ≤ c.stack

/-- What later hosts keep of earlier ones: anchored values are alive, and objects are what they
were. -/
structure Kept (h1 h2 g1 g2 : Host) : Prop where
  live : ∀ v, h1.Anchored v → Live h1.heap h2.heap v → Live g1.heap g2.heap v
  grown1 : h1.heap.Grown g1.heap
  grown2 : h2.heap.Grown g2.heap

/-- Twins that came from twins by changes of the heap and the console only. -/
structure Onward (L : Linkage) (h1 h2 g1 g2 : Host) : Prop extends Kept h1 h2 g1 g2 where
  twin : Twin L g1 g2
  frame : SameFrame h1 g1
  frame2 : SameFrame h2 g2

namespace Mirror

theorem symm (hm : Mirror L h1 h2) : Mirror L h2 h1 := by
  refine ⟨hm.orderly₂, hm.orderly₁, hm.heaps.symm, hm.memoryLimit.symm, hm.dictBuckets.symm,
    hm.slots.symm, hm.roots.symm, hm.stack.symm, hm.checkpoints.symm, hm.exception.symm,
    hm.arguments.symm, hm.console.symm, ?_⟩
  rw [hm.exception]
  exact fun v hv => (hm.caught v hv).symm

theorem left (hm : Mirror L h1 h2) : Mirror L h1 h1 :=
  ⟨hm.orderly₁, hm.orderly₁, hm.heaps.left, rfl, rfl, rfl, rfl, rfl, rfl, rfl, rfl, rfl,
    fun v hv => ⟨(hm.caught v hv).1, (hm.caught v hv).1⟩⟩

end Mirror

namespace Twin

theorem symm (ht : Twin L h1 h2) : Twin L h2 h1 := by
  refine ⟨ht.toMirror.symm, ?_, ?_⟩
  · rw [ht.stack]
    exact ht.bottom
  · rw [ht.stack, ht.checkpoints]
    exact ht.bottoms

theorem anchored (ht : Twin L h1 h2) (hv : h1.Anchored v) : h2.Anchored v :=
  hv.congr ht.stack ht.roots ht.slots ht.exception

end Twin

namespace Kept

theorem refl (h1 h2 : Host) : Kept h1 h2 h1 h2 :=
  ⟨fun _ _ hv => hv, .refl _, .refl _⟩

theorem trans (hg : Kept h1 h2 g1 g2) (hfr : SameFrame h1 g1) (gk : Kept g1 g2 k1 k2) :
    Kept h1 h2 k1 k2 :=
  ⟨fun v ha hv => gk.live v (hfr.anchored ha) (hg.live v ha hv), hg.grown1.trans gk.grown1,
    hg.grown2.trans gk.grown2⟩

end Kept

namespace Onward

theorem refl (ht : Twin L h1 h2) : Onward L h1 h2 h1 h2 :=
  ⟨.refl _ _, ht, .refl _, .refl _⟩

theorem trans (hg : Onward L h1 h2 g1 g2) (gk : Onward L g1 g2 k1 k2) : Onward L h1 h2 k1 k2 :=
  ⟨hg.toKept.trans hg.frame gk.toKept, gk.twin, hg.frame.trans gk.frame, hg.frame2.trans gk.frame2⟩

end Onward

/-! ## Collections -/

namespace Collects

theorem frame (hc : Collects h g) : SameFrame h g := by
  induction hc with
  | refl => exact .refl h
  | collect _ ih => exact ih.trans (.heap _ _)

theorem mirror (hc : Collects h1 g1) (hm : Mirror L h1 h2) : Mirror L g1 h2 := by
  induction hc with
  | refl => exact hm
  | collect _ hg =>
    refine ⟨orderly_collected hg.orderly₁, hg.orderly₂,
      ⟨typed_collected hg.orderly₁ hg.heaps.typed1, hg.heaps.typed2,
        (nextFree_collected _).trans hg.heaps.next, ?_⟩,
      hg.memoryLimit, hg.dictBuckets, hg.slots, hg.roots, hg.stack, hg.checkpoints, hg.exception,
      hg.arguments, hg.console, ?_⟩
    · intro a c1 c2 hc1 hc2
      exact hg.heaps.agree a c1 c2 (getElem?_of_collected hg.orderly₁ hc1).2 hc2
    · intro v hv
      have hlv := hg.caught v hv
      refine ⟨liveIn_collected hg.orderly₁ hg.heaps.typed1 hlv.1 (.inr fun a ha => ?_), hlv.2⟩
      exact .inr (.inr ⟨v, hv, ha⟩)

theorem twin (hc : Collects h1 g1) (ht : Twin L h1 h2) : Twin L g1 h2 := by
  refine ⟨hc.mirror ht.toMirror, ?_, ?_⟩
  · rw [hc.frame.stack]
    exact ht.bottom
  · rw [hc.frame.stack, hc.frame.checkpoints]
    exact ht.bottoms

theorem liveIn (hc : Collects h g) (ho : h.Orderly) (ht : h.heap.Typed L) (hv : v.LiveIn h.heap)
    (ha : h.Anchored v) : g.heap.Typed L ∧ v.LiveIn g.heap := by
  induction hc with
  | refl => exact ⟨ht, hv⟩
  | collect hc ih =>
    obtain ⟨hg, hv⟩ := ih
    exact ⟨typed_collected (hc.orderly ho) hg,
      liveIn_collected (hc.orderly ho) hg hv (hc.frame.anchored ha)⟩

theorem grown (hc : Collects h g) (ho : h.Orderly) : h.heap.Grown g.heap := by
  induction hc with
  | refl => exact .refl _
  | collect hc ih => exact ih.trans (grown_collected (hc.orderly ho))

theorem onward (hc1 : Collects h1 g1) (hc2 : Collects h2 g2) (ht : Twin L h1 h2) :
    Onward L h1 h2 g1 g2 where
  live _ ha hv :=
    ⟨(hc1.liveIn ht.orderly₁ ht.heaps.typed1 hv.1 ha).2,
      (hc2.liveIn ht.orderly₂ ht.heaps.typed2 hv.2 (ht.anchored ha)).2⟩
  grown1 := hc1.grown ht.orderly₁
  grown2 := hc2.grown ht.orderly₂
  twin := (hc2.twin (hc1.twin ht).symm).symm
  frame := hc1.frame
  frame2 := hc2.frame

end Collects

/-- A heap that is left by some collections. -/
def CollectsTo (h : Host) (k : Heap) : Prop :=
  ∃ g, Collects h g ∧ g.heap = k

theorem CollectsTo.elements {k : Heap} (hc : CollectsTo h k) (ho : h.Orderly) (ht : k.Typed L)
    (ha : Value.LiveIn k (.array a)) : k.elements a = h.heap.elements a := by
  obtain ⟨g, hc, rfl⟩ := hc
  obtain ⟨o, hget, hkind⟩ := Heap.kindAt_eq_some_iff.mp ha
  have harr : ∃ p, o = .array p := by
    cases o <;> simp [Object.kind] at hkind
    exact ⟨_, rfl⟩
  obtain ⟨p, rfl⟩ := harr
  have hold := hc.get? ho hget
  unfold Heap.elements Heap.arrayAt Heap.object
  rw [hget, hold]
  cases hb : p.buffer with
  | none => simp only [bind, Except.bind, hb]
  | some b =>
    have hfits : p.Fits g.heap := ht.live a _ hget
    obtain ⟨n, hn, -⟩ := hfits.buffer hb
    obtain ⟨q, hq, -⟩ := Heap.kindAt_eq_some_iff.mp hn
    simp only [bind, Except.bind, hb, hq, hc.get? ho hq]

/-- The end of a program for want of memory, with the host left whole. -/
def OutOfMemory (L : Linkage) (h : Host) (r : EStateM.Result Interrupt Host α) : Prop :=
  ∃ requested live limit g, r = .error (.fatal (.outOfMemory requested live limit)) g ∧
    Mirror L g g ∧ SameFrame h g

theorem Collects.outOfMemory (hc : Collects h g) (hm : Mirror L h h) (requested live limit : Nat) :
    OutOfMemory L h
      (.error (.fatal (.outOfMemory requested live limit)) g : Result α) :=
  ⟨requested, live, limit, g, rfl, (hc.mirror hm).left, hc.frame⟩

/-! ## Actions on twins -/

/-- How an action may end in two hosts: in the same way, with twins left behind. That one of the two
runs out of memory is not excluded. Where sizes overflow the action may have come to different
points, but nothing more was printed. No other fault is possible. -/
inductive Alike (L : Linkage) (h1 h2 : Host) {α : Type} (Q : α → Heap → Heap → Prop) :
    EStateM.Result Interrupt Host α → EStateM.Result Interrupt Host α → Prop
  | ok {a : α} {g1 g2 : Host} (onward : Onward L h1 h2 g1 g2) (post : Q a g1.heap g2.heap) :
      Alike L h1 h2 Q (.ok a g1) (.ok a g2)
  | raise {v : Value} {g1 g2 : Host} (twin : Twin L g1 g2) (raised : Raised v h1 g1)
      (kept : Kept h1 h2 g1 g2) : Alike L h1 h2 Q (.error (.raise v) g1) (.error (.raise v) g2)
  | fatal {e : FatalError} {g1 g2 : Host} (mirror : Mirror L g1 g2) (ended : Ended e h1 g1) :
      Alike L h1 h2 Q (.error (.fatal e) g1) (.error (.fatal e) g2)
  | overflow {g1 g2 : Host} (console : g2.console = g1.console) :
      Alike L h1 h2 Q (.error (.fault .overflow) g1) (.error (.fault .overflow) g2)
  | left {r₁ r₂ : EStateM.Result Interrupt Host α} (out : OutOfMemory L h1 r₁) :
      Alike L h1 h2 Q r₁ r₂
  | right {r₁ r₂ : EStateM.Result Interrupt Host α} (out : OutOfMemory L h2 r₂) :
      Alike L h1 h2 Q r₁ r₂

/-- An action runs alike from two hosts. -/
abbrev Matched (L : Linkage) (h1 h2 : Host) {α : Type} (Q : α → Heap → Heap → Prop) (x : Act α) :
    Prop :=
  Alike L h1 h2 Q (x h1) (x h2)

theorem OutOfMemory.bind {x : Act α} (hx : OutOfMemory L h (x g)) (f : α → Act β) :
    OutOfMemory L h ((x >>= f) g) := by
  obtain ⟨requested, live, limit, k, hr, hk⟩ := hx
  exact ⟨requested, live, limit, k, bind_error hr, hk⟩

theorem OutOfMemory.trans {r : Result α} (hs : SameFrame h g)
    (hr : OutOfMemory L g r) : OutOfMemory L h r := by
  obtain ⟨requested, live, limit, k, hr, hm, hk⟩ := hr
  exact ⟨requested, live, limit, k, hr, hm, hs.trans hk⟩

namespace Alike

variable {Q R : α → Heap → Heap → Prop} {S : β → Heap → Heap → Prop}

theorem mono {r1 r2 : Result α} (hr : Alike L h1 h2 Q r1 r2)
    (hQ : ∀ a k1 k2, Q a k1 k2 → R a k1 k2) : Alike L h1 h2 R r1 r2 := by
  cases hr with
  | ok onward post => exact .ok onward (hQ _ _ _ post)
  | raise twin raised kept => exact .raise twin raised kept
  | fatal mirror ended => exact .fatal mirror ended
  | overflow console => exact .overflow console
  | left out => exact .left out
  | right out => exact .right out

theorem trans {r1 r2 : Result α} (hg : Onward L h1 h2 g1 g2)
    (hr : Alike L g1 g2 Q r1 r2) : Alike L h1 h2 Q r1 r2 := by
  cases hr with
  | ok onward post => exact .ok (hg.trans onward) post
  | raise twin raised kept =>
    exact .raise twin (hg.frame.raised raised) (hg.toKept.trans hg.frame kept)
  | fatal mirror ended => exact .fatal mirror (hg.frame.ended ended)
  | overflow console => exact .overflow console
  | left out => exact .left (out.trans hg.frame)
  | right out => exact .right (out.trans hg.frame2)

theorem pure (ht : Twin L h1 h2) {a : α} (ha : Q a h1.heap h2.heap) :
    Alike L h1 h2 Q ((Pure.pure a : Act α) h1) ((Pure.pure a : Act α) h2) :=
  .ok (.refl ht) ha

theorem bind {x : Act α} {f : α → Act β} (hx : Alike L h1 h2 Q (x h1) (x h2))
    (hf : ∀ a g1 g2, Onward L h1 h2 g1 g2 → Q a g1.heap g2.heap →
      Alike L g1 g2 S (f a g1) (f a g2)) :
    Alike L h1 h2 S ((x >>= f) h1) ((x >>= f) h2) := by
  generalize hr1 : x h1 = r1 at hx
  generalize hr2 : x h2 = r2 at hx
  cases hx with
  | ok onward post =>
    rw [bind_ok hr1, bind_ok hr2]
    exact .trans onward (hf _ _ _ onward post)
  | raise twin raised kept =>
    rw [bind_error hr1, bind_error hr2]
    exact .raise twin raised kept
  | fatal mirror ended =>
    rw [bind_error hr1, bind_error hr2]
    exact .fatal mirror ended
  | overflow console =>
    rw [bind_error hr1, bind_error hr2]
    exact .overflow console
  | left out => exact .left (OutOfMemory.bind (hr1 ▸ out) f)
  | right out => exact .right (OutOfMemory.bind (hr2 ▸ out) f)

theorem map {x : Act α} {f : α → β} (hx : Alike L h1 h2 Q (x h1) (x h2))
    (hf : ∀ a k1 k2, Q a k1 k2 → S (f a) k1 k2) :
    Alike L h1 h2 S ((f <$> x) h1) ((f <$> x) h2) := by
  rw [map_eq_pure_bind]
  exact hx.bind fun a g1 g2 hg ha => .pure hg.twin (hf a _ _ ha)

theorem inspect_bind (ht : Twin L h1 h2) {k : Heap → Except Fault α} {P : α → Prop}
    {f : α → Act β} (hk : Reads (k h1.heap) (k h2.heap) P)
    (hf : ∀ a, P a → Alike L h1 h2 S (f a h1) (f a h2)) :
    Alike L h1 h2 S ((inspect k >>= f) h1) ((inspect k >>= f) h2) := by
  have hsame := hk.same
  cases hr : k h1.heap with
  | ok a =>
    have hr2 : k h2.heap = .ok a := hsame ▸ hr
    rw [bind_ok (inspect_ok hr), bind_ok (inspect_ok hr2)]
    exact hf a (hk.ok a hr)
  | error e =>
    have hr2 : k h2.heap = .error e := hsame ▸ hr
    rw [bind_error (inspect_error hr), bind_error (inspect_error hr2)]
    obtain rfl := hk.overflow e hr
    exact .overflow ht.console

theorem sound_bind (ht : Twin L h1 h2) {r : Except Fault α} {f : α → Act β}
    (hr : ∀ e, r = .error e → e = .overflow)
    (hf : ∀ a, r = .ok a → Alike L h1 h2 S (f a h1) (f a h2)) :
    Alike L h1 h2 S ((sound r >>= f) h1) ((sound r >>= f) h2) := by
  cases r with
  | ok a => exact hf a rfl
  | error e =>
    obtain rfl := hr e rfl
    exact .overflow ht.console

end Alike

/-! ## Spilled values -/

theorem scan_pushValues (s : Stack) (vs : List Value) :
    (s.pushValues vs).scan =
      (s.words.toList ++ vs.flatMap fun v => [v.tagWord, v.word]).drop s.bottom := by
  obtain ⟨hwds, hbot⟩ := pushValues_words s vs
  unfold Stack.scan
  rw [hwds, hbot]
  simp

theorem Anchored.spilled (hv : h.Anchored v) (vs : List Value) : (h.spilled vs).Anchored v := by
  refine hv.imp_right fun hanchor a ha => ?_
  rcases hanchor a ha with hword | hrest
  · refine .inl ?_
    show _ ∈ (h.stack.pushValues vs).scan
    rw [scan_pushValues, List.drop_append]
    exact List.mem_append_left _ hword
  · exact .inr hrest

theorem anchored_spilled (hbot : h.stack.bottom ≤ h.stack.depth) (hv : v ∈ vs) :
    (h.spilled vs).Anchored v := by
  refine .inr fun a ha => .inl ?_
  show _ ∈ (h.stack.pushValues vs).scan
  rw [scan_pushValues, List.drop_append_of_le_length hbot]
  refine List.mem_append_right _ (List.mem_flatMap.mpr ⟨v, hv, ?_⟩)
  have hword : v.word = UInt64.ofNat a := by
    cases v <;> simp [Value.address?] at ha <;> simp [Value.word, ha]
  simp [hword]

theorem Mirror.withStack (hm : Mirror L h1 h2) (s : Stack) :
    Mirror L { h1 with stack := s } { h2 with stack := s } :=
  ⟨hm.orderly₁.withStack _, hm.orderly₂.withStack _, hm.heaps, hm.memoryLimit, hm.dictBuckets,
    hm.slots, hm.roots, rfl, hm.checkpoints, hm.exception, hm.arguments, hm.console, hm.caught⟩

theorem Mirror.cut (hm : Mirror L h1 h2) (n : Nat) :
    Mirror L { h1 with stack := h1.stack.truncate n } { h2 with stack := h2.stack.truncate n } := by
  rw [hm.stack]
  exact hm.withStack _

theorem OutOfMemory.unspilled {r : Result α}
    (hr : OutOfMemory L (h.spilled vs) r) :
    OutOfMemory L h (match (motive := _ → Result α) r with
      | .ok a g => .ok a { g with stack := g.stack.truncate h.stack.depth }
      | .error e g => .error e { g with stack := g.stack.truncate h.stack.depth }) := by
  obtain ⟨requested, live, limit, g, rfl, hm, hs⟩ := hr
  exact ⟨requested, live, limit, _, rfl, hm.cut _, hs.unspilled⟩

theorem depth_pushValues (s : Stack) (vs : List Value) :
    (s.pushValues vs).depth = s.depth + 2 * vs.length := by
  unfold Stack.depth
  rw [(pushValues_words s vs).1, Array.size_append]
  induction vs with
  | nil => simp
  | cons v rest ih =>
    simp only [List.size_toArray, List.flatMap_cons, List.length_append, List.length_cons,
      List.length_nil] at ih ⊢
    omega

theorem Twin.spilled (ht : Twin L h1 h2) (vs : List Value) :
    Twin L (h1.spilled vs) (h2.spilled vs) := by
  have hbot := (pushValues_words h1.stack vs).2
  have hs : h2.spilled vs = { h2 with stack := h1.stack.pushValues vs } := by
    rw [Host.spilled, ht.stack]
  rw [hs]
  refine ⟨ht.toMirror.withStack _, ?_, ?_⟩
  · show (h1.stack.pushValues vs).bottom ≤ (h1.stack.pushValues vs).depth
    rw [hbot, depth_pushValues]
    exact Nat.le_add_right_of_le ht.bottom
  · show ∀ c ∈ h1.checkpoints, (h1.stack.pushValues vs).bottom ≤ c.stack
    rw [hbot]
    exact ht.bottoms

theorem Twin.cut (ht : Twin L h1 h2) {n : Nat} (hn : h1.stack.bottom ≤ n) :
    Twin L { h1 with stack := h1.stack.truncate n } { h2 with stack := h2.stack.truncate n } := by
  refine ⟨ht.toMirror.cut n, ?_, ht.bottoms⟩
  have := ht.bottom
  show h1.stack.bottom ≤ (h1.stack.words.take n).size
  unfold Stack.depth at this
  simp
  omega

namespace Alike

variable {Q : α → Heap → Heap → Prop}

theorem withFrame (vs : List Value) (ht : Twin L h1 h2) {x : Act α}
    (hx : Twin L (h1.spilled vs) (h2.spilled vs) → (∀ v ∈ vs, (h1.spilled vs).Anchored v) →
      Alike L (h1.spilled vs) (h2.spilled vs) Q (x (h1.spilled vs)) (x (h2.spilled vs))) :
    Alike L h1 h2 Q (withFrame vs x h1) (withFrame vs x h2) := by
  have hx := hx (ht.spilled vs) fun v hv => anchored_spilled ht.bottom hv
  have hdep : h2.stack.depth = h1.stack.depth := by rw [ht.stack]
  have hbot : (h1.spilled vs).stack.bottom = h1.stack.bottom := (pushValues_words h1.stack vs).2
  rw [withFrame_eq, withFrame_eq]
  generalize x (h1.spilled vs) = r1 at hx
  generalize x (h2.spilled vs) = r2 at hx
  cases hx with
  | @ok a g1 g2 onward post =>
    refine .ok ⟨⟨fun v ha hv => onward.live v (ha.spilled vs) hv, onward.grown1, onward.grown2⟩, ?_,
      onward.frame.unspilled, onward.frame2.unspilled⟩ post
    rw [hdep]
    refine onward.twin.cut ?_
    rw [onward.frame.stack, hbot]
    exact ht.bottom
  | @raise v g1 g2 twin raised kept =>
    refine .raise ?_ raised.unspilled
      ⟨fun v ha hv => kept.live v (ha.spilled vs) hv, kept.grown1, kept.grown2⟩
    obtain ⟨c, -, -, hstk⟩ := raised.taken
    rw [hdep]
    refine twin.cut ?_
    rw [hstk]
    show (h1.spilled vs).stack.bottom ≤ _
    rw [hbot]
    exact ht.bottom
  | fatal mirror ended =>
    rw [hdep]
    exact .fatal (mirror.cut _) ended.unspilled
  | overflow console => exact .overflow console
  | left out => exact .left out.unspilled
  | right out => exact .right out.unspilled

/-! ## Placing and changing objects -/

theorem insert (ht : Twin L h1 h2) (hlive1 : o.LiveIn L h1.heap) (hlive2 : o.LiveIn L h2.heap)
    (hpin : pinned = true ↔ o.kind = .cls) (hsize : 0 < o.size) :
    Alike L h1 h2 (fun a k1 k2 => k1.get? a = some o ∧ k2.get? a = some o ∧
        (∀ v, Live h1.heap h2.heap v → Live k1 k2 v) ∧
        ∀ (b : Nat) (p : Object), k1.get? b = some p → b = a ∨ h1.heap.get? b = some p)
      (Host.insert o pinned h1) (Host.insert o pinned h2) := by
  have hnext := ht.heaps.next
  have hleaves1 := (Mild.insert o pinned).leaves h1 ht.orderly₁
  have hleaves2 := (Mild.insert o pinned).leaves h2 ht.orderly₂
  rw [insert_eq] at hleaves1 hleaves2 ⊢
  rw [insert_eq, ← hnext]
  rw [← hnext] at hleaves2
  by_cases hfit : h1.heap.nextFree + (headerSize + align o.size) < 0x10000000000000000
  case neg =>
    rw [if_neg hfit, if_neg hfit]
    exact .overflow ht.console
  case pos =>
    rw [if_pos hfit] at hleaves1 hleaves2 ⊢
    rw [if_pos hfit]
    have hw1 := ht.orderly₁.wellFormed
    have hw2 := ht.orderly₂.wellFormed
    have hkeep : ∀ v, Live h1.heap h2.heap v →
        Live (h1.heap.place { object := o, size := o.size, pinned })
          (h2.heap.place { object := o, size := o.size, pinned }) v := fun v hv =>
      ⟨Heap.liveIn_place hw1 _ hv.1, Heap.liveIn_place hw2 _ hv.2⟩
    have haddr : h2.heap.nextAddress = h1.heap.nextAddress := by
      rw [Heap.nextAddress, Heap.nextAddress, hnext]
    rw [haddr]
    refine .ok ⟨⟨fun v _ hv => hkeep v hv, Heap.grown_place _ _, Heap.grown_place _ _⟩,
      ⟨⟨hleaves1.1, hleaves2.1, ht.heaps.place hw1 hw2 hlive1 hlive2 hpin hsize, ht.memoryLimit,
        ht.dictBuckets, ht.slots, ht.roots, ht.stack, ht.checkpoints, ht.exception, ht.arguments,
        ht.console, fun v hv => hkeep v (ht.caught v hv)⟩, ht.bottom, ht.bottoms⟩, .heap _ _, .heap _ _⟩
      ⟨?_, ?_, hkeep, ?_⟩
    · rw [Heap.get?_place, if_pos rfl]
    · rw [Heap.get?_place, if_pos haddr]
    · intro b p hp
      rw [Heap.get?_place] at hp
      split at hp
      · exact .inl (Eq.symm ‹_›)
      · exact .inr hp

theorem change (ht : Twin L h1 h2) {f : Object → Object} (ho1 : h1.heap.get? a = some o)
    (ho2 : h2.heap.get? a = some o) (hbecomes : o.Becomes (f o)) (hlive1 : (f o).LiveIn L h1.heap)
    (hlive2 : (f o).LiveIn L h2.heap) :
    Alike L h1 h2 (fun _ k1 k2 => k1.get? a = some (f o) ∧ k2.get? a = some (f o) ∧
        (∀ v, Live h1.heap h2.heap v → Live k1 k2 v) ∧
        ∀ b : Nat, b ≠ a → k1.get? b = h1.heap.get? b)
      (Host.change a f h1) (Host.change a f h2) := by
  have hof1 : ∀ p, h1.heap.get? a = some p → p = o := fun p hp =>
    Option.some.inj (hp.symm.trans ho1)
  have hof2 : ∀ p, h2.heap.get? a = some p → p = o := fun p hp =>
    Option.some.inj (hp.symm.trans ho2)
  have hkeep : ∀ v, Live h1.heap h2.heap v → Live (h1.heap.modify a f) (h2.heap.modify a f) v :=
    fun v hv => ⟨Heap.liveIn_modify (fun p hp => hof1 p hp ▸ hbecomes.kind) hv.1,
      Heap.liveIn_modify (fun p hp => hof2 p hp ▸ hbecomes.kind) hv.2⟩
  have horderly1 := orderly_change ht.orderly₁ a f
  have horderly2 := orderly_change ht.orderly₂ a f
  refine .ok ⟨⟨fun v _ hv => hkeep v hv, Heap.grown_modify _ fun p hp => hof1 p hp ▸ hbecomes,
      Heap.grown_modify _ fun p hp => hof2 p hp ▸ hbecomes⟩,
    ⟨⟨horderly1, horderly2, ht.heaps.modify ho1 ho2 hbecomes.kind hlive1 hlive2, ht.memoryLimit,
      ht.dictBuckets, ht.slots, ht.roots, ht.stack, ht.checkpoints, ht.exception, ht.arguments,
      ht.console, fun v hv => hkeep v (ht.caught v hv)⟩, ht.bottom, ht.bottoms⟩, .heap _ _, .heap _ _⟩
    ⟨?_, ?_, hkeep, ?_⟩
  · rw [Heap.get?_modify, if_pos rfl, ho1]
    rfl
  · rw [Heap.get?_modify, if_pos rfl, ho2]
    rfl
  · intro b hb
    rw [Heap.get?_modify, if_neg (Ne.symm hb)]

theorem reserve (ht : Twin L h1 h2) (hobjs : objects ≤ 2)
    (hfit : h1.heap.nextFree + bytes < 0x10000000000000000) :
    Alike L h1 h2 (fun _ k1 k2 => CollectsTo h1 k1 ∧ CollectsTo h2 k2)
      (Host.reserve objects bytes h1) (Host.reserve objects bytes h2) := by
  have hnext := ht.heaps.next
  have hbelow1 := ht.orderly₁.wellFormed.bytes_below
  have hbelow2 := ht.orderly₂.wellFormed.bytes_below
  have hcases1 := reserve_cases ht.orderly₁ hobjs bytes
  have hcases2 := reserve_cases ht.orderly₂ hobjs bytes
  generalize Host.reserve objects bytes h1 = r1 at hcases1
  generalize Host.reserve objects bytes h2 = r2 at hcases2
  cases hcases1 with
  | outOfMemory collects => exact .left (collects.outOfMemory ht.toMirror.left ..)
  | overflow _ large => omega
  | ok roomy1 =>
    cases hcases2 with
    | outOfMemory collects => exact .right (collects.outOfMemory ht.toMirror.symm.left ..)
    | overflow _ large => omega
    | ok roomy2 =>
      exact .ok (roomy1.collects.onward roomy2.collects ht)
        ⟨⟨_, roomy1.collects, rfl⟩, ⟨_, roomy2.collects, rfl⟩⟩

end Alike

/-! ## Allocation -/

theorem overflow_of_footprint {size : Nat} {e : Fault} (he : Heap.footprint size = .error e) :
    e = .overflow := by
  unfold Heap.footprint Heap.sum64 at he
  split at he
  · cases he
  · exact (Except.error.inj he).symm

/-- The memory or the addresses are used up, and nothing was printed. -/
def Exhausted (L : Linkage) (h : Host) (r : EStateM.Result Interrupt Host α) : Prop :=
  OutOfMemory L h r ∨ ∃ g, r = .error (.fault .overflow) g ∧ g.console = h.console

namespace Exhausted

/-- Where there is room for the first objects, the addresses may still be used up by the later
ones. -/
theorem reserve_bind (hm : Mirror L h h) (hc : Collects h g) (hobjs : objects ≤ 2)
    {f : Unit → Act α} (hf : ∀ k, Collects h k → Exhausted L h (f () k)) :
    Exhausted L h ((reserve objects bytes >>= f) g) := by
  have hcases := reserve_cases (hc.orderly hm.orderly₁) hobjs bytes
  generalize hr : reserve objects bytes g = r at hcases
  cases hcases with
  | ok roomy =>
    rw [bind_ok hr]
    exact hf _ (hc.trans roomy.collects)
  | outOfMemory collects =>
    rw [bind_error hr]
    exact .inl ((hc.trans collects).outOfMemory hm ..)
  | @overflow k collects large =>
    exact .inr ⟨k, bind_error hr, (hc.trans collects).console⟩

end Exhausted

namespace Alike

variable {Q : α → Heap → Heap → Prop}

theorem exhausted {r1 r2 : Result α} (hconsole : h2.console = h1.console)
    (hr1 : Exhausted L h1 r1) (hr2 : Exhausted L h2 r2) : Alike L h1 h2 Q r1 r2 := by
  rcases hr1 with hout | ⟨g1, rfl, hg1⟩
  · exact .left hout
  · rcases hr2 with hout | ⟨g2, rfl, hg2⟩
    · exact .right hout
    · exact .overflow (by rw [hg1, hg2, hconsole])

/-- A new object. What it refers to has to outlive the collections that make room for it. Whatever
else is there afterwards was there before. -/
theorem allocate (ht : Twin L h1 h2)
    (hkeep : ∀ g1 g2, Onward L h1 h2 g1 g2 → CollectsTo h1 g1.heap → CollectsTo h2 g2.heap → o.LiveIn L g1.heap ∧ o.LiveIn L g2.heap)
    (hpin : pinned = true ↔ o.kind = .cls) (hsize : 0 < o.size) :
    Alike L h1 h2 (fun a k1 k2 => k1.get? a = some o ∧ k2.get? a = some o ∧
        ∀ (b : Nat) (p : Object), k1.get? b = some p → b = a ∨ h1.heap.get? b = some p)
      (Host.allocate o pinned h1) (Host.allocate o pinned h2) := by
  unfold Host.allocate
  refine .sound_bind ht (fun _ => overflow_of_footprint) fun bytes hbytes => ?_
  have hbytes := footprint_ok hbytes
  by_cases hfit : h1.heap.nextFree + bytes < 0x10000000000000000
  · refine (Alike.reserve ht (by omega) hfit).bind fun _ g1 g2 hg hc => ?_
    obtain ⟨hlive1, hlive2⟩ := hkeep g1 g2 hg hc.1 hc.2
    refine (Alike.insert hg.twin hlive1 hlive2 hpin hsize).mono fun a k1 k2 hQ =>
      ⟨hQ.1, hQ.2.1, fun b p hp => (hQ.2.2.2 b p hp).imp_right fun hp => ?_⟩
    obtain ⟨⟨g, hcollects, hheap⟩, -⟩ := hc
    exact hcollects.get? ht.orderly₁ (hheap ▸ hp)
  · have hfails : ∀ h : Host, Mirror L h h → h.heap.nextFree = h1.heap.nextFree →
        Exhausted L h ((do Host.reserve 1 bytes; Host.insert o pinned) h) := by
      intro h hm hnext
      refine .reserve_bind hm .refl (by omega) fun g hc => .inr ⟨g, ?_, hc.console⟩
      rw [insert_eq, if_neg]
      rw [hc.nextFree, hnext, ← hbytes]
      exact hfit
    exact .exhausted ht.console (hfails h1 ht.toMirror.left rfl)
      (hfails h2 ht.toMirror.symm.left ht.heaps.next.symm)

end Alike

end Ember.Host
