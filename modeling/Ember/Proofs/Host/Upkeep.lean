import Ember.Proofs.Host.Memory

/-!
# Ember — what operations do to the heap

Seen from the heap, an operation is a run of few events: collections, new objects, new arrays with
their buffers, and changes of one object. A property of heaps that outlives these events outlives the
operations.

Main result: `Stable.inquiring`.
-/

namespace Ember

variable {P : Heap → Prop} {vs : List Value} {E : Value → Heap → Prop}

namespace Heap

/-! ## A new array -/

/-- The room of the buffer of a new array. -/
def arrayCapacity (elements : Array Value) : Nat :=
  max elements.size Host.minCapacity

/-- The address of the buffer of the next new array. -/
def nextBuffer (k : Heap) : Address :=
  k.nextAddress + 64

/-- An array without a buffer. -/
def bareArray : Cell :=
  { object := .array { len := 0, capacity := 0, buffer := none }, size := 24, pinned := false }

/-- The heap with a new array and, behind it, its buffer. -/
def withArray (k : Heap) (elements : Array Value) : Heap :=
  let buffer : Object :=
    .buffer { owner := k.nextAddress, elements := Host.storage elements (arrayCapacity elements) }
  ((k.place bareArray).place
      { object := buffer, size := buffer.size, pinned := false }).modify k.nextAddress fun
    | .array _ =>
      .array { len := elements.size, capacity := arrayCapacity elements, buffer := some k.nextBuffer }
    | o => o

theorem nextAddress_bareArray (k : Heap) : (k.place bareArray).nextAddress = k.nextBuffer := by
  simp [nextAddress, nextBuffer, place, bareArray, Cell.footprint, align, headerSize]

theorem nextAddress_ne_nextBuffer (k : Heap) : k.nextAddress ≠ k.nextBuffer :=
  Nat.ne_of_lt (Nat.lt_add_of_pos_right (by decide))

theorem get?_withArray (k : Heap) (elements : Array Value) (x : Nat) :
    (k.withArray elements).get? x =
      if x = k.nextAddress then
        some (.array { len := elements.size, capacity := arrayCapacity elements,
                       buffer := some k.nextBuffer })
      else if x = k.nextBuffer then
        some (.buffer { owner := k.nextAddress,
                        elements := Host.storage elements (arrayCapacity elements) })
      else k.get? x := by
  have hnext := nextAddress_bareArray k
  have hne := nextAddress_ne_nextBuffer k
  unfold withArray
  simp only [get?_modify, get?_place, hnext]
  by_cases ha : x = k.nextAddress
  · subst ha
    simp [Ne.symm hne, bareArray]
  · by_cases hb : x = k.nextBuffer
    · subst hb
      simp [hne, Ne.symm hne]
    · simp [ha, hb, Ne.symm ha, Ne.symm hb]

theorem nextFree_withArray (k : Heap) (elements : Array Value) :
    k.nextFree ≤ (k.withArray elements).nextFree :=
  Nat.le_trans (Nat.le_add_right ..) (Nat.le_add_right ..)

end Heap

namespace Host

variable {h g : Host} {α β : Type}

theorem Whole.spilled (hw : h.Whole) (vs : List Value) : (h.spilled vs).Whole :=
  hw.withStack _

theorem Mild.ok {x : Act α} (hx : Tame x) (hw : h.Whole) {a : α} (hr : x h = .ok a g) :
    g.Whole ∧ SameFrame h g := by
  have hlvs := hx.leaves h hw.1
  have hkeeps := hx.keeps h hw.1 hw.2
  rw [hr] at hlvs hkeeps
  exact ⟨⟨hlvs.1, hkeeps⟩, hlvs.2⟩

/-! ## Allocations -/

theorem Collects.eq (hc : Collects h g) : g = { h with heap := g.heap } := by
  induction hc with
  | refl => rfl
  | collect _ ih => rw [ih]

theorem Collects.unspilled (hc : Collects (h.spilled vs) g) :
    { g with stack := g.stack.truncate h.stack.depth } = { h with heap := g.heap } := by
  rw [hc.eq]
  exact congrArg (fun s => ({ h with heap := g.heap, stack := s } : Host))
    (truncate_pushValues_self h.stack vs)

/-- The bytes that a new array takes with its buffer. -/
def arrayRoom (elements : Array Value) : Nat :=
  64 + room (16 * max elements.size minCapacity)

theorem placeArray_cases (m : Host) (elements : Array Value) :
    let placing : Act Address := do
      let a ← insert (.array { len := 0, capacity := 0, buffer := none })
      let b ← insert (.buffer { owner := a, elements := storage elements (max elements.size minCapacity) })
      changeArray a fun _ =>
        { len := elements.size, capacity := max elements.size minCapacity, buffer := some b }
      return a
    placing m = .ok m.heap.nextAddress { m with heap := m.heap.withArray elements } ∨
      ∃ g, placing m = .error (.fault .overflow) g ∧
        0x10000000000000000 ≤ m.heap.nextFree + arrayRoom elements := by
  intro placing
  -- the array may find addresses where its buffer finds none any more
  by_cases hfst : m.heap.nextFree + (headerSize + align 24) < 0x10000000000000000
  · unfold placing
    rw [bind_ok ((insert_eq ..).trans (if_pos hfst)), bind_apply, insert_eq]
    split
    · rename_i b g heq
      split at heq
      · obtain ⟨rfl, rfl⟩ := EStateM.Result.ok.inj heq
        refine .inl ?_
        rw [bind_ok (changeArray_eq (o := { len := 0, capacity := 0, buffer := none }) ?_ _)]
        · show EStateM.Result.ok m.heap.nextAddress _ = _
          unfold Heap.withArray
          rw [← Heap.nextAddress_bareArray]
          rfl
        · show ((m.heap.place Heap.bareArray).place _).get? m.heap.nextAddress = _
          rw [Heap.get?_place, Heap.nextAddress_bareArray, if_neg, Heap.get?_place, if_pos rfl]
          · rfl
          · exact (Heap.nextAddress_ne_nextBuffer m.heap).symm
      · cases heq
    · rename_i e g heq
      split at heq
      · cases heq
      · rename_i hover
        obtain ⟨rfl, rfl⟩ := EStateM.Result.error.inj heq
        refine .inr ⟨_, rfl, ?_⟩
        have hover : ¬ m.heap.nextFree + 64 +
            room (16 * (storage elements (max elements.size minCapacity)).size) <
            0x10000000000000000 := hover
        rw [size_storage, Nat.max_eq_right (Nat.le_max_left ..)] at hover
        unfold arrayRoom
        omega
  · refine .inr ⟨_, bind_error ((insert_eq ..).trans (if_neg hfst)), ?_⟩
    have hfst : ¬ m.heap.nextFree + 64 < 0x10000000000000000 := hfst
    unfold arrayRoom
    omega

/-- How a request of an array ends. -/
inductive ArrayAllocates (h : Host) (elements : Array Value) :
    EStateM.Result Interrupt Host Address → Prop
  | ok {m : Host} (collects : Collects (h.spilled elements.toList) m) :
      ArrayAllocates h elements
        (.ok m.heap.nextAddress { h with heap := m.heap.withArray elements })
  | fatal {m : Host} {requested live limit : Nat}
      (collects : Collects (h.spilled elements.toList) m)
      (lacking : (h.spilled elements.toList).Lacks (arrayRoom elements)) : ArrayAllocates h elements
        (.error (.fatal (.outOfMemory requested live limit)) { h with heap := m.heap })
  | fault {m : Host} (large : 0x10000000000000000 ≤ h.heap.nextFree + arrayRoom elements) :
      ArrayAllocates h elements (.error (.fault .overflow) m)

theorem allocateArray_cases (ho : h.Orderly) (elements : Array Value) :
    ArrayAllocates h elements (allocateArray elements h) := by
  have ho' : (h.spilled elements.toList).Orderly := ho.withStack _
  unfold allocateArray
  rw [withFrame_eq, sound_bind_ok (show Heap.footprint 24 = .ok 64 from rfl)]
  by_cases hfit : room (16 * max elements.size minCapacity) < 0x10000000000000000
  · rw [sound_bind_ok (footprint_eq hfit)]
    -- room is made for the array and its buffer at once, before either is placed
    have hcases := reserve_cases ho' (Nat.le_refl 2) (arrayRoom elements)
    change Reserves _ _ _ (Host.reserve 2 (64 + room _) _) at hcases
    generalize hres : Host.reserve 2 (64 + room (16 * max elements.size minCapacity))
      (h.spilled elements.toList) = r at hcases
    cases hcases with
    | outOfMemory collects lacking =>
      rw [bind_error hres]
      simp only
      rw [collects.unspilled]
      exact .fatal collects lacking
    | overflow collects large =>
      rw [bind_error hres]
      have := ho.wellFormed.bytes_below
      exact .fault (Nat.le_trans large (Nat.add_le_add_right (Nat.le_of_add_left_le this) _))
    | ok roomy =>
      rename_i m
      rw [bind_ok hres]
      rcases placeArray_cases m elements with hplcd | ⟨g, hflt, large⟩
      · rw [hplcd]
        have hstk : ({ m with heap := m.heap.withArray elements,
                                stack := m.stack.truncate h.stack.depth } : Host) =
            { h with heap := m.heap.withArray elements } :=
          congrArg (fun k : Host => { k with heap := m.heap.withArray elements })
            roomy.collects.unspilled
        simp only [hstk]
        exact .ok roomy.collects
      · rw [hflt]
        rw [roomy.collects.nextFree] at large
        exact .fault large
  · have hover : Heap.footprint (16 * max elements.size minCapacity) = .error .overflow := if_neg hfit
    rw [hover]
    refine .fault ?_
    show _ ≤ h.heap.nextFree + (64 + room _)
    omega

/-- How the repetition of a text ends. -/
inductive Repeating (h : Host) : EStateM.Result Interrupt Host Value → Prop
  | ok {m : Host} (collects : Collects h m) (text : String) : Repeating h (.ok (.str m.heap.nextAddress)
      { m with heap := m.heap.place { object := .str text, size := (Object.str text).size, pinned := false } })
  | fatal {m : Host} {e : FatalError} (collects : Collects h m) : Repeating h (.error (.fatal e) m)
  | fault {m : Host} {f : Fault} : Repeating h (.error (.fault f) m)

theorem Repeating.sound_bind {r : Except Fault α} {f : α → Act Value}
    (hf : ∀ a, Repeating h (f a g)) : Repeating h ((sound r >>= f) g) := by
  cases r with
  | ok a => exact hf a
  | error e => exact .fault

theorem Repeating.reserve_bind (ho : h.Orderly) {bytes : Nat} {f : Unit → Act Value}
    (hc : Collects h g) (hf : ∀ m, Collects h m → Repeating h (f () m)) :
    Repeating h ((reserve 1 bytes >>= f) g) := by
  have hcases := reserve_cases (hc.orderly ho) (show 1 ≤ 2 by omega) bytes
  generalize hres : reserve 1 bytes g = r at hcases
  cases hcases with
  | ok roomy =>
    rw [bind_ok hres]
    exact hf _ (hc.trans roomy.collects)
  | outOfMemory collects lacking =>
    rw [bind_error hres]
    exact .fatal (hc.trans collects)
  | overflow collects large =>
    rw [bind_error hres]
    exact .fault

theorem repeated_cases (ho : h.Orderly) (text : String) (count : Int64) :
    Repeating h (repeated text count h) := by
  unfold repeated
  rw [get_bind]
  split
  · refine .sound_bind fun _ => .reserve_bind ho .refl fun k hk => .sound_bind fun _ =>
      .sound_bind fun _ => .reserve_bind ho hk fun m hm => ?_
    rw [bind_apply, insert_eq]
    split
    · rename_i a g heq
      split at heq
      · obtain ⟨rfl, rfl⟩ := EStateM.Result.ok.inj heq
        exact .ok hm _
      · cases heq
    · rename_i e g heq
      split at heq
      · cases heq
      · obtain ⟨rfl, rfl⟩ := EStateM.Result.error.inj heq
        exact .fault
  · exact .fatal .refl

/-! ## Failures -/

theorem raise_ne_ok (v : Value) (site : Location) (a : α) : raise v site h ≠ .ok a g := by
  unfold raise
  rw [get_bind]
  cases h.checkpoints with
  | cons c rest => exact nofun
  | nil =>
    simp only [bind_apply]
    split <;> exact nofun

theorem failure_ne_ok (site : Location) (message : String) (a : α) :
    failure site message h ≠ .ok a g := by
  unfold failure
  rw [bind_apply]
  split
  · exact raise_ne_ok _ site a
  · exact nofun

/-! ## Properties of heaps -/

/-- A property of heaps holds afterwards, and another one of the value and the heap if there is a
raise. Nothing is said after a fault. -/
def Upholds (P : Heap → Prop) (E : Value → Heap → Prop) : EStateM.Result Interrupt Host α → Prop
  | .ok _ g => P g.heap
  | .error (.raise v) g => P g.heap ∧ E v g.heap
  | .error (.fatal _) g => P g.heap
  | .error (.fault _) _ => True

theorem Upholds.bind {x : Act α} {f : α → Act β} (hx : Upholds P E (x h))
    (hf : ∀ a g, x h = .ok a g → P g.heap → Upholds P E (f a g)) : Upholds P E ((x >>= f) h) := by
  rw [bind_apply]
  cases hr : x h with
  | ok a g =>
    rw [hr] at hx
    exact hf a g hr hx
  | error e g =>
    rw [hr] at hx
    cases e <;> exact hx

theorem Upholds.inspect_bind {k : Heap → Except Fault α} {f : α → Act β}
    (hf : ∀ a, k h.heap = .ok a → Upholds P E (f a h)) : Upholds P E ((inspect k >>= f) h) := by
  cases ha : k h.heap with
  | ok a =>
    rw [bind_ok (inspect_ok ha)]
    exact hf a ha
  | error e =>
    rw [bind_error (inspect_error ha)]
    trivial

theorem Upholds.change {a : Nat} {f : Object → Object} (hP : P (h.heap.modify a f)) :
    Upholds P E (Host.change a f h) :=
  hP

theorem Upholds.withFrame {x : Act α} (hx : Upholds P E (x (h.spilled vs))) :
    Upholds P E (Host.withFrame vs x h) := by
  rw [withFrame_eq]
  cases hr : x (h.spilled vs) with
  | ok a g =>
    rw [hr] at hx
    exact hx
  | error e g =>
    rw [hr] at hx
    cases e <;> exact hx

/-- Actions that uphold a property of heaps and leave whole hosts whole. -/
structure Preserves (P : Heap → Prop) (E : Value → Heap → Prop) (x : Act α) : Prop where
  whole : ∀ h : Host, h.Whole → (afterwards x h).Whole
  upholds : ∀ h : Host, h.Whole → P h.heap → Upholds P E (x h)

namespace Preserves

variable {P : Heap → Prop} {E : Value → Heap → Prop} {x : Act α}

theorem pure (a : α) : Preserves P E (Pure.pure a : Act α) :=
  ⟨fun _ hw => hw, fun _ _ hP => hP⟩

theorem bind {f : α → Act β} (hx : Preserves P E x) (hf : ∀ a, Preserves P E (f a)) :
    Preserves P E (x >>= f) := by
  have hnext : ∀ {h g : Host} {a : α}, h.Whole → x h = .ok a g → g.Whole := by
    intro h g a hw hr
    have hwhole := hx.whole h hw
    unfold afterwards at hwhole
    rwa [hr] at hwhole
  exact ⟨fun h hw => afterwards_bind (hx.whole h hw) fun a g hr => (hf a).whole g (hnext hw hr),
    fun h hw hP => (hx.upholds h hw hP).bind fun a g hr hP => (hf a).upholds g (hnext hw hr) hP⟩

theorem inspect (k : Heap → Except Fault α) : Preserves P E (Host.inspect k) := by
  refine ⟨fun h hw => Mild.whole (.inspect k) hw, fun h _ hP => ?_⟩
  unfold Host.inspect
  cases k h.heap with
  | ok a => exact hP
  | error f => trivial

theorem get : Preserves P E (MonadState.get : Act Host) :=
  ⟨fun _ hw => hw, fun _ _ hP => hP⟩

theorem fault (f : Fault) : Preserves P E (Host.fault f : Act α) :=
  ⟨fun _ hw => hw, fun _ _ _ => trivial⟩

theorem sound (r : Except Fault α) : Preserves P E (Host.sound r) := by
  cases r with
  | ok a => exact .pure a
  | error f => exact .fault f

theorem discard (hx : Preserves P E x) : Preserves P E (Functor.discard x) := by
  have hmap : Functor.discard x = (do let _ ← x; Pure.pure PUnit.unit) := by
    rw [Functor.discard, map_const]
    exact map_eq_pure_bind _ _
  rw [hmap]
  exact hx.bind fun _ => .pure _

theorem withFrame (vs : List Value) (hx : Preserves P E x) : Preserves P E (Host.withFrame vs x) := by
  refine ⟨fun h hw => ?_, fun h hw hP => .withFrame (hx.upholds (h.spilled vs) (hw.spilled vs) hP)⟩
  have hwhole := hx.whole (h.spilled vs) (hw.spilled vs)
  unfold afterwards at *
  rw [withFrame_eq]
  cases hr : x (h.spilled vs) with
  | ok a g =>
    rw [hr] at hwhole
    exact hwhole.withStack _
  | error e g =>
    rw [hr] at hwhole
    exact hwhole.withStack _

theorem onStack (f : Stack → Stack) : Preserves P E (Host.onStack f) :=
  ⟨fun _ hw => hw.withStack _, fun _ _ hP => hP⟩

theorem restoring (depth : Nat) (hx : Preserves P E x) : Preserves P E (Host.restoring depth x) := by
  refine ⟨fun h hw => whole_restoring depth (hx.whole h hw), fun h hw hP => ?_⟩
  have hxh := hx.upholds h hw hP
  unfold Host.restoring
  cases hr : x h with
  | ok a g =>
    rw [hr] at hxh
    exact hxh
  | error e g =>
    rw [hr] at hxh
    cases e <;> exact hxh

end Preserves

/-- A property of heaps that outlives collections and new objects. -/
structure Durable (P : Heap → Prop) : Prop where
  collected : ∀ {h : Host}, h.Whole → P h.heap → P h.collected
  place : ∀ {k : Heap} (c : Cell), k.WellFormed → (∀ o, c.object ≠ .array o) → P k → P (k.place c)
  array : ∀ {k : Heap} (elements : Array Value), k.WellFormed → P k → P (k.withArray elements)

namespace Durable

variable {P : Heap → Prop} {E : Value → Heap → Prop} (hd : Durable P)
include hd

theorem collects (hw : h.Whole) (hP : P h.heap) (hc : Collects h g) : P g.heap := by
  induction hc with
  | refl => exact hP
  | collect hc ih => exact hd.collected ⟨hc.orderly hw.1, hw.2.collects hw.1 hc⟩ ih

theorem collect : Preserves P E Host.collect := by
  refine ⟨fun h => Mild.collect.whole, fun h hw hP => ?_⟩
  rw [collect_eq hw.1]
  exact hd.collected hw hP

theorem allocate {o : Object} {pinned : Bool} (harr : ∀ p, o ≠ .array p)
    (hpin : pinned = true ↔ o.kind = .cls) (hpos : 0 < o.size) :
    Preserves P E (Host.allocate o pinned) := by
  refine ⟨fun h => (tame_allocate harr hpin hpos).whole, fun h hw hP => ?_⟩
  have hcases := allocate_cases hw.1 o pinned
  generalize Host.allocate o pinned h = r at hcases
  cases hcases with
  | ok hc => exact hd.place _ (hc.orderly hw.1).wellFormed harr (hd.collects hw hP hc)
  | fatal hc => exact hd.collects hw hP hc
  | fault => trivial

theorem string (text : String) : Preserves P E (Host.string text) :=
  .bind (hd.allocate nofun (by simp [Object.kind]) (Nat.succ_pos _)) fun _ => .pure _

theorem allocateDict : Preserves P E Host.allocateDict :=
  .bind .get fun _ => .bind (.sound _) fun _ =>
    hd.allocate nofun (by simp [Object.kind]) (Nat.succ_pos _)

theorem newClass (name : String) : Preserves P E (Host.newClass name) :=
  .bind (hd.allocate nofun (by simp [Object.kind]) (Nat.succ_pos _)) fun _ => .pure _

theorem allocateArray (elements : Array Value) : Preserves P E (Host.allocateArray elements) := by
  refine ⟨fun h => (tame_allocateArray elements).whole, fun h hw hP => ?_⟩
  have hw' := hw.spilled elements.toList
  have hcases := allocateArray_cases hw.1 elements
  generalize Host.allocateArray elements h = r at hcases
  cases hcases with
  | ok hc => exact hd.array elements (hc.orderly hw'.1).wellFormed (hd.collects hw' hP hc)
  | fatal hc =>
    have hkept := hd.collects hw' hP hc
    exact hkept
  | fault => trivial

theorem repeated (text : String) (count : Int64) : Preserves P E (Host.repeated text count) := by
  refine ⟨fun h => (tame_repeated text count).whole, fun h hw hP => ?_⟩
  have hcases := repeated_cases hw.1 text count
  generalize Host.repeated text count h = r at hcases
  cases hcases with
  | ok hc text => exact hd.place _ (hc.orderly hw.1).wellFormed nofun (hd.collects hw hP hc)
  | fatal hc => exact hd.collects hw hP hc
  | fault => trivial

end Durable

/-- A durable property, with one of raised values that the message of a failure at a place has. -/
structure Stable (site : Location) (P : Heap → Prop) (E : Value → Heap → Prop) : Prop
    extends Durable P where
  raised : ∀ {k : Heap} (c : Cell) (message : String), k.WellFormed → P k →
    c.object = .str (site.text ++ ": " ++ message) → E (.str k.nextAddress) (k.place c)

namespace Stable

variable {site : Location} {P : Heap → Prop} {E : Value → Heap → Prop} (hs : Stable site P E)
include hs

omit hs in
theorem upholds_raise {v : Value} (hP : P h.heap) (hE : E v h.heap) (place : Location) :
    Upholds P E (raise v place h : Result α) := by
  unfold raise
  rw [get_bind]
  cases h.checkpoints with
  | cons c rest => exact ⟨hP, hE⟩
  | nil =>
    simp only
    unfold display
    cases hd : h.heap.display v with
    | ok text =>
      rw [bind_ok (inspect_ok hd)]
      exact hP
    | error e =>
      rw [bind_error (inspect_error hd)]
      trivial

theorem failure (message : String) : Preserves P E (Host.failure site message : Act α) := by
  refine ⟨fun h => (tame_failure site message).whole, fun h hw hP => ?_⟩
  unfold Host.failure Host.string
  rw [bind_assoc]
  have hcases := allocate_cases hw.1 (.str (site.text ++ ": " ++ message)) false
  generalize hr : Host.allocate (.str (site.text ++ ": " ++ message)) false h = r at hcases
  cases hcases with
  | ok hc =>
    have hwell := (hc.orderly hw.1).wellFormed
    have hkept := hs.collects hw hP hc
    rw [bind_ok hr]
    refine upholds_raise (hs.place _ hwell ?_ hkept) (hs.raised _ message hwell hkept rfl) site
    exact fun _ ho => nomatch ho
  | fatal hc =>
    rw [bind_error hr]
    exact hs.collects hw hP hc
  | fault =>
    rw [bind_error hr]
    trivial

theorem begin (cls : Value) (arguments : List Value) :
    Preserves P E (Host.begin cls arguments site) := by
  unfold Host.begin
  split
  · exact .bind .get fun _ => .restoring _ <| .bind (.onStack _) fun _ =>
      .bind hs.allocateDict fun _ =>
        .bind (.withFrame _ (hs.allocate nofun (by simp [Object.kind]) (Nat.succ_pos _))) fun _ =>
          .bind (.onStack _) fun _ => .bind (.inspect _) fun _ => .pure _
  · exact hs.failure _

/-- **What outlives collections and new objects outlives every operation that changes no object.** -/
theorem inquiring : Inquiring site (Preserves P E) where
  pure := .pure
  bind := .bind
  inspect := .inspect
  fault := .fault
  withFrame vs _ hx := hx.withFrame vs
  string := hs.string
  allocateArray := hs.allocateArray
  repeated := hs.repeated
  failure := hs.failure

end Stable

end Host

end Ember
