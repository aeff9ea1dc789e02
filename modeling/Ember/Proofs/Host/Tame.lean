import Ember.Proofs.Host.Operations
import Ember.Proofs.Host.Regular

/-!
# Ember — tame actions

Most actions of a host work on the heap and the console only. When such an action succeeds, the
slots, the two stacks, the checkpoints and the current exception are as before; when it raises, it
has taken the innermost checkpoint and cut both stacks to the depths recorded there, and nothing
else; and it ends the program for want of a handler only where no checkpoint is open. In every case
the heap is left well-formed, and a regular host stays regular.

Main results: `inquiring_tame`, `pervasive_tame`.
-/

namespace Ember.Host

variable {α : Type} {e : FatalError} {g h h1 h2 h3 : Host} {vs : List Value} {v : Value}

/-! ## The two ways to leave an action -/

/-- All but the heap and the console is as before. -/
structure SameFrame (h h' : Host) : Prop where
  config : h'.config = h.config
  slots : h'.slots = h.slots
  roots : h'.roots = h.roots
  stack : h'.stack = h.stack
  checkpoints : h'.checkpoints = h.checkpoints
  exception : h'.exception = h.exception
  arguments : h'.arguments = h.arguments

/-- A raise has taken the checkpoint `c`, and both stacks are cut to its depths. -/
structure Raised (v : Value) (h h' : Host) : Prop where
  config : h'.config = h.config
  slots : h'.slots = h.slots
  arguments : h'.arguments = h.arguments
  exception : h'.exception = some v
  taken : ∃ c, h.checkpoints = c :: h'.checkpoints ∧ h'.roots = h.roots.truncate c.roots ∧
    h'.stack = h.stack.truncate c.stack

/-- A fatal error leaves alone what is not in the heap, an exception is uncaught only where no
checkpoint is open, and the root stack is not at fault. -/
structure Ended (e : FatalError) (h h' : Host) : Prop where
  frame : SameFrame h h'
  uncaught : ∀ site message, e = .uncaught site message →
    h.checkpoints = [] ∧ ∃ loc : Location, site = loc.text
  balanced : ∀ count depth, e ≠ .rootUnderflow count depth

/-- How a tame action may leave a host. -/
def Leaves {α : Type} (h : Host) : EStateM.Result Interrupt Host α → Prop
  | .ok _ h' => h'.Orderly ∧ SameFrame h h'
  | .error (.raise v) h' => h'.Orderly ∧ Raised v h h'
  | .error (.fatal e) h' => h'.Orderly ∧ Ended e h h'
  | .error (.fault _) h' => h'.Orderly

/-- Actions that leave alone what is not in the heap, and that keep an invariant. -/
structure Mild (P : Host → Prop) {α : Type} (x : Act α) : Prop where
  leaves : ∀ h : Host, h.Orderly → Leaves h (x h)
  keeps : ∀ h : Host, h.Orderly → P h → P (final (x h))

/-- Actions that leave alone what is not in the heap, and regular hosts regular. -/
abbrev Tame {α : Type} (x : Act α) : Prop :=
  Mild Regular x

namespace SameFrame

theorem refl (h : Host) : SameFrame h h :=
  ⟨rfl, rfl, rfl, rfl, rfl, rfl, rfl⟩

theorem heap (h : Host) (heap : Heap) : SameFrame h { h with heap } :=
  ⟨rfl, rfl, rfl, rfl, rfl, rfl, rfl⟩

theorem console (h : Host) (console : Console) : SameFrame h { h with console } :=
  ⟨rfl, rfl, rfl, rfl, rfl, rfl, rfl⟩

theorem trans (h12 : SameFrame h1 h2) (h23 : SameFrame h2 h3) : SameFrame h1 h3 :=
  ⟨h23.config.trans h12.config, h23.slots.trans h12.slots, h23.roots.trans h12.roots,
    h23.stack.trans h12.stack, h23.checkpoints.trans h12.checkpoints,
    h23.exception.trans h12.exception, h23.arguments.trans h12.arguments⟩

theorem raised (h12 : SameFrame h1 h2) (h23 : Raised v h2 h3) : Raised v h1 h3 := by
  obtain ⟨c, hc, hrts, hstk⟩ := h23.taken
  refine ⟨h23.config.trans h12.config, h23.slots.trans h12.slots,
    h23.arguments.trans h12.arguments, h23.exception, c, ?_, ?_, ?_⟩
  · rw [← h12.checkpoints, hc]
  · rw [hrts, h12.roots]
  · rw [hstk, h12.stack]

theorem ended (h12 : SameFrame h1 h2) (h23 : Ended e h2 h3) : Ended e h1 h3 := by
  refine ⟨h12.trans h23.frame, ?_, h23.balanced⟩
  intro site message he
  have := h23.uncaught site message he
  rwa [h12.checkpoints] at this

end SameFrame

theorem Leaves.trans {r : Result α} (h12 : SameFrame h1 h2)
    (hr : Leaves h2 r) : Leaves h1 r := by
  match r, hr with
  | .ok _ _, ⟨ho, hs⟩ => exact ⟨ho, h12.trans hs⟩
  | .error (.raise _) _, ⟨ho, hs⟩ => exact ⟨ho, h12.raised hs⟩
  | .error (.fatal _) _, ⟨ho, hs⟩ => exact ⟨ho, h12.ended hs⟩
  | .error (.fault _) _, ho => exact ho

/-! ## Sequences -/

namespace Mild

variable {P : Host → Prop} {α β : Type}

theorem weaken {x : Act α} (hx : Mild P x) : Mild (fun _ => True) x :=
  ⟨hx.leaves, fun _ _ _ => trivial⟩

theorem pure (a : α) : Mild P (Pure.pure a : Act α) :=
  ⟨fun h ho => ⟨ho, .refl h⟩, fun _ _ hr => hr⟩

theorem bind {x : Act α} {f : α → Act β} (hx : Mild P x) (hf : ∀ a, Mild P (f a)) :
    Mild P (x >>= f) := by
  refine ⟨fun h ho => ?_, fun h ho hP => ?_⟩
  · have hxh := hx.leaves h ho
    rw [bind_apply]
    cases hr : x h with
    | ok a h' =>
      rw [hr] at hxh
      exact ((hf a).leaves h' hxh.1).trans hxh.2
    | error e h' =>
      rw [hr] at hxh
      cases e <;> exact hxh
  · have hxh := hx.leaves h ho
    have hxP := hx.keeps h ho hP
    rw [bind_apply]
    cases hr : x h with
    | ok a h' =>
      rw [hr] at hxh hxP
      exact (hf a).keeps h' hxh.1 hxP
    | error e h' =>
      rw [hr] at hxP
      exact hxP

theorem map {x : Act α} (f : α → β) (hx : Mild P x) : Mild P (f <$> x) := by
  rw [map_eq_pure_bind]
  exact hx.bind fun a => .pure (f a)

theorem get : Mild P (MonadState.get : Act Host) :=
  ⟨fun h ho => ⟨ho, .refl h⟩, fun _ _ hr => hr⟩

theorem fault (f : Fault) : Mild P (Host.fault f : Act α) :=
  ⟨fun _ ho => ho, fun _ _ hr => hr⟩

theorem fatal (he : ∀ site message, e ≠ .uncaught site message)
    (hrts : ∀ count depth, e ≠ .rootUnderflow count depth) : Mild P (Host.fatal e : Act α) :=
  ⟨fun h ho => ⟨ho, .refl h, fun site message heq => absurd heq (he site message), hrts⟩,
    fun _ _ hr => hr⟩

theorem sound (x : Except Fault α) : Mild P (Host.sound x) := by
  cases x with
  | ok a => exact .pure a
  | error f => exact .fault f

theorem inspect (f : Heap → Except Fault α) : Mild P (Host.inspect f) := by
  refine ⟨fun h ho => ?_, fun h ho hP => ?_⟩
  · unfold Host.inspect
    cases f h.heap with
    | ok a => exact ⟨ho, .refl h⟩
    | error e => exact ho
  · unfold Host.inspect
    cases f h.heap with
    | ok a => exact hP
    | error e => exact hP

theorem ite {p : Prop} [Decidable p] {x y : Act α} (hx : Mild P x) (hy : Mild P y) :
    Mild P (if p then x else y) := by
  split
  · exact hx
  · exact hy

theorem mapM {f : α → Act β} (hf : ∀ a, Mild P (f a)) (l : List α) : Mild P (l.mapM f) := by
  induction l with
  | nil => exact .pure _
  | cons a rest ih =>
    rw [List.mapM_cons]
    exact .bind (hf a) fun _ => .bind ih fun _ => .pure _

theorem change (a : Nat) (f : Object → Object) : Mild (fun _ => True) (Host.change a f) :=
  ⟨fun h ho => ⟨orderly_change ho a f, .heap h _⟩, fun _ _ _ => trivial⟩

theorem insert (o : Object) (pinned : Bool) : Mild (fun _ => True) (Host.insert o pinned) := by
  refine ⟨fun h ho => ?_, fun _ _ _ => trivial⟩
  rw [insert_eq]
  split
  · rename_i hfit
    exact ⟨orderly_place (c := { object := o, size := o.size, pinned }) ho rfl hfit, .heap h _⟩
  · exact ho

theorem collect : Tame Host.collect := by
  refine ⟨fun h ho => ?_, fun h ho hr => ?_⟩
  · rw [collect_eq ho]
    exact ⟨orderly_collected ho, .heap h _⟩
  · rw [collect_eq ho]
    exact hr.collects ho (.collect .refl)

end Mild

/-! ## Spilled values -/

theorem pushValues_words (s : Stack) (vs : List Value) :
    (s.pushValues vs).words = s.words ++ (vs.flatMap fun v => [v.tagWord, v.word]).toArray ∧
      (s.pushValues vs).bottom = s.bottom := by
  induction vs generalizing s with
  | nil => simp [Stack.pushValues]
  | cons v rest ih =>
    obtain ⟨hwds, hbot⟩ := ih (s.pushValue v)
    show ((s.pushValue v).pushValues rest).words = _ ∧ ((s.pushValue v).pushValues rest).bottom = _
    rw [hwds, hbot]
    simp [Stack.pushValue, Stack.pushWord]

theorem mem_of_mem_take {xs : Array α} {n : Nat} {a : α} (ha : a ∈ xs.take n) : a ∈ xs := by
  rw [← Array.mem_toList_iff] at ha ⊢
  have htake : (xs.take n).toList = xs.toList.take n := by simp
  rw [htake] at ha
  exact List.mem_of_mem_take ha

theorem take_append_take (xs ys : Array α) (n : Nat) :
    ((xs ++ ys).take n).take xs.size = xs.take n := by
  rcases Nat.le_total n xs.size with hn | hn
  · simp [hn]
  · have hself : xs.extract 0 n = xs := by simp [hn]
    simp [hself]

/-- Spilled values are gone once the stack is cut to the depth below them, whatever else is cut. -/
theorem truncate_pushValues (s : Stack) (vs : List Value) (n : Nat) :
    ((s.pushValues vs).truncate n).truncate s.depth = s.truncate n := by
  obtain ⟨hwds, hbot⟩ := pushValues_words s vs
  unfold Stack.truncate Stack.depth
  simp only [hwds, hbot, take_append_take]

theorem truncate_pushValues_self (s : Stack) (vs : List Value) :
    (s.pushValues vs).truncate s.depth = s := by
  obtain ⟨hwds, hbot⟩ := pushValues_words s vs
  unfold Stack.truncate Stack.depth
  simp [hwds, hbot]

/-- A host with values on its machine stack. -/
def spilled (h : Host) (vs : List Value) : Host :=
  { h with stack := h.stack.pushValues vs }

theorem SameFrame.unspilled (hs : SameFrame (h.spilled vs) g) :
    SameFrame h { g with stack := g.stack.truncate h.stack.depth } := by
  refine ⟨hs.config, hs.slots, hs.roots, ?_, hs.checkpoints, hs.exception, hs.arguments⟩
  show g.stack.truncate h.stack.depth = h.stack
  rw [hs.stack]
  exact truncate_pushValues_self ..

theorem Raised.unspilled (hs : Raised v (h.spilled vs) g) :
    Raised v h { g with stack := g.stack.truncate h.stack.depth } := by
  obtain ⟨c, hc, hrts, hstk⟩ := hs.taken
  refine ⟨hs.config, hs.slots, hs.arguments, hs.exception, c, hc, hrts, ?_⟩
  show g.stack.truncate h.stack.depth = _
  rw [hstk]
  exact truncate_pushValues ..

theorem Ended.unspilled (hs : Ended e (h.spilled vs) g) :
    Ended e h { g with stack := g.stack.truncate h.stack.depth } :=
  ⟨hs.frame.unspilled, hs.uncaught, hs.balanced⟩

theorem withFrame_eq (values : List Value) (x : Act α) (h : Host) :
    withFrame values x h = match x (h.spilled values) with
      | .ok a g => .ok a { g with stack := g.stack.truncate h.stack.depth }
      | .error e g => .error e { g with stack := g.stack.truncate h.stack.depth } :=
  rfl

namespace Mild

variable {P : Host → Prop} {α : Type}

theorem leaves_withFrame (values : List Value) {x : Act α} (hx : Mild P x) (ho : h.Orderly) :
    Leaves h (Host.withFrame values x h) := by
  have hxh := hx.leaves (h.spilled values) (ho.withStack _)
  rw [withFrame_eq]
  cases hr : x (h.spilled values) with
  | ok a g =>
    rw [hr] at hxh
    exact ⟨hxh.1.withStack _, hxh.2.unspilled⟩
  | error e g =>
    rw [hr] at hxh
    cases e with
    | raise v => exact ⟨hxh.1.withStack _, hxh.2.unspilled⟩
    | fatal e => exact ⟨hxh.1.withStack _, hxh.2.unspilled⟩
    | fault f => exact hxh.withStack _

theorem withFrame (values : List Value) {x : Act α} (hx : Tame x) :
    Tame (Host.withFrame values x) := by
  refine ⟨fun h ho => hx.leaves_withFrame values ho, fun h ho hr => ?_⟩
  have hxr := hx.keeps (h.spilled values) (ho.withStack _) (hr.congr rfl rfl)
  rw [withFrame_eq]
  cases hr : x (h.spilled values) with
  | ok a g =>
    rw [hr] at hxr
    exact hxr.congr rfl rfl
  | error e g =>
    rw [hr] at hxr
    exact hxr.congr rfl rfl

end Mild

/-! ## Allocation -/

theorem tame_exceeds (bytes : Nat) : Tame (exceeds bytes) :=
  .bind .get fun _ => .bind (.sound _) fun _ => .pure _

theorem tame_reserve (objects bytes : Nat) : Tame (reserve objects bytes) := by
  have hout : ∀ h : Host, Tame (fatal (.outOfMemory bytes h.heap.liveBytes h.config.memoryLimit) :
      Act Unit) := fun _ => .fatal nofun nofun
  have hlast : Tame (do
      if ← exceeds bytes then
        let _ ← collect
        if ← exceeds bytes then
          let h ← get
          fatal (.outOfMemory bytes h.heap.liveBytes h.config.memoryLimit) : Act Unit) :=
    .bind (tame_exceeds _) fun _ =>
      .ite (.bind .collect fun _ => .bind (tame_exceeds _) fun _ =>
        .ite (.bind .get hout) (.pure _)) (.pure _)
  exact .bind (.inspect _) fun _ => .ite (.bind .collect fun _ => hlast) hlast

theorem tame_allocate {o : Object} {pinned : Bool} (harr : ∀ p, o ≠ .array p)
    (hpin : pinned = true ↔ o.kind = .cls) (hpos : 0 < o.size) : Tame (allocate o pinned) := by
  have hmild : Mild (fun _ => True) (allocate o pinned) :=
    .bind (.sound _) fun _ => .bind (tame_reserve ..).weaken fun _ => .insert ..
  exact ⟨hmild.leaves, fun h ho hr => (keeps_allocate ho hr harr hpin hpos).regular⟩

theorem tame_string (text : String) : Tame (string text) :=
  .bind (tame_allocate nofun (by simp [Object.kind]) (Nat.succ_pos _)) fun _ => .pure _

theorem tame_display (v : Value) : Tame (display v) :=
  .inspect _

theorem mild_changeArray (a : Nat) (f : ArrayObject → ArrayObject) :
    Mild (fun _ => True) (changeArray a f) :=
  .bind (.inspect _) fun _ => .change ..

theorem tame_allocateArray (elements : Array Value) : Tame (allocateArray elements) := by
  refine ⟨fun h ho => ?_, fun h ho hr => (keeps_allocateArray ho hr elements).regular⟩
  refine Mild.leaves_withFrame (P := fun _ => True) _ ?_ ho
  exact .bind (.sound _) fun _ => .bind (.sound _) fun _ => .bind (tame_reserve ..).weaken fun _ =>
    .bind (.insert ..) fun _ => .bind (.insert ..) fun _ => .bind (mild_changeArray ..) fun _ => .pure _

theorem tame_newArray (elements : Array Value) : Tame (newArray elements) :=
  .bind (tame_allocateArray _) fun _ => .pure _

theorem tame_storeElement (a index : Nat) (v : Value) : Tame (storeElement a index v) := by
  have hmild : Mild (fun _ => True) (storeElement a index v) := by
    refine .bind (.inspect _) fun o => ?_
    cases o.buffer with
    | none => exact .pure _
    | some b =>
      refine .bind (.inspect _) fun o => ?_
      split
      · exact .ite (.change ..) (.fault _)
      · exact .pure _
  exact ⟨hmild.leaves, fun h ho hr => (keeps_storeElement ho hr a index v).regular⟩

theorem mild_grow (a : Nat) (o : ArrayObject) (v : Value) : Mild (fun _ => True) (grow a o v) := by
  refine .bind (.inspect _) fun elements => ⟨fun h ho => ?_, fun _ _ _ => trivial⟩
  refine Mild.leaves_withFrame (P := fun _ => True) _ (.bind (.weaken (tame_allocate ?_ ?_ ?_))
    fun _ => mild_changeArray ..) ho
  · exact fun _ hp => nomatch hp
  · simp [Object.kind]
  · rw [Object.size, size_storage]
    unfold minCapacity
    omega

theorem tame_pushElement (a : Nat) (v : Value) : Tame (pushElement a v) := by
  have hlast : ∀ o : ArrayObject, Mild (fun _ => True) (do
      storeElement a o.len v
      changeArray a fun o => { o with len := o.len + 1 } : Act Unit) :=
    fun o => .bind (tame_storeElement ..).weaken fun _ => mild_changeArray ..
  have hmild : Mild (fun _ => True) (pushElement a v) :=
    .bind (.inspect _) fun o => .ite (.bind (mild_grow ..) fun _ => hlast o) (hlast o)
  exact ⟨hmild.leaves, fun h ho hr => (keeps_pushElement ho hr a v).regular⟩

theorem tame_allocateDict : Tame allocateDict :=
  .bind .get fun _ => .bind (.sound _) fun _ =>
    tame_allocate nofun (by simp [Object.kind]) (Nat.succ_pos _)

theorem tame_newDict : Tame newDict :=
  .bind tame_allocateDict fun _ => .pure _

theorem tame_setEntry (a : Nat) (key : String) (v : Value) : Tame (setEntry a key v) := by
  have hmild : Mild (fun _ => True) (setEntry a key v) := .bind (.inspect _) fun _ => .change ..
  exact ⟨hmild.leaves, fun h ho hr => (keeps_setEntry ho hr a key v).regular⟩

/-! ## Exceptions -/

/-- A raise takes the innermost checkpoint; without one it ends the program at its own place. -/
theorem tame_raise (v : Value) (site : Location) : Tame (raise v site : Act α) := by
  refine ⟨fun h ho => ?_, fun h ho hr => ?_⟩
  · unfold raise
    rw [get_bind]
    cases hc : h.checkpoints with
    | cons c rest =>
      refine ⟨⟨ho.wellFormed, ho.unmarked, ho.idle, ?_⟩, rfl, rfl, rfl, rfl, c, hc, rfl, rfl⟩
      exact fun slot hs => ho.slots slot (mem_of_mem_take hs)
    | nil =>
      simp only
      unfold display
      cases hr : h.heap.display v with
      | ok text =>
        rw [bind_ok (inspect_ok hr)]
        refine ⟨ho, .refl h, ?_, nofun⟩
        intro s m heq
        obtain ⟨rfl, -⟩ := FatalError.uncaught.inj heq
        exact ⟨hc, site, rfl⟩
      | error e =>
        rw [bind_error (inspect_error hr)]
        exact ho
  · unfold raise
    rw [get_bind]
    cases h.checkpoints with
    | cons c rest => exact hr.congr rfl rfl
    | nil =>
      simp only
      unfold display
      cases hd : h.heap.display v with
      | ok text =>
        rw [bind_ok (inspect_ok hd)]
        exact hr
      | error e =>
        rw [bind_error (inspect_error hd)]
        exact hr

theorem tame_failure (site : Location) (message : String) : Tame (failure site message : Act α) :=
  .bind (tame_string _) fun _ => tame_raise ..

theorem tame_repeated (text : String) (count : Int64) : Tame (repeated text count) := by
  have hmild : Mild (fun _ => True) (repeated text count) :=
    .bind .get fun _ => .ite
      (.bind (.sound _) fun _ => .bind (tame_reserve ..).weaken fun _ => .bind (.sound _) fun _ =>
        .bind (.sound _) fun _ => .bind (tame_reserve ..).weaken fun _ => .bind (.insert ..) fun _ =>
          .pure _)
      (.fatal nofun nofun)
  exact ⟨hmild.leaves, fun h ho hr => (keeps_repeated ho hr text count).regular⟩

/-! ## Operations -/

theorem inquiring_tame (site : Location) : Inquiring site Tame where
  pure := .pure
  bind := .bind
  inspect := .inspect
  fault := .fault
  withFrame := .withFrame
  string := tame_string
  allocateArray := tame_allocateArray
  repeated := tame_repeated
  failure := tame_failure site

theorem tame_operate (op : Operator) (lhs rhs : Value) (site : Location) :
    Tame (operate op lhs rhs site) :=
  (inquiring_tame site).operate ..

theorem tame_caught (v : Value) (site : Location) : Tame (caught v site) :=
  (inquiring_tame site).caught ..

theorem tame_contains (container item : Value) (site : Location) :
    Tame (contains container item site) :=
  (inquiring_tame site).contains ..

theorem tame_indexGet (container index : Value) (site : Location) :
    Tame (indexGet container index site) :=
  (inquiring_tame site).indexGet ..

theorem tame_indexSet (container index v : Value) (site : Location) :
    Tame (indexSet container index v site) := by
  unfold indexSet
  split
  · exact .bind (.inspect _) fun _ => .bind ((inquiring_tame site).position ..) fun _ =>
      tame_storeElement ..
  · exact .bind ((inquiring_tame site).dictKey _) fun _ => tame_setEntry ..
  · exact tame_failure ..

theorem tame_slice (container start stop : Value) (site : Location) :
    Tame (slice container start stop site) :=
  (inquiring_tame site).slice ..

theorem tame_length (v : Value) (site : Location) : Tame (length v site) :=
  (inquiring_tame site).length _

theorem tame_toInt (v : Value) (site : Location) : Tame (toInt v site) :=
  (inquiring_tame site).toInt _

theorem tame_toFloat (v : Value) (site : Location) : Tame (toFloat v site) :=
  (inquiring_tame site).toFloat _

theorem tame_newClass (name : String) : Tame (newClass name) :=
  .bind (tame_allocate nofun (by simp [Object.kind]) (Nat.succ_pos _)) fun _ => .pure _

theorem tame_allocateInst (cls fields : Nat) : Tame (allocate (.inst { cls, fields })) :=
  tame_allocate nofun (by simp [Object.kind]) (Nat.succ_pos _)

theorem tame_changeClass (v : Value) (f : ClassObject → ClassObject) : Tame (changeClass v f) := by
  have hmild : Mild (fun _ => True) (changeClass v f) := by
    unfold changeClass
    split
    · exact .pure _
    · exact .bind (.inspect _) fun _ => .change ..
  exact ⟨hmild.leaves, fun h ho hr => (keeps_changeClass ho hr v f).regular⟩

theorem tame_memberGet (target : Value) (name : String) (inside : Bool) (site : Location) :
    Tame (memberGet target name inside site) :=
  (inquiring_tame site).memberGet ..

theorem tame_methodFor (target : Value) (name : String) (supplied : Nat) (inside : Bool)
    (site : Location) : Tame (methodFor target name supplied inside site) :=
  (inquiring_tame site).methodFor ..

theorem tame_assign (c : Construction) (field : Field) (v : Value) : Tame (assign c field v) :=
  tame_setEntry ..

theorem tame_conclude (c : Construction) : Tame (conclude c) := by
  refine .bind (.inspect _) fun _ => ?_
  split
  · exact .map _ (tame_methodFor ..)
  · exact .ite (.pure _) (tame_failure ..)

theorem tame_printLine (text : String) : Tame (printLine text) := by
  refine ⟨fun h ho => ?_, fun h ho hr => ?_⟩
  · unfold printLine
    split
    · exact ⟨⟨ho.wellFormed, ho.unmarked, ho.idle, ho.slots⟩, .console h _⟩
    · exact ⟨⟨ho.wellFormed, ho.unmarked, ho.idle, ho.slots⟩, .console h _, nofun, nofun⟩
  · unfold printLine
    split <;> exact hr.congr rfl rfl

theorem tame_readLine : Tame readLine := by
  refine ⟨fun h ho => ?_, fun h ho hr => ?_⟩
  · unfold readLine
    split
    · exact ⟨⟨ho.wellFormed, ho.unmarked, ho.idle, ho.slots⟩, .console h _⟩
    · exact ⟨⟨ho.wellFormed, ho.unmarked, ho.idle, ho.slots⟩, .console h _⟩
    · exact ⟨⟨ho.wellFormed, ho.unmarked, ho.idle, ho.slots⟩, .console h _, nofun, nofun⟩
  · unfold readLine
    split <;> exact hr.congr rfl rfl

theorem pervasive_tame (site : Location) : Pervasive site Tame where
  toInquiring := inquiring_tame site
  get := .get
  pushElement := tame_pushElement
  indexSet container index v := tame_indexSet container index v site
  setEntry := tame_setEntry
  printLine := tame_printLine
  readLine := tame_readLine

theorem tame_dictKeys (v : Value) (site : Location) : Tame (dictKeys v site) :=
  (pervasive_tame site).dictKeys _

theorem tame_memberSet (target : Value) (name : String) (v : Value) (inside : Bool)
    (site : Location) : Tame (memberSet target name v inside site) :=
  (pervasive_tame site).memberSet ..

theorem tame_builtin (b : Ir.Builtin) (arguments : List Value) (site : Location) :
    Tame (builtin b arguments site) :=
  (pervasive_tame site).builtin ..

end Ember.Host
