import Ember.Proofs.Host.Exactness
import Ember.Proofs.Host.Likeness

/-!
# Ember — sound hosts

A host is sound when everything that its objects and its exception refer to is there and is of the
right kind, and when spilled values are scanned. Any of the operations may collect at each of its
allocations; it still leaves a sound host, and what it returns or raises is alive, although nothing
but the operation itself may hold on to its arguments.

Main result: `operation_safe`.
-/

namespace Ember

variable {h : Heap} {o : Object}

/-- What an object refers to is there and is of the right kind. -/
def Object.Closed (h : Heap) : Object → Prop
  | .str _ | .cls _ => True
  | .array o => ∀ b : Nat, o.buffer = some b → ∃ n, h.kindAt b = some (.buffer n)
  | .buffer b => h.kindAt b.owner = some .array ∧ ∀ v ∈ b.elements, v.LiveIn h
  | .dict d => ∀ v ∈ d.values, v.LiveIn h
  | .inst i => h.kindAt i.cls = some .cls ∧ h.kindAt i.fields = some .dict

/-- Classes may have any members. -/
def Linkage.any : Linkage :=
  ⟨fun _ => True, fun _ => True⟩

theorem Object.LiveIn.closed {L : Linkage} (ho : o.LiveIn L h) : o.Closed h := by
  cases o with
  | str | cls => trivial
  | array o =>
    intro b hb
    obtain ⟨n, hn, -⟩ := ArrayObject.Fits.buffer ho hb
    exact ⟨n, hn⟩
  | buffer | dict | inst => exact ho

theorem Object.Closed.liveIn (ho : o.Closed h) (hfits : ∀ p, o = .array p → p.Fits h) :
    o.LiveIn .any h := by
  cases o with
  | str => trivial
  | cls => exact ⟨fun _ _ => trivial, fun _ _ => trivial⟩
  | array o => exact hfits o rfl
  | buffer | dict | inst => exact ho

namespace Host

variable {L : Linkage} {h g : Host} {α : Type}

/-! ## Sound hosts -/

/-- The bottom of the stack is above neither its top nor a depth to which a raise restores it, the
exception is alive, objects refer to live objects of the right kinds, only classes are pinned, and
nothing is marked. -/
structure Sound (h : Host) : Prop where
  bottom : h.stack.bottom ≤ h.stack.depth
  bottoms : ∀ c ∈ h.checkpoints, h.stack.bottom ≤ c.stack
  caught : ∀ v, h.exception = some v → v.LiveIn h.heap
  closed : ∀ (a : Nat) (o : Object), h.heap.get? a = some o → o.Closed h.heap
  pinned : ∀ (a : Nat) (c : Cell), h.heap.cells[a]? = some c → c.pinned = true → c.object.kind = .cls
  unmarked : ∀ (a : Nat) (c : Cell), h.heap.cells[a]? = some c → c.marked = false

theorem Sound.twin (hs : h.Sound) (hw : h.Whole) : Twin .any h h := by
  obtain ⟨ho, hr⟩ := hw
  have htyped : h.heap.Typed .any := by
    refine ⟨fun a o hget => ?_, hr.laid.pinned, fun a c hc => (hr.laid.sized a c hc).2⟩
    refine (hs.closed a o hget).liveIn fun p hp => hr.laid.arrays a p ?_
    rw [hget, hp]
  have hagree : ∀ (a : Nat) (c d : Cell), h.heap.cells[a]? = some c → h.heap.cells[a]? = some d →
      c = d := fun a c d hc hd => Option.some.inj (hc.symm.trans hd)
  exact ⟨⟨ho, ho, ⟨htyped, htyped, rfl, hagree⟩, rfl, rfl, rfl, rfl, rfl, rfl, rfl, rfl, rfl,
    fun v hv => ⟨hs.caught v hv, hs.caught v hv⟩⟩, hs.bottom, hs.bottoms⟩

theorem Mirror.sound (hm : Mirror L g g) (hbot : g.stack.bottom ≤ g.stack.depth)
    (hbottoms : ∀ c ∈ g.checkpoints, g.stack.bottom ≤ c.stack) : g.Sound where
  bottom := hbot
  bottoms := hbottoms
  caught v hv := (hm.caught v hv).1
  closed a o hget := (hm.heaps.typed1.live a o hget).closed
  pinned a c hc := (hm.heaps.typed1.pinned a c hc).mp
  unmarked := hm.orderly₁.unmarked

theorem Twin.sound (ht : Twin L g g) : g.Sound :=
  ht.toMirror.sound ht.bottom ht.bottoms

theorem sound_new (config : Config) (console : Console) : (Host.new config console).Sound := by
  have hnone : ∀ a : Nat, (Host.new config console).heap.cells[a]? = none := fun a => by
    simp [Host.new, Heap.empty]
  refine ⟨Nat.le_refl 0, fun _ h => (by cases h), fun _ h => (by cases h), fun a o hget => ?_,
    fun a c hc => ?_, fun a c hc => ?_⟩
  · obtain ⟨c, hc, -⟩ := Heap.get?_eq_some_iff.mp hget
    rw [hnone] at hc
    cases hc
  · rw [hnone] at hc
    cases hc
  · rw [hnone] at hc
    cases hc

/-! ## Safe ends -/

/-- A sound host is left, and the value that is returned or raised is alive. The only fault is that a
size or an address does not fit into 64 bits. -/
def Safe : EStateM.Result Interrupt Host (Option Value) → Prop
  | .ok v g => g.Sound ∧ ∀ w, v = some w → w.LiveIn g.heap
  | .error (.raise v) g => g.Sound ∧ v.LiveIn g.heap
  | .error (.fatal _) g => g.Sound
  | .error (.fault f) _ => f = .overflow

theorem SameFrame.sound (hf : SameFrame h g) (hs : h.Sound) (hm : Mirror L g g) : g.Sound := by
  refine hm.sound ?_ ?_
  · rw [hf.stack]
    exact hs.bottom
  · rw [hf.stack, hf.checkpoints]
    exact hs.bottoms

theorem Alike.safe {Q : α → Heap → Heap → Prop} {x : Act α} {f : α → Option Value}
    (hs : h.Sound) (hx : Alike L h h Q (x h) (x h))
    (hQ : ∀ a k, Q a k k → ∀ w, f a = some w → w.LiveIn k) : Safe ((f <$> x) h) := by
  have hout : OutOfMemory L h (x h) → Safe ((f <$> x) h) := by
    rintro ⟨requested, live, limit, g, hr, hm, hf⟩
    rw [map_apply, hr]
    exact hf.sound hs hm
  -- the two ends are one
  generalize hr1 : x h = r at hx
  have hcases : ∀ r', Alike L h h Q r r' → r = r' → Safe ((f <$> x) h) := by
    intro r' hx heq
    cases hx with
    | ok onward post =>
      obtain ⟨-, rfl⟩ := EStateM.Result.ok.inj heq
      rw [map_apply, hr1]
      exact ⟨onward.twin.sound, hQ _ _ post⟩
    | raise twin raised kept =>
      obtain ⟨-, rfl⟩ := EStateM.Result.error.inj heq
      rw [map_apply, hr1]
      exact ⟨twin.sound, (twin.caught _ raised.exception).1⟩
    | fatal mirror ended =>
      obtain ⟨-, rfl⟩ := EStateM.Result.error.inj heq
      rw [map_apply, hr1]
      exact ended.frame.sound hs mirror
    | overflow console =>
      rw [map_apply, hr1]
      rfl
    | left out => exact hout (hr1 ▸ out)
    | right out => exact hout (hr1 ▸ heq ▸ out)
  exact hcases r hx rfl

/-! ## Operations -/

/-- The operations. -/
inductive Operation
  | string (text : String)
  | newArray (elements : Array Value)
  | newDict
  | newClass (name : String)
  | pushElement (a : Address) (v : Value)
  | operate (op : Operator) (lhs rhs : Value) (site : Location)
  | contains (container item : Value) (site : Location)
  | indexGet (container index : Value) (site : Location)
  | indexSet (container index v : Value) (site : Location)
  | slice (container start stop : Value) (site : Location)
  | length (v : Value) (site : Location)
  | dictKeys (v : Value) (site : Location)
  | memberGet (target : Value) (name : String) (inside : Bool) (site : Location)
  | memberSet (target : Value) (name : String) (v : Value) (inside : Bool) (site : Location)
  | addField (cls : Value) (field : Field)
  | addMethod (cls : Value) (method : Method)
  | raise (v : Value) (site : Location)
  | collect
  | builtin (b : Ir.Builtin) (arguments : List Value) (site : Location)

namespace Operation

/-- The answer, if it is a value. -/
def perform : Operation → Act (Option Value)
  | .string text => some <$> Host.string text
  | .newArray elements => some <$> Host.newArray elements
  | .newDict => some <$> Host.newDict
  | .newClass name => some <$> Host.newClass name
  | .pushElement a v => (fun _ => none) <$> Host.pushElement a v
  | .operate op lhs rhs site => some <$> Host.operate op lhs rhs site
  | .contains container item site => some <$> Host.contains container item site
  | .indexGet container index site => some <$> Host.indexGet container index site
  | .indexSet container index v site => (fun _ => none) <$> Host.indexSet container index v site
  | .slice container start stop site => some <$> Host.slice container start stop site
  | .length v site => (fun _ => none) <$> Host.length v site
  | .dictKeys v site => some <$> Host.dictKeys v site
  | .memberGet target name inside site => some <$> Host.memberGet target name inside site
  | .memberSet target name v inside site =>
    (fun _ => none) <$> Host.memberSet target name v inside site
  | .addField c field => (fun _ => none) <$> Host.addField c field
  | .addMethod c method => (fun _ => none) <$> Host.addMethod c method
  | .raise v site => (fun _ : Unit => none) <$> Host.raise v site
  | .collect => (fun _ => none) <$> Host.collect
  | .builtin b arguments site => some <$> Host.builtin b arguments site

/-- The values that the operation is given. -/
def arguments : Operation → List Value
  | .string _ | .newDict | .newClass _ | .collect => []
  | .newArray elements => elements.toList
  | .pushElement a v => [.array a, v]
  | .operate _ lhs rhs _ => [lhs, rhs]
  | .contains container item _ => [container, item]
  | .indexGet container index _ => [container, index]
  | .indexSet container index v _ => [container, index, v]
  | .slice container start stop _ => [container, start, stop]
  | .length v _ | .dictKeys v _ | .raise v _ => [v]
  | .memberGet target _ _ _ => [target]
  | .memberSet target _ v _ _ => [target, v]
  | .addField c _ | .addMethod c _ => [c]
  | .builtin _ vs _ => vs

end Operation

/-- Every operation on live values ends safely, though it may collect at each of its allocations. -/
theorem safe_perform (hw : h.Whole) (hs : h.Sound) (op : Operation)
    (hargs : ∀ v ∈ op.arguments, v.LiveIn h.heap) : Safe (op.perform h) := by
  have ht := hs.twin hw
  have hlv : ∀ v ∈ op.arguments, Heap.Live h.heap h.heap v := fun v hv => ⟨hargs v hv, hargs v hv⟩
  have hval : ∀ {x : Act Value}, Alike .any h h Alive (x h) (x h) → Safe ((some <$> x) h) :=
    fun hx => hx.safe hs fun v k hv w hw => Option.some.inj hw ▸ hv.1
  have hnone : ∀ {β : Type} {Q : β → Heap → Heap → Prop} {x : Act β},
      Alike .any h h Q (x h) (x h) → Safe (((fun _ => none) <$> x) h) :=
    fun hx => hx.safe hs fun _ _ _ _ => nofun
  cases op with
  | string text => exact hval (alike_string ht text)
  | newArray elements =>
    exact hval (alike_newArray ht fun v hv => hlv v (Array.mem_toList_iff.mpr hv))
  | newDict => exact hval (alike_newDict ht)
  | newClass name => exact hval (alike_newClass ht name)
  | pushElement a v => exact hnone (alike_pushElement ht (hlv _ (.head _)) (hlv v (.tail _ (.head _))))
  | operate op lhs rhs site =>
    exact hval (alike_operate ht op (hlv lhs (.head _)) (hlv rhs (.tail _ (.head _))) site)
  | contains container item site =>
    exact hval (alike_contains ht (hlv _ (.head _)) (hlv item (.tail _ (.head _))) site)
  | indexGet container index site =>
    exact hval (alike_indexGet ht (hlv _ (.head _)) (hlv index (.tail _ (.head _))) site)
  | indexSet container index v site =>
    exact hnone (alike_indexSet ht (hlv _ (.head _)) (hlv index (.tail _ (.head _)))
      (hlv v (.tail _ (.tail _ (.head _)))) site)
  | slice container start stop site =>
    exact hval (alike_slice ht (hlv _ (.head _)) start stop site)
  | length v site => exact hnone (alike_length ht (hlv v (.head _)) site)
  | dictKeys v site => exact hval (alike_dictKeys ht (hlv v (.head _)) site)
  | memberGet target name inside site =>
    exact hval (alike_memberGet ht (hlv target (.head _)) name inside site)
  | memberSet target name v inside site =>
    exact hnone (alike_memberSet ht (hlv target (.head _)) (hlv v (.tail _ (.head _))) name inside
      site)
  | addField c field => exact hnone (alike_addField ht (hlv c (.head _)) trivial)
  | addMethod c method => exact hnone (alike_addMethod ht (hlv c (.head _)) trivial)
  | raise v site => exact hnone (alike_raise (Q := Any) ht (hlv v (.head _)) site)
  | collect =>
    refine hnone (Q := Any) ?_
    have hc : Collects h { h with heap := h.collected } := .collect .refl
    rw [collect_eq ht.orderly₁]
    exact .ok (hc.onward hc ht) trivial
  | builtin b vs site => exact hval (alike_builtin ht b hlv site)

/-- **Operations protect themselves**: in every sound state that a host can reach, every operation on
live values leaves a sound host, returns or raises live values only, and comes to no fault but that a
size or an address does not fit into 64 bits. -/
theorem operation_safe (hr : Reachable h) (hs : h.Sound) (op : Operation)
    (hargs : ∀ v ∈ op.arguments, v.LiveIn h.heap) : Safe (op.perform h) :=
  safe_perform (reachable_whole hr) hs op hargs

/-- Settings under which every allocation collects first, as far as it can. -/
def restless : Config :=
  { initialThreshold := 0, minThreshold := 0 }

/-- A fresh host in which an array was made. -/
def withArray (elements : Array Value) : Host :=
  afterwards (Request.newArray elements).perform (.new restless)

/-- Two arrays are joined that nothing holds on to, and a collection happens before the result is
there. -/
theorem operation_safe_withArray :
    let joining := Operation.operate .add (.array 1048608) (.array 1048608) ⟨"main.em", 1⟩
    Safe (joining.perform (withArray #[.null])) ∧
      (withArray #[.null]).heap.stats.collections <
        (afterwards joining.perform (withArray #[.null])).heap.stats.collections := by
  refine ⟨?_, by decide +kernel⟩
  have hmade : Host.newArray #[.null] (.new restless) =
      .ok (.array 1048608) (withArray #[.null]) := by
    cbv
  have hsound : (withArray #[.null]).Sound := by
    have hsafe := safe_perform (whole_new restless {}) (sound_new restless {}) (.newArray #[.null])
      (by simp [Operation.arguments, Value.LiveIn])
    rw [Operation.perform, map_apply, hmade] at hsafe
    exact hsafe.1
  have hlv : (Value.array 1048608).LiveIn (withArray #[.null]).heap := by
    show (withArray #[.null]).heap.kindAt 1048608 = some .array
    cbv
  refine operation_safe (.request (.newArray #[.null]) (.new restless {}) trivial) hsound _ fun v hv => ?_
  simp only [Operation.arguments, List.mem_cons, List.not_mem_nil, or_false, or_self] at hv
  exact hv ▸ hlv

/-- Two exceptions. A slot that is registered as a root and does not exist is found by the next
collection, and buckets for which there is no storage are a fault. -/
theorem sound_states_fault :
    (∃ h g : Host, h.Sound ∧ h.config.memoryLimit < 2 ^ 62 ∧
      Operation.collect.perform h = .error (.fault (.outOfRange 5)) g) ∧
    ∃ h g : Host, Reachable h ∧ h.Sound ∧ h.config.memoryLimit < 2 ^ 62 ∧
      Operation.newDict.perform h = .error (.fault .overflow) g := by
  constructor
  · have hs := sound_new {} {}
    exact ⟨afterwards (pushRoot 5) (.new {} {}), _,
      ⟨hs.bottom, hs.bottoms, hs.caught, hs.closed, hs.pinned, hs.unmarked⟩, by decide, rfl⟩
  · exact ⟨.new { dictBuckets := 2 ^ 60 } {}, _, .new _ _, sound_new _ _, by decide, rfl⟩

end Host

end Ember
