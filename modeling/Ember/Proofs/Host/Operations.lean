import Mathlib
import Ember.Host.Guest

/-!
# Ember — what operations are made of

The operations of a host are put together from few actions: looks at the heap, allocations, failures
at a place, and changes of one object. A property of actions that these have, and that passes from
the parts of a sequence to the whole, is one that all operations have. So a theorem about the
operations is proved of those few actions, and here is what leads from them to the operations.

Main result: `Pervasive`.
-/

namespace Ember.Host

variable {β : Type}

/-- A property of actions that passes from the parts of a sequence to the whole, and that looks at
the heap, allocations and failures at a place have. -/
structure Inquiring (site : Location) (M : {α : Type} → Act α → Prop) : Prop where
  pure : ∀ {α : Type} (a : α), M (Pure.pure a : Act α)
  bind : ∀ {α β : Type} {x : Act α} {f : α → Act β}, M x → (∀ a, M (f a)) → M (x >>= f)
  inspect : ∀ {α : Type} (k : Heap → Except Fault α), M (Host.inspect k)
  fault : ∀ {α : Type} (f : Fault), M (Host.fault f : Act α)
  withFrame : ∀ {α : Type} (vs : List Value) {x : Act α}, M x → M (Host.withFrame vs x)
  string : ∀ text, M (Host.string text)
  allocateArray : ∀ elements, M (Host.allocateArray elements)
  repeated : ∀ text count, M (Host.repeated text count)
  failure : ∀ {α : Type} message, M (Host.failure site message : Act α)

/-- Such a property that changes of one object have as well, and the actions on the console. -/
structure Pervasive (site : Location) (M : {α : Type} → Act α → Prop) : Prop
    extends Inquiring site M where
  get : M (MonadState.get : Act Host)
  pushElement : ∀ a v, M (Host.pushElement a v)
  indexSet : ∀ container index v, M (Host.indexSet container index v site)
  setEntry : ∀ a key v, M (Host.setEntry a key v)
  printLine : ∀ text, M (Host.printLine text)
  readLine : M Host.readLine

namespace Inquiring

variable {site : Location} {M : {α : Type} → Act α → Prop} (hM : Inquiring site M) {α : Type}
include hM

theorem mapM {f : α → Act β} (hf : ∀ a, M (f a)) (l : List α) : M (l.mapM f) := by
  induction l with
  | nil => exact hM.pure _
  | cons a rest ih =>
    rw [List.mapM_cons]
    exact hM.bind (hf a) fun _ => hM.bind ih fun _ => hM.pure _

theorem map {x : Act α} (f : α → β) (hx : M x) : M (f <$> x) := by
  rw [map_eq_pure_bind]
  exact hM.bind hx fun a => hM.pure (f a)

theorem newArray (elements : Array Value) : M (Host.newArray elements) :=
  hM.bind (hM.allocateArray elements) fun _ => hM.pure _

/-! ## Operators -/

theorem integerOp (op : Operator) (a b : Int64) : M (Host.integerOp op a b site) := by
  cases op with
  | divide | modulus => exact iteInduction (fun _ => hM.failure _) fun _ => hM.pure _
  | equal | notEqual | and | or => exact hM.fault _
  | _ => exact hM.pure _

theorem floatOp (op : Operator) (x y : Number.Double) : M (Host.floatOp op x y) := by
  cases op with
  | equal | notEqual | and | or => exact hM.fault _
  | _ => exact hM.pure _

theorem numberOp (op : Operator) (lhs rhs : Value) : M (Host.numberOp op lhs rhs site) := by
  unfold Host.numberOp
  split
  · exact hM.integerOp ..
  · exact hM.floatOp ..
  · exact hM.failure _

theorem joined (lhs rhs : Value) : M (Host.joined lhs rhs) :=
  hM.bind (hM.inspect _) fun _ => hM.bind (hM.inspect _) fun _ => hM.string _

theorem plus (lhs rhs : Value) : M (Host.plus lhs rhs site) := by
  unfold Host.plus
  split
  · exact hM.joined ..
  · exact hM.joined ..
  · exact hM.bind (hM.inspect _) fun _ => hM.bind (hM.inspect _) fun _ => hM.newArray _
  · exact hM.numberOp ..

theorem times (lhs rhs : Value) : M (Host.times lhs rhs site) := by
  unfold Host.times
  split
  · exact hM.bind (hM.inspect _) fun _ => hM.repeated ..
  · exact hM.bind (hM.inspect _) fun _ => hM.repeated ..
  · exact hM.numberOp ..

theorem ranked (op : Operator) (lhs rhs : Value) : M (Host.ranked op lhs rhs site) := by
  unfold Host.ranked
  split
  · exact hM.bind (hM.inspect _) fun _ => hM.bind (hM.inspect _) fun _ => hM.pure _
  · exact hM.numberOp ..

theorem apply (op : Operator) (lhs rhs : Value) : M (Host.apply op lhs rhs site) := by
  unfold Host.apply
  split
  · exact hM.bind (hM.inspect _) fun _ => hM.pure _
  · exact hM.bind (hM.inspect _) fun _ => hM.pure _
  · exact hM.bind (hM.inspect _) fun _ =>
      iteInduction (fun _ => hM.bind (hM.inspect _) fun _ => hM.pure _) fun _ => hM.pure _
  · exact hM.bind (hM.inspect _) fun _ =>
      iteInduction (fun _ => hM.pure _) fun _ => hM.bind (hM.inspect _) fun _ => hM.pure _
  · exact hM.plus ..
  · exact hM.times ..
  · exact iteInduction (fun _ => hM.ranked ..) fun _ => hM.numberOp ..

theorem operate (op : Operator) (lhs rhs : Value) : M (Host.operate op lhs rhs site) :=
  hM.withFrame _ (hM.apply ..)

theorem caught (v : Value) : M (Host.caught v site) :=
  hM.withFrame _ <| hM.bind (hM.string _) fun _ => hM.operate ..

/-! ## Containers -/

theorem dictKey (key : Value) : M (Host.dictKey key site) := by
  unfold Host.dictKey
  split
  · exact hM.pure _
  · exact hM.inspect _
  · exact hM.failure _

theorem contains (container item : Value) : M (Host.contains container item site) := by
  unfold Host.contains
  split
  · refine hM.bind (hM.inspect _) fun _ => hM.bind (hM.inspect _) fun _ => ?_
    split
    · exact hM.pure _
    · exact hM.failure _
  · exact hM.bind (hM.inspect _) fun _ => hM.bind (hM.inspect _) fun _ => hM.pure _
  · exact hM.bind (hM.dictKey _) fun _ => hM.bind (hM.inspect _) fun _ => hM.pure _
  · exact hM.failure _

theorem position (index : Value) (length : Nat) : M (Host.position index length site) := by
  unfold Host.position
  split
  · exact iteInduction (fun _ => hM.pure _) fun _ => hM.failure _
  · exact hM.failure _

theorem elementOf (elements : Array α) (i : Nat) : M (Host.elementOf elements i) := by
  unfold Host.elementOf
  split
  · exact hM.pure _
  · exact hM.fault _

theorem indexGet (container index : Value) : M (Host.indexGet container index site) := by
  unfold Host.indexGet
  split
  · exact hM.bind (hM.inspect _) fun _ => hM.bind (hM.position ..) fun _ =>
      hM.bind (hM.inspect _) fun _ => hM.elementOf ..
  · exact hM.bind (hM.inspect _) fun _ => hM.bind (hM.position ..) fun _ =>
      hM.bind (hM.elementOf ..) fun _ => hM.string _
  · refine hM.bind (hM.dictKey _) fun _ => hM.bind (hM.inspect _) fun _ => ?_
    split
    · exact hM.pure _
    · exact hM.failure _
  · exact hM.failure _

theorem sliceBound (v : Value) : M (Host.sliceBound v site) := by
  unfold Host.sliceBound
  split
  · exact hM.pure _
  · exact hM.pure _
  · exact hM.failure _

theorem slice (container start stop : Value) : M (Host.slice container start stop site) := by
  refine hM.bind (hM.sliceBound _) fun _ => hM.bind (hM.sliceBound _) fun _ => hM.withFrame _ ?_
  split
  · exact hM.bind (hM.inspect _) fun _ => hM.string _
  · exact hM.bind (hM.inspect _) fun _ => hM.newArray _
  · exact hM.failure _

theorem length (v : Value) : M (Host.length v site) := by
  unfold Host.length
  split
  · exact hM.bind (hM.inspect _) fun _ => hM.pure _
  · exact hM.bind (hM.inspect _) fun _ => hM.pure _
  · exact hM.bind (hM.inspect _) fun _ => hM.pure _
  · exact hM.failure _

theorem toInt (v : Value) : M (Host.toInt v site) := by
  unfold Host.toInt
  split
  · exact hM.pure _
  · exact hM.pure _
  · exact hM.failure _

theorem toFloat (v : Value) : M (Host.toFloat v site) := by
  unfold Host.toFloat
  split
  · exact hM.pure _
  · exact hM.failure _

/-! ## Members -/

theorem receiver (target : Value) (name : String) : M (Host.receiver target name site) := by
  unfold Host.receiver
  split
  · exact hM.bind (hM.inspect _) fun _ => hM.bind (hM.inspect _) fun _ => hM.pure _
  · exact hM.failure _

theorem memberGet (target : Value) (name : String) (inside : Bool) :
    M (Host.memberGet target name inside site) := by
  refine hM.bind (hM.receiver ..) ?_
  rintro ⟨i, c⟩
  simp only
  split
  · exact iteInduction (fun _ => hM.failure _) fun _ => hM.bind (hM.inspect _) fun _ => hM.pure _
  · exact hM.failure _
  · exact hM.failure _

theorem methodFor (target : Value) (name : String) (supplied : Nat) (inside : Bool) :
    M (Host.methodFor target name supplied inside site) := by
  refine hM.bind (hM.receiver ..) ?_
  rintro ⟨i, c⟩
  simp only
  split
  · exact hM.failure _
  · exact iteInduction (fun _ => hM.failure _) fun _ =>
      iteInduction (fun _ => hM.failure _) fun _ => hM.pure _

/-! ## Conversions -/

theorem intOf (v : Value) : M (Host.intOf v site) := by
  refine hM.bind (hM.inspect _) fun _ => ?_
  split
  · exact hM.bind (hM.toInt _) fun _ => hM.pure _
  · simp only
    split
    · exact hM.pure _
    · exact hM.failure _

theorem floatOf (v : Value) : M (Host.floatOf v site) := by
  refine hM.bind (hM.inspect _) fun _ => ?_
  split
  · exact hM.bind (hM.toFloat _) fun _ => hM.pure _
  · split
    · exact hM.pure _
    · exact hM.failure _

theorem strOf (v : Value) : M (Host.strOf v) := by
  unfold Host.strOf
  split
  · exact hM.pure _
  · exact hM.bind (hM.inspect _) fun _ => hM.string _

theorem hasKey (dict key : Value) : M (Host.hasKey dict key site) := by
  unfold Host.hasKey
  split
  · exact hM.bind (hM.dictKey _) fun _ => hM.bind (hM.inspect _) fun _ => hM.pure _
  · exact hM.failure _

end Inquiring

/-! ## Operations that change objects -/

namespace Pervasive

variable {site : Location} {M : {α : Type} → Act α → Prop} (hM : Pervasive site M)
include hM

theorem pushStrings (a : Nat) (texts : List String) : M (Host.pushStrings a texts) := by
  induction texts with
  | nil => exact hM.pure _
  | cons s rest ih => exact hM.bind (hM.string s) fun _ => hM.bind (hM.pushElement ..) fun _ => ih

theorem dictKeys (v : Value) : M (Host.dictKeys v site) := by
  unfold Host.dictKeys
  split
  · exact hM.bind (hM.inspect _) fun _ => hM.withFrame _ <| hM.bind (hM.allocateArray _) fun _ =>
      hM.withFrame _ <| hM.bind (hM.pushStrings ..) fun _ => hM.pure _
  · exact hM.failure _

theorem memberSet (target : Value) (name : String) (v : Value) (inside : Bool) :
    M (Host.memberSet target name v inside site) := by
  refine hM.bind (hM.receiver ..) ?_
  rintro ⟨i, c⟩
  simp only
  split
  · exact hM.failure _
  · exact iteInduction (fun _ => hM.failure _) fun _ => hM.setEntry ..

theorem append (array v : Value) : M (Host.append array v site) := by
  unfold Host.append
  split
  · exact hM.bind (hM.pushElement ..) fun _ => hM.pure _
  · exact hM.failure _

theorem print (arguments : List Value) : M (Host.print arguments) :=
  hM.bind (hM.mapM (fun _ => hM.inspect _) _) fun _ => hM.bind (hM.printLine _) fun _ => hM.pure _

theorem input : M Host.input := by
  refine hM.bind hM.readLine fun _ => ?_
  split
  · exact hM.string _
  · exact hM.pure _

theorem programArguments : M Host.programArguments :=
  hM.bind (hM.allocateArray _) fun _ => hM.withFrame _ <| hM.bind hM.get fun _ =>
    hM.bind (hM.pushStrings ..) fun _ => hM.pure _

theorem builtin (b : Ir.Builtin) (arguments : List Value) : M (Host.builtin b arguments site) := by
  unfold Host.builtin
  split
  · exact hM.print _
  · exact hM.bind (hM.length _) fun _ => hM.pure _
  · exact hM.strOf _
  · exact hM.intOf _
  · exact hM.floatOf _
  · exact hM.string _
  · exact hM.dictKeys _
  · exact hM.append ..
  · exact hM.hasKey ..
  · exact hM.input
  · exact hM.programArguments
  · exact hM.failure _

end Pervasive

end Ember.Host
