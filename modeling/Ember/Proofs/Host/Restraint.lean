import Ember.Proofs.Host.Arrays
import Ember.Proofs.Host.Soundness

/-!
# Ember — what operations leave alone

Operations that ask for something may collect and place new objects, and one of them fills a new array;
objects that were there before are as they were, if they are still there. Operations that change an
object change it in their last step, so when they end early they have changed nothing.

Main result: `operations_restrained`.
-/

namespace Ember

namespace Heap

variable {k0 k : Heap} {a : Nat}

/-- The objects of an earlier heap that are still there are as they were, and newer arrays have newer
buffers. -/
structure Spares (k0 k : Heap) : Prop where
  grown : k0.nextFree ≤ k.nextFree
  old : ∀ (a : Nat) (o : Object), a ≤ k0.nextFree → k.get? a = some o → k0.get? a = some o
  apart : ∀ (a : Nat) (o : ArrayObject) (b : Nat), k0.nextFree < a → k.get? a = some (.array o) →
    o.buffer = some b → k0.nextFree < b

theorem Spares.refl (hw : k0.WellFormed) : k0.Spares k0 := by
  refine ⟨Nat.le_refl _, fun _ _ _ hget => hget, fun a o b ha hget _ => ?_⟩
  obtain ⟨c, hc, -⟩ := get?_eq_some_iff.mp hget
  exact absurd (hw.lt_next hc) (Nat.not_le.mpr ha)

theorem Spares.lt_nextAddress (hs : k0.Spares k) : k0.nextFree < k.nextAddress :=
  Nat.lt_of_le_of_lt hs.grown (Nat.lt_add_of_pos_right (by decide))

theorem Spares.place (hs : k0.Spares k) {c : Cell} (harr : ∀ o, c.object ≠ .array o) :
    k0.Spares (k.place c) := by
  have hnew := hs.lt_nextAddress
  refine ⟨Nat.le_trans hs.grown (Nat.le_add_right ..), fun a o ha hget => ?_, fun a o b ha hget hb => ?_⟩
  · rw [get?_place, if_neg (Nat.ne_of_gt (Nat.lt_of_le_of_lt ha hnew))] at hget
    exact hs.old a o ha hget
  · rw [get?_place] at hget
    split at hget
    · exact absurd (Option.some.inj hget) (harr o)
    · exact hs.apart a o b ha hget hb

theorem Spares.withArray (hs : k0.Spares k) (elements : Array Value) :
    k0.Spares (k.withArray elements) := by
  have harr := hs.lt_nextAddress
  have hbuf : k0.nextFree < k.nextBuffer := Nat.lt_of_lt_of_le harr (Nat.le_add_right ..)
  refine ⟨Nat.le_trans hs.grown (nextFree_withArray k elements), fun a o ha hget => ?_,
    fun a o b ha hget hb => ?_⟩
  · rw [get?_withArray, if_neg (Nat.ne_of_lt (Nat.lt_of_le_of_lt ha harr)),
      if_neg (Nat.ne_of_lt (Nat.lt_of_le_of_lt ha hbuf))] at hget
    exact hs.old a o ha hget
  · rw [get?_withArray] at hget
    split at hget
    · cases hget
      exact Option.some.inj hb ▸ hbuf
    · split at hget
      · cases hget
      · exact hs.apart a o b ha hget hb

theorem Spares.modify (hs : k0.Spares k) (ha : k0.nextFree < a) {f : Object → Object}
    (hf : ∀ p o b, k.get? a = some p → f p = .array o → o.buffer = some b → k0.nextFree < b) :
    k0.Spares (k.modify a f) := by
  refine ⟨hs.grown, fun x o hx hget => ?_, fun x o b hx hget hb => ?_⟩
  · rw [get?_modify, if_neg (Nat.ne_of_gt (Nat.lt_of_le_of_lt hx ha))] at hget
    exact hs.old x o hx hget
  · rw [get?_modify] at hget
    split at hget
    · rename_i heq
      subst heq
      obtain ⟨p, hp, hfp⟩ := Option.map_eq_some_iff.mp hget
      exact hf p o b hp hfp hb
    · exact hs.apart x o b hx hget hb

end Heap

namespace Host

variable {h g : Host} {α β : Type} {k0 : Heap} {site : Location} {a : Nat}

/-- A raised value is a new string that names the place and the message. -/
def Reports (site : Location) (k0 : Heap) (v : Value) (k : Heap) : Prop :=
  ∃ a message, v = .str a ∧ k0.nextFree < a ∧ k.get? a = some (.str (site.text ++ ": " ++ message))

theorem stable_spares (site : Location) (k0 : Heap) : Stable site k0.Spares (Reports site k0) where
  collected {h} hw hs := by
    have hsub : ∀ a o, h.collected.get? a = some o → h.heap.get? a = some o := fun a o hget =>
      Collects.get? (.collect .refl) hw.1 hget
    exact ⟨nextFree_collected h ▸ hs.grown, fun a o ha hget => hs.old a o ha (hsub a o hget),
      fun a o b ha hget hb => hs.apart a o b ha (hsub a _ hget) hb⟩
  place _ _ harr hs := hs.place harr
  array elements _ hs := hs.withArray elements
  raised c message _ hs hobj :=
    ⟨_, message, rfl, hs.lt_nextAddress, by rw [Heap.get?_place, if_pos rfl, hobj]⟩

/-! ## A new array is filled -/

theorem spares_changeArray (ha : k0.nextFree < a) {f : ArrayObject → ArrayObject}
    (hf : ∀ o b, h.heap.get? a = some (.array o) → (f o).buffer = some b → k0.nextFree < b)
    (hs : k0.Spares h.heap) : Upholds k0.Spares (Reports site k0) (changeArray a f h) := by
  refine .inspect_bind fun o harr => ?_
  have hget := get?_of_arrayAt harr
  refine .change (hs.modify ha fun p o' b hp hp' hb => ?_)
  cases hget.symm.trans hp
  exact hf o b hget (Object.array.inj hp' ▸ hb)

theorem spares_storeElement (ha : k0.nextFree < a) (index : Nat) (v : Value)
    (hs : k0.Spares h.heap) : Upholds k0.Spares (Reports site k0) (storeElement a index v h) := by
  refine .inspect_bind fun o harr => ?_
  cases hb : o.buffer with
  | none => exact hs
  | some b =>
    -- the buffer of a new array is new as well
    have hnew := hs.apart a o b ha (get?_of_arrayAt harr) hb
    have hspared : k0.Spares (h.heap.withElement b index v) := by
      refine hs.modify hnew fun p o' b' hp hp' hb' => ?_
      cases p with
      | array q => exact hs.apart b o' b' hnew (hp.trans (congrArg some hp')) hb'
      | str | buffer | dict | cls | inst => cases hp'
    refine .inspect_bind fun p _ => ?_
    cases p with
    | buffer buf =>
      simp only
      split
      · exact hspared
      · trivial
    | str | array | dict | cls | inst => exact hs

theorem preserves_pushElement (ha : k0.nextFree < a) (v : Value) :
    Preserves k0.Spares (Reports site k0) (pushElement a v) := by
  have hlast : ∀ (n : Nat) (h : Host), k0.Spares h.heap → Upholds k0.Spares (Reports site k0)
      ((do storeElement a n v; changeArray a fun o => { o with len := o.len + 1 }) h) := by
    intro n h hs
    refine (spares_storeElement ha n v hs).bind fun _ g _ hs => ?_
    exact spares_changeArray ha (fun o b hget hb => hs.apart a o b ha hget hb) hs
  refine ⟨fun h => (tame_pushElement a v).whole, fun h hw hs => .inspect_bind fun o harr => ?_⟩
  split
  · refine Upholds.bind ?_ fun _ g _ hs => hlast o.len g hs
    refine .inspect_bind fun elements _ => .withFrame ?_
    have hw' := hw.spilled [.array a, v]
    have halloc : Preserves k0.Spares (Reports site k0) (allocate (.buffer
        { owner := a, elements := storage elements (max (o.capacity * 2) minCapacity) })) := by
      refine (stable_spares site k0).allocate (fun _ hp => nomatch hp) (by simp [Object.kind]) ?_
      rw [Object.size, size_storage]
      unfold minCapacity
      omega
    refine (halloc.upholds _ hw' hs).bind fun b g hr hs' => ?_
    obtain ⟨m, hc, rfl, -⟩ := allocate_ok hw'.1 hr
    refine spares_changeArray ha (fun _ b _ hb => ?_) hs'
    cases hb
    exact ((stable_spares site k0).collects hw' hs hc).lt_nextAddress
  · exact hlast o.len h hs

theorem preserves_dictKeys (v : Value) : Preserves k0.Spares (Reports site k0) (dictKeys v site) := by
  have hM := (stable_spares site k0).inquiring
  refine ⟨fun h => (tame_dictKeys v site).whole, fun h hw hs => ?_⟩
  unfold dictKeys
  split
  · rename_i d
    refine .inspect_bind fun _ _ => .withFrame ?_
    have hw' := hw.spilled [.dict d]
    refine ((hM.allocateArray #[]).upholds _ hw' hs).bind fun b g hr hs' => .withFrame ?_
    have hnew : k0.nextFree < b := by
      have hcases := allocateArray_cases hw'.1 #[]
      rw [hr] at hcases
      cases hcases with
      | ok hc => exact ((stable_spares site k0).collects (hw'.spilled _) hs hc).lt_nextAddress
    have hpush : ∀ texts, Preserves k0.Spares (Reports site k0) (pushStrings b texts) := by
      intro texts
      induction texts with
      | nil => exact .pure _
      | cons text rest ih => exact (hM.string text).bind fun v => (preserves_pushElement hnew v).bind fun _ => ih
    refine ((hpush _).bind fun _ => .pure _).upholds _ ?_ hs'
    exact ((tame_allocateArray #[]).ok hw' hr).1.withStack _
  · exact (hM.failure _).upholds h hw hs

/-! ## Changes come last -/

/-- The property holds if there is no answer. -/
def UpholdsFailing (P : Heap → Prop) (E : Value → Heap → Prop) :
    EStateM.Result Interrupt Host α → Prop
  | .ok .. => True
  | .error e g => Upholds P E (.error e g : EStateM.Result Interrupt Host α)

section Failing

variable {P : Heap → Prop} {E : Value → Heap → Prop} {x : Act α} {f : α → Act β}

theorem UpholdsFailing.bind (hx : UpholdsFailing P E (x h))
    (hf : ∀ a g, UpholdsFailing P E (f a g)) : UpholdsFailing P E ((x >>= f) h) := by
  rw [bind_apply]
  cases hr : x h with
  | ok a g => exact hf a g
  | error e g =>
    rw [hr] at hx
    cases e <;> exact hx

theorem Upholds.failing {r : Result α} (hr : Upholds P E r) :
    UpholdsFailing P E r := by
  cases r with
  | ok a g => trivial
  | error e g => exact hr

theorem Frugal.failing (hx : Frugal x) (h : Host) : UpholdsFailing P E (x h) := by
  have hxh := hx h
  generalize x h = r at hxh
  cases r with
  | ok a g => trivial
  | error e g =>
    obtain ⟨f, rfl⟩ := hxh
    trivial

theorem Preserves.failing_bind (hx : Preserves P E x) (hw : h.Whole) (hP : P h.heap)
    (hf : ∀ a g, g.Whole → P g.heap → UpholdsFailing P E (f a g)) :
    UpholdsFailing P E ((x >>= f) h) := by
  have hu := hx.upholds h hw hP
  have hwhole := hx.whole h hw
  unfold afterwards at hwhole
  rw [bind_apply]
  cases hr : x h with
  | ok a g =>
    rw [hr] at hu hwhole
    exact hf a g hwhole hu
  | error e g =>
    rw [hr] at hu
    cases e <;> exact hu

end Failing

theorem frugal_setEntry (a : Nat) (key : String) (v : Value) : Frugal (setEntry a key v) :=
  .bind (.inspect _) fun _ => .change _ _

theorem failing_pushElement (hw : h.Whole) (v : Value) (hs : k0.Spares h.heap) :
    UpholdsFailing k0.Spares (Reports site k0) (pushElement a v h) := by
  have hlast : ∀ n : Nat, Frugal (do
      storeElement a n v
      changeArray a fun o => { o with len := o.len + 1 } : Act Unit) := fun n =>
    .bind (.storeElement _ _ _) fun _ => .changeArray _ _
  unfold pushElement
  cases harr : h.heap.arrayAt a with
  | error e =>
    rw [bind_error (inspect_error harr)]
    trivial
  | ok o =>
    rw [bind_ok (inspect_ok harr)]
    split
    · have hget := get?_of_arrayAt harr
      obtain ⟨elements, helems, -⟩ := elements_eq hw.2.laid hget
      have hcases := grow_cases hw.1 hget helems v
      refine .bind ?_ fun _ g => (hlast o.len).failing g
      generalize grow a o v h = r at hcases
      cases hcases with
      | ok | lost => trivial
      | failed hc quiet =>
        rename_i m e
        have hkept : k0.Spares m.heap := (stable_spares site k0).collects (hw.spilled _) hs hc
        cases e with
        | raise w => exact absurd rfl (quiet w)
        | fatal e => exact hkept
        | fault f => trivial
    · exact (hlast o.len).failing h

theorem failing_indexSet (hw : h.Whole) (hs : k0.Spares h.heap) (container index v : Value) :
    UpholdsFailing k0.Spares (Reports site k0) (indexSet container index v site h) := by
  have hM := (stable_spares site k0).inquiring
  unfold indexSet
  split
  · exact (hM.inspect _).failing_bind hw hs fun o g hw hs =>
      (hM.position index o.len).failing_bind hw hs fun i g _ _ => (Frugal.storeElement _ _ _).failing g
  · exact (hM.dictKey index).failing_bind hw hs fun key g _ _ => (frugal_setEntry _ _ _).failing g
  · exact ((hM.failure _).upholds h hw hs).failing

theorem failing_memberSet (hw : h.Whole) (hs : k0.Spares h.heap) (target : Value) (name : String)
    (v : Value) (inside : Bool) :
    UpholdsFailing k0.Spares (Reports site k0) (memberSet target name v inside site h) := by
  have hM := (stable_spares site k0).inquiring
  refine (hM.receiver target name).failing_bind hw hs ?_
  rintro ⟨i, c⟩ g hw hs
  simp only
  cases c.field? name with
  | none => exact ((hM.failure _).upholds g hw hs).failing
  | some f =>
    simp only
    split
    · exact ((hM.failure _).upholds g hw hs).failing
    · exact (frugal_setEntry _ _ _).failing g

theorem failing_append (hw : h.Whole) (hs : k0.Spares h.heap) (array v : Value) :
    UpholdsFailing k0.Spares (Reports site k0) (append array v site h) := by
  unfold append
  split
  · exact (failing_pushElement hw v hs).bind fun _ g => (Frugal.pure _).failing g
  · exact (((stable_spares site k0).failure _).upholds h hw hs).failing

/-! ## Operations -/

/-- Objects that are still there are as they were. -/
def Untouched (h g : Host) : Prop :=
  ∀ (a : Nat) (o p : Object), h.heap.get? a = some o → g.heap.get? a = some p → p = o

/-- How an operation at a place may end: with an answer, a raise, or the end of the program. In a sound
host and on live values the only fault is that a size or an address does not fit into 64 bits. -/
def Restrained (site : Location) (h : Host) (arguments : List Value) :
    EStateM.Result Interrupt Host α → Prop
  | .ok _ g => Untouched h g ∧ SameFrame h g
  | .error (.raise v) g => Untouched h g ∧ Raised v h g ∧ Reports site h.heap v g.heap
  | .error (.fatal _) g => Untouched h g ∧ SameFrame h g
  | .error (.fault f) _ => h.Sound → (∀ v ∈ arguments, v.LiveIn h.heap) → f = .overflow

/-- How an operation that changes an object may end early. -/
def RestrainedFailing (site : Location) (h : Host) (arguments : List Value) :
    EStateM.Result Interrupt Host α → Prop
  | .ok .. => True
  | .error e g => Restrained site h arguments (.error e g : EStateM.Result Interrupt Host α)

theorem Heap.Spares.untouched (hw : h.Whole) (hs : h.heap.Spares g.heap) : Untouched h g := by
  intro a o p ho hp
  obtain ⟨c, hc, -⟩ := Heap.get?_eq_some_iff.mp ho
  exact Option.some.inj ((hs.old a p (hw.1.wellFormed.lt_next hc) hp).symm.trans ho)

theorem Alike.overflow_of_fault {Q : α → Heap → Heap → Prop} {r s : Result α}
    (hx : Alike L h h Q r s) (hrs : r = s) {f : Fault} (hr : r = .error (.fault f) g) :
    f = .overflow := by
  cases hx with
  | ok | raise | fatal => cases hr
  | overflow => exact (Interrupt.fault.inj (EStateM.Result.error.inj hr).1).symm
  | left out =>
    obtain ⟨_, _, _, _, hout, -⟩ := out
    cases hr.symm.trans hout
  | right out =>
    obtain ⟨_, _, _, _, hout, -⟩ := out
    cases hr.symm.trans (hrs.trans hout)

section

variable {x : Act α} {arguments : List Value} {Q : α → Heap → Heap → Prop}

theorem restrainedFailing (hx : Tame x) (hw : h.Whole)
    (hu : UpholdsFailing h.heap.Spares (Reports site h.heap) (x h))
    (hlike : Twin .any h h → (∀ v ∈ arguments, Heap.Live h.heap h.heap v) →
      Alike .any h h Q (x h) (x h)) : RestrainedFailing site h arguments (x h) := by
  have hlvs := hx.leaves h hw.1
  cases hr : x h with
  | ok a g => trivial
  | error e g =>
    rw [hr] at hlvs hu
    cases e with
    | raise v => exact ⟨Heap.Spares.untouched hw hu.1, hlvs.2, hu.2⟩
    | fatal e => exact ⟨Heap.Spares.untouched hw hu, hlvs.2.frame⟩
    | fault f =>
      intro hs hlv
      exact (hlike (hs.twin hw) fun v hv => ⟨hlv v hv, hlv v hv⟩).overflow_of_fault rfl hr

theorem restrained (hx : Tame x) (hw : h.Whole)
    (hp : Preserves h.heap.Spares (Reports site h.heap) x)
    (hlike : Twin .any h h → (∀ v ∈ arguments, Heap.Live h.heap h.heap v) →
      Alike .any h h Q (x h) (x h)) : Restrained site h arguments (x h) := by
  have hu := hp.upholds h hw (.refl hw.1.wellFormed)
  have hfailing := restrainedFailing hx hw hu.failing hlike
  -- early ends are those of the failing case; only an answer is new here
  have hlvs := hx.leaves h hw.1
  cases hr : x h with
  | ok a g =>
    rw [hr] at hlvs hu
    exact ⟨Heap.Spares.untouched hw hu, hlvs.2⟩
  | error e g =>
    rw [hr] at hfailing
    exact hfailing

end

/-- **Operations change nothing that they should not.** In every state that a host can reach: an
operation that asks leaves the objects that are still there as they were, the slots and the arguments;
also the stacks, the checkpoints and the exception if it gives an answer or ends the program; and if it
raises, it has taken the innermost checkpoint, cut the stacks to its depths, and the exception is a new
string with the place and the message. The same holds of an operation that changes an object when it
ends early. -/
theorem operations_restrained (hr : Reachable h) (site : Location) :
    (∀ op lhs rhs, Restrained site h [lhs, rhs] (operate op lhs rhs site h)) ∧
    (∀ container item, Restrained site h [container, item] (contains container item site h)) ∧
    (∀ container index, Restrained site h [container, index] (indexGet container index site h)) ∧
    (∀ container start stop, Restrained site h [container, start, stop]
      (slice container start stop site h)) ∧
    (∀ v, Restrained site h [v] (length v site h)) ∧
    (∀ v, Restrained site h [v] (dictKeys v site h)) ∧
    (∀ v, Restrained site h [v] (toInt v site h)) ∧
    (∀ v, Restrained site h [v] (toFloat v site h)) ∧
    (∀ target name inside, Restrained site h [target] (memberGet target name inside site h)) ∧
    (∀ container index v, RestrainedFailing site h [container, index, v]
      (indexSet container index v site h)) ∧
    (∀ target name v inside, RestrainedFailing site h [target, v]
      (memberSet target name v inside site h)) ∧
    (∀ array v, RestrainedFailing site h [array, v] (builtin .append [array, v] site h)) := by
  have hw := reachable_whole hr
  have hs : h.heap.Spares h.heap := .refl hw.1.wellFormed
  have hM := (stable_spares site h.heap).inquiring
  exact ⟨fun op lhs rhs => restrained (tame_operate ..) hw (hM.operate ..) fun ht hl =>
      alike_operate ht op (hl lhs (.head _)) (hl rhs (.tail _ (.head _))) site,
    fun container item => restrained (tame_contains ..) hw (hM.contains ..) fun ht hl =>
      alike_contains ht (hl container (.head _)) (hl item (.tail _ (.head _))) site,
    fun container index => restrained (tame_indexGet ..) hw (hM.indexGet ..) fun ht hl =>
      alike_indexGet ht (hl container (.head _)) (hl index (.tail _ (.head _))) site,
    fun container start stop => restrained (tame_slice ..) hw (hM.slice ..) fun ht hl =>
      alike_slice ht (hl container (.head _)) start stop site,
    fun v => restrained (tame_length ..) hw (hM.length _) fun ht hl =>
      alike_length ht (hl v (.head _)) site,
    fun v => restrained (tame_dictKeys ..) hw (preserves_dictKeys v) fun ht hl =>
      alike_dictKeys ht (hl v (.head _)) site,
    fun v => restrained (tame_toInt ..) hw (hM.toInt _) fun ht _ => alike_toInt ht v site,
    fun v => restrained (tame_toFloat ..) hw (hM.toFloat _) fun ht _ => alike_toFloat ht v site,
    fun target name inside => restrained (tame_memberGet ..) hw (hM.memberGet ..) fun ht hl =>
      alike_memberGet ht (hl target (.head _)) name inside site,
    fun container index v => restrainedFailing (tame_indexSet ..) hw (failing_indexSet hw hs ..)
      fun ht hl => alike_indexSet ht (hl container (.head _)) (hl index (.tail _ (.head _)))
        (hl v (.tail _ (.tail _ (.head _)))) site,
    fun target name v inside => restrainedFailing (tame_memberSet ..) hw (failing_memberSet hw hs ..)
      fun ht hl => alike_memberSet ht (hl target (.head _)) (hl v (.tail _ (.head _))) name inside site,
    fun array v => restrainedFailing (tame_builtin ..) hw (failing_append hw hs array v)
      fun ht hl => alike_builtin ht .append hl site⟩

/-- A host with an array in a slot that is registered as a root, a checkpoint, and settings under
which every allocation collects first. -/
def guarded : Host :=
  afterwards Request.tryPush.perform <|
    afterwards (Request.store 0 (.array 0x100020)).perform <|
      afterwards (Request.newArray #[.int 1]).perform <|
        afterwards (Request.pushRoot 0).perform <|
          afterwards Request.newSlot.perform (Host.new restless)

/-- The string that was raised. -/
def told : Result α → Option Object
  | .error (.raise (.str a)) g => g.heap.get? a
  | _ => none

theorem reachable_guarded : Reachable guarded :=
  .request .tryPush (.request (.store 0 _) (.request (.newArray _) (.request (.pushRoot 0)
    (.request .newSlot (.new restless {}) trivial) Nat.zero_lt_one) trivial) trivial) trivial

/-- Null has no length: after a collection this is raised, and the array is as it was. -/
theorem operations_restrained_guarded : Reachable guarded ∧
    guarded.roots.depth = 1 ∧ guarded.heap.elements 0x100020 = .ok #[.int 1] ∧
    told (length .null ⟨"m", 3⟩ guarded) = some (.str "m:3: null has no length") ∧
    ∃ v g, length .null ⟨"m", 3⟩ guarded = .error (.raise v) g ∧ Untouched guarded g ∧
      Raised v guarded g ∧ Reports ⟨"m", 3⟩ guarded.heap v g.heap := by
  have htold : told (length .null ⟨"m", 3⟩ guarded) = some (.str "m:3: null has no length") := by
    decide +kernel
  refine ⟨reachable_guarded, by decide +kernel, by decide +kernel, htold, ?_⟩
  have hlen := (operations_restrained reachable_guarded ⟨"m", 3⟩).2.2.2.2.1 .null
  unfold told at htold
  split at htold
  · rename_i a g hr
    rw [hr] at hlen
    exact ⟨.str a, g, hr, hlen.1, hlen.2.1, hlen.2.2⟩
  · cases htold

end Host

end Ember
