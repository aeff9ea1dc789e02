import Ember.Proofs.Host.Tame

/-!
# Ember — collections are exact in every state that a host can reach

A host is used through requests. Whatever requests were made before, with whatever values and
whatever words on the machine stack, a collection keeps exactly the objects that the roots reach and
the pinned ones, and a second one right after it frees nothing.

Main result: `collect_exact`.
-/

namespace Ember.Host

variable {α : Type} {h : Host}

/-! ## Requests -/

/-- What can be asked of a host. Operations that run code of the program are given by their parts:
what they do before, between and after that code. -/
inductive Request
  | newSlot
  | load (slot : Nat)
  | store (slot : Nat) (v : Value)
  | pushRoot (slot : Nat)
  | popRoots (count : Nat)
  /-- Any change of the machine stack: words pushed, cut or overwritten, the bottom moved. -/
  | onStack (f : Stack → Stack)
  | setArguments (arguments : List String)
  | setConsole (console : Console)
  | collect
  | string (text : String)
  | newArray (elements : Array Value)
  | pushElement (a : Address) (v : Value)
  | storeElement (a : Address) (index : Nat) (v : Value)
  | newDict
  | setEntry (a : Address) (key : String) (v : Value)
  | display (v : Value)
  | truthy (v : Value)
  | equal (lhs rhs : Value)
  | operate (op : Operator) (lhs rhs : Value) (site : Location)
  | contains (container item : Value) (site : Location)
  | indexGet (container index : Value) (site : Location)
  | indexSet (container index v : Value) (site : Location)
  | slice (container start stop : Value) (site : Location)
  | length (v : Value) (site : Location)
  | dictKeys (v : Value) (site : Location)
  | toInt (v : Value) (site : Location)
  | toFloat (v : Value) (site : Location)
  | newClass (name : String)
  | addField (v : Value) (field : Field)
  | addMethod (v : Value) (method : Method)
  | memberGet (target : Value) (name : String) (inside : Bool) (site : Location)
  | memberSet (target : Value) (name : String) (v : Value) (inside : Bool) (site : Location)
  | methodFor (target : Value) (name : String) (supplied : Nat) (inside : Bool) (site : Location)
  | begin (cls : Value) (arguments : List Value) (site : Location)
  | assign (c : Construction) (field : Field) (v : Value)
  | conclude (c : Construction)
  | finish (c : Construction)
  | tryPush
  | tryPop
  | raise (v : Value) (site : Location)
  | failure (site : Location) (message : String)
  | caught (v : Value) (site : Location)
  | builtin (b : Ir.Builtin) (arguments : List Value) (site : Location)

/-- Does what is asked, and drops the answer. -/
def Request.perform : Request → Act Unit
  | .newSlot => discard Host.newSlot
  | .load slot => discard (Host.load slot)
  | .store slot v => Host.store slot v
  | .pushRoot slot => Host.pushRoot slot
  | .popRoots count => Host.popRoots count
  | .onStack f => Host.onStack f
  | .setArguments arguments => modify fun h => { h with arguments }
  | .setConsole console => modify fun h => { h with console }
  | .collect => discard Host.collect
  | .string text => discard (Host.string text)
  | .newArray elements => discard (Host.newArray elements)
  | .pushElement a v => Host.pushElement a v
  | .storeElement a index v => Host.storeElement a index v
  | .newDict => discard Host.newDict
  | .setEntry a key v => Host.setEntry a key v
  | .display v => discard (Host.display v)
  | .truthy v => discard (Host.inspect fun heap => Host.truthy heap v)
  | .equal lhs rhs => discard (Host.inspect fun heap => Host.equal heap lhs rhs)
  | .operate op lhs rhs site => discard (Host.operate op lhs rhs site)
  | .contains container item site => discard (Host.contains container item site)
  | .indexGet container index site => discard (Host.indexGet container index site)
  | .indexSet container index v site => Host.indexSet container index v site
  | .slice container start stop site => discard (Host.slice container start stop site)
  | .length v site => discard (Host.length v site)
  | .dictKeys v site => discard (Host.dictKeys v site)
  | .toInt v site => discard (Host.toInt v site)
  | .toFloat v site => discard (Host.toFloat v site)
  | .newClass name => discard (Host.newClass name)
  | .addField v field => Host.addField v field
  | .addMethod v method => Host.addMethod v method
  | .memberGet target name inside site => discard (Host.memberGet target name inside site)
  | .memberSet target name v inside site => Host.memberSet target name v inside site
  | .methodFor target name supplied inside site =>
    discard (Host.methodFor target name supplied inside site)
  | .begin cls arguments site => discard (Host.begin cls arguments site)
  | .assign c field v => Host.assign c field v
  | .conclude c => discard (Host.conclude c)
  | .finish c => discard (Host.finish c)
  | .tryPush => Host.tryPush
  | .tryPop => Host.tryPop
  | .raise v site => Host.raise v site
  | .failure site message => Host.failure site message
  | .caught v site => discard (Host.caught v site)
  | .builtin b arguments site => discard (Host.builtin b arguments site)

/-- A slot is registered only if the host has handed it out. -/
def Request.Admissible (h : Host) : Request → Prop
  | .pushRoot slot => slot < h.slots.size
  | _ => True

/-- The state in which an action leaves a host, however it ends. -/
def afterwards {α : Type} (x : Act α) (h : Host) : Host :=
  match x h with
  | .ok _ h => h
  | .error _ h => h

/-- The states that a host can reach. -/
inductive Reachable : Host → Prop
  | new (config : Config) (console : Console) : Reachable (Host.new config console)
  | request {h : Host} (r : Request) : Reachable h → r.Admissible h →
      Reachable (afterwards r.perform h)

/-! ## Every reachable state is orderly and regular -/

/-- Orderly and regular. -/
def Whole (h : Host) : Prop :=
  h.Orderly ∧ h.Regular

theorem Mild.whole {x : Act α} (hx : Tame x) (hw : h.Whole) : (afterwards x h).Whole := by
  have hxh := hx.leaves h hw.1
  have hxr := hx.keeps h hw.1 hw.2
  unfold afterwards
  cases hr : x h with
  | ok a h' =>
    rw [hr] at hxh hxr
    exact ⟨hxh.1, hxr⟩
  | error e h' =>
    rw [hr] at hxh hxr
    cases e with
    | raise v => exact ⟨hxh.1, hxr⟩
    | fatal e => exact ⟨hxh.1, hxr⟩
    | fault f => exact ⟨hxh, hxr⟩

theorem Whole.congr {g : Host} (hw : h.Whole) (ho : g.Orderly) (hheap : g.heap = h.heap)
    (hconfig : g.config = h.config) : g.Whole :=
  ⟨ho, hw.2.congr hheap hconfig⟩

theorem Whole.withStack (hw : h.Whole) (stack : Stack) : Whole { h with stack } :=
  hw.congr (hw.1.withStack stack) rfl rfl

theorem afterwards_bind {β : Type} {P : Host → Prop} {x : Act α} {f : α → Act β}
    (hx : P (afterwards x h)) (hf : ∀ a h', x h = .ok a h' → P (afterwards (f a) h')) :
    P (afterwards (x >>= f) h) := by
  unfold afterwards at hx ⊢
  cases hr : x h with
  | ok a h' =>
    rw [bind_ok hr]
    exact hf a h' hr
  | error e h' =>
    rw [bind_error hr]
    rw [hr] at hx
    exact hx

theorem afterwards_discard (x : Act α) (h : Host) : afterwards (discard x) h = afterwards x h := by
  have hmap : discard x = Function.const α PUnit.unit <$> x := by
    rw [discard, map_const]
    rfl
  rw [hmap]
  unfold afterwards
  rw [map_apply]
  cases x h <;> rfl

theorem Orderly.truncateRoots (ho : h.Orderly) (n : Nat) :
    Orderly { h with roots := h.roots.truncate n } :=
  ⟨ho.wellFormed, ho.unmarked, ho.idle, fun slot hs => ho.slots slot (mem_of_mem_take hs)⟩

theorem whole_new (config : Config) (console : Console) : (Host.new config console).Whole := by
  refine ⟨⟨Heap.wellFormed_empty _ _, ?_, rfl, ?_⟩, regular_new config console⟩
  · intro a c hc
    simp [Host.new, Heap.empty] at hc
  · intro slot hs
    simp [Host.new] at hs

theorem whole_newSlot (hw : h.Whole) : (afterwards newSlot h).Whole := by
  have ho := hw.1
  refine hw.congr ⟨ho.wellFormed, ho.unmarked, ho.idle, fun slot hs => ?_⟩ rfl rfl
  have : slot < h.slots.size := ho.slots slot hs
  show slot < (h.slots.push default).size
  rw [Array.size_push]
  omega

theorem whole_store (hw : h.Whole) (slot : Nat) (v : Value) :
    (afterwards (store slot v) h).Whole := by
  have ho := hw.1
  unfold afterwards store
  by_cases hs : slot < h.slots.size
  · rw [if_pos hs]
    refine hw.congr ⟨ho.wellFormed, ho.unmarked, ho.idle, fun s hmem => ?_⟩ rfl rfl
    show s < (h.slots.setIfInBounds slot v).size
    rw [Array.size_setIfInBounds]
    exact ho.slots s hmem
  · rw [if_neg hs]
    exact hw

theorem whole_pushRoot (hw : h.Whole) {slot : Nat} (hs : slot < h.slots.size) :
    (afterwards (pushRoot slot) h).Whole := by
  have ho := hw.1
  unfold afterwards pushRoot
  rw [get_bind]
  unfold RootStack.push
  by_cases hd : h.roots.depth = h.roots.capacity
  · simp only [hd, if_true]
    exact hw
  · simp only [hd, if_false]
    refine hw.congr ⟨ho.wellFormed, ho.unmarked, ho.idle, fun s hmem => ?_⟩ rfl rfl
    have hmem : s ∈ h.roots.slots.push slot := hmem
    rcases Array.mem_push.mp hmem with hmem | rfl
    · exact ho.slots s hmem
    · exact hs

theorem whole_popRoots (hw : h.Whole) (count : Nat) : (afterwards (popRoots count) h).Whole := by
  unfold afterwards popRoots
  rw [get_bind]
  unfold RootStack.pop
  by_cases hd : h.roots.depth < count
  · simp only [hd, if_true]
    exact hw
  · simp only [hd, if_false]
    exact hw.congr (hw.1.truncateRoots _) rfl rfl

theorem whole_restoring {x : Act α} (depth : Nat) (hx : (afterwards x h).Whole) :
    (afterwards (restoring depth x) h).Whole := by
  unfold afterwards restoring at *
  cases hr : x h with
  | ok a h' =>
    rw [hr] at hx
    exact hx
  | error e h' =>
    rw [hr] at hx
    exact hx.withStack _

theorem whole_begin (hw : h.Whole) (cls : Value) (arguments : List Value) (site : Location) :
    (afterwards (begin cls arguments site) h).Whole := by
  -- what a successful part leaves is what the next one starts from
  have hok : ∀ {α : Type} {x : Act α} {h h' : Host} {a : α}, Tame x → h.Whole → x h = .ok a h' →
      h'.Whole := by
    intro α x h h' a hx hw hr
    have := hx.whole hw
    unfold afterwards at this
    rw [hr] at this
    exact this
  unfold begin
  split
  · rename_i a
    refine afterwards_bind hw fun _ _ hr => ?_
    cases hr
    refine whole_restoring _ (afterwards_bind (hw.withStack _) fun _ h1 hr1 => ?_)
    obtain ⟨-, rfl⟩ := EStateM.Result.ok.inj hr1
    have hw1 := hw.withStack (h.stack.pushValues arguments)
    refine afterwards_bind (tame_allocateDict.whole hw1) fun fields h2 hr2 => ?_
    have hw2 := hok tame_allocateDict hw1 hr2
    have hinst := Mild.withFrame [.dict fields] (tame_allocateInst a fields)
    refine afterwards_bind (hinst.whole hw2) fun i h3 hr3 => ?_
    have hw3 := hok hinst hw2 hr3
    refine afterwards_bind (hw3.withStack _) fun _ h4 hr4 => ?_
    obtain ⟨-, rfl⟩ := EStateM.Result.ok.inj hr4
    exact Mild.whole (.bind (.inspect _) fun _ => .pure _) (hw3.withStack _)
  · exact (tame_failure ..).whole hw

/-- No request leaves the heap malformed, a collection half done, or the bounds of the memory
passed. -/
theorem whole_perform (hw : h.Whole) (r : Request) (hr : r.Admissible h) :
    (afterwards r.perform h).Whole := by
  have ho := hw.1
  have htame : ∀ {α : Type} {x : Act α}, Tame x → (afterwards (discard x) h).Whole := by
    intro α x hx
    rw [afterwards_discard]
    exact hx.whole hw
  cases r with
  | newSlot => rw [Request.perform, afterwards_discard]; exact whole_newSlot hw
  | load slot =>
    rw [Request.perform, afterwards_discard]
    refine afterwards_bind hw fun _ _ hr => ?_
    cases hr
    split
    · exact hw
    · exact hw
  | store slot v => exact whole_store hw slot v
  | pushRoot slot => exact whole_pushRoot hw hr
  | popRoots count => exact whole_popRoots hw count
  | onStack f => exact hw.withStack _
  | setArguments arguments =>
    exact hw.congr ⟨ho.wellFormed, ho.unmarked, ho.idle, ho.slots⟩ rfl rfl
  | setConsole console => exact hw.congr ⟨ho.wellFormed, ho.unmarked, ho.idle, ho.slots⟩ rfl rfl
  | collect => exact htame Mild.collect
  | string text => exact htame (tame_string _)
  | newArray elements => exact htame (tame_newArray _)
  | pushElement a v => exact (tame_pushElement ..).whole hw
  | storeElement a index v => exact (tame_storeElement ..).whole hw
  | newDict => exact htame tame_newDict
  | setEntry a key v => exact (tame_setEntry ..).whole hw
  | display v => exact htame (tame_display _)
  | truthy v => exact htame (.inspect _)
  | equal lhs rhs => exact htame (.inspect _)
  | operate op lhs rhs site => exact htame (tame_operate ..)
  | contains container item site => exact htame (tame_contains ..)
  | indexGet container index site => exact htame (tame_indexGet ..)
  | indexSet container index v site => exact (tame_indexSet ..).whole hw
  | slice container start stop site => exact htame (tame_slice ..)
  | length v site => exact htame (tame_length ..)
  | dictKeys v site => exact htame (tame_dictKeys ..)
  | toInt v site => exact htame (tame_toInt ..)
  | toFloat v site => exact htame (tame_toFloat ..)
  | newClass name => exact htame (tame_newClass _)
  | addField v field => exact (tame_changeClass ..).whole hw
  | addMethod v method => exact (tame_changeClass ..).whole hw
  | memberGet target name inside site => exact htame (tame_memberGet ..)
  | memberSet target name v inside site => exact (tame_memberSet ..).whole hw
  | methodFor target name supplied inside site => exact htame (tame_methodFor ..)
  | begin cls arguments site => rw [Request.perform, afterwards_discard]; exact whole_begin hw ..
  | assign c field v => exact (tame_assign ..).whole hw
  | conclude c => exact htame (tame_conclude _)
  | finish c => rw [Request.perform, afterwards_discard]; exact hw.withStack _
  | tryPush => exact hw.congr ⟨ho.wellFormed, ho.unmarked, ho.idle, ho.slots⟩ rfl rfl
  | tryPop => exact hw.congr ⟨ho.wellFormed, ho.unmarked, ho.idle, ho.slots⟩ rfl rfl
  | raise v site => exact (tame_raise ..).whole hw
  | failure site message => exact (tame_failure ..).whole hw
  | caught v site => exact htame (tame_caught ..)
  | builtin b arguments site => exact htame (tame_builtin ..)

theorem reachable_whole (hr : Reachable h) : h.Whole := by
  induction hr with
  | new config console => exact whole_new config console
  | request r _ hadm ih => exact whole_perform ih r hadm

theorem reachable_orderly (hr : Reachable h) : h.Orderly :=
  (reachable_whole hr).1

theorem reachable_regular (hr : Reachable h) : h.Regular :=
  (reachable_whole hr).2

/-! ## Exactness -/

/-- A collection that takes `h` to `h'` and frees `n` objects is exact: the objects afterwards are
those that were retained, their contents are as before and their marks are clear, and `n` counts the
others. -/
structure ExactCollection (h : Host) (n : Nat) (h' : Host) : Prop where
  kept : ∀ a : Nat, a ∈ h'.heap.cells ↔ h.Retained a
  contents : ∀ (a : Nat) (c : Cell), h'.heap.cells[a]? = some c →
    ∃ d, h.heap.cells[a]? = some d ∧ c = { d with marked := false }
  counted : n + h'.heap.cells.size = h.heap.cells.size
  frame : SameFrame h h'

theorem exactCollection (ho : h.Orderly) :
    ExactCollection h h.freed { h with heap := h.collected } := by
  classical
  have hget := getElem?_collected ho
  constructor
  case kept =>
    intro a
    rw [NatMap.mem_iff_getElem?, hget]
    constructor
    · rintro ⟨c, hc⟩
      by_contra hnot
      rw [if_neg hnot] at hc
      simp at hc
    · intro hr
      rw [if_pos hr]
      rcases hr with hr | ⟨c, hc, -⟩
      · exact (NatMap.mem_iff_getElem? _ _).mp hr.mem
      · exact ⟨c, hc⟩
  case contents =>
    intro a c hc
    rw [hget] at hc
    split at hc
    · refine ⟨c, hc, ?_⟩
      have := ho.unmarked a c hc
      cases c
      simp_all
    · simp at hc
  case counted => exact freed_add_size ho
  case frame => exact .heap h _

theorem exactCollection_again (ho : h.Orderly) :
    let h' : Host := { h with heap := h.collected }
    h'.freed = 0 ∧ (∀ a : Nat, h'.collected.cells[a]? = h'.heap.cells[a]?) ∧
      h'.collected.threshold = h'.heap.threshold := by
  classical
  intro h'
  have ho' : h'.Orderly := orderly_collected ho
  have hexact := exactCollection ho
  have hexact' := exactCollection ho'
  have hsame : ∀ a : Nat, h'.collected.cells[a]? = h'.heap.cells[a]? := getElem?_collected_again ho
  have hsize : h'.collected.cells.size = h'.heap.cells.size := by
    rw [← Std.TreeMap.length_keys, ← Std.TreeMap.length_keys]
    apply List.Perm.length_eq
    rw [List.perm_ext_iff_of_nodup Std.TreeMap.nodup_keys Std.TreeMap.nodup_keys]
    intro a
    rw [Std.TreeMap.mem_keys, Std.TreeMap.mem_keys, NatMap.mem_iff_getElem?, NatMap.mem_iff_getElem?,
      hsame]
  refine ⟨?_, hsame, ?_⟩
  · have hcnt : h'.freed + h'.collected.cells.size = h'.heap.cells.size := freed_add_size ho'
    omega
  · have hmin : h'.heap.minThreshold = h.heap.minThreshold := (Heap.trims_sweep _).minThreshold
    rw [threshold_collected ho', hsize, hmin]
    exact (threshold_collected ho).symm

/-- **Collections are exact.** In every reachable state a collection succeeds and is exact, and a
second one right after it frees nothing and leaves the objects and the threshold as they are. -/
theorem collect_exact {h : Host} (hr : Reachable h) :
    ∃ n h', collect h = .ok n h' ∧ ExactCollection h n h' ∧
      ∃ h'', collect h' = .ok 0 h'' ∧ (∀ a : Nat, h''.heap.cells[a]? = h'.heap.cells[a]?) ∧
        h''.heap.threshold = h'.heap.threshold := by
  have ho := reachable_orderly hr
  obtain ⟨hfreed, hcells, hthr⟩ := exactCollection_again ho
  refine ⟨_, _, collect_eq ho, exactCollection ho,
    { h with heap := ({ h with heap := h.collected } : Host).collected }, ?_, hcells, hthr⟩
  rw [collect_eq (orderly_collected ho), hfreed]

/-- A rooted class, and an array that nothing but itself refers to. -/
def withCycle : Host :=
  let rooted := afterwards (Request.pushRoot 0).perform
    (afterwards Request.newSlot.perform (Host.new {}))
  let requests : List Request :=
    [.newClass "C", .store 0 (.cls 0x100020), .newArray #[],
     .pushElement 0x100070 (.array 0x100070), .onStack fun s => s.pushWord 7]
  requests.foldl (fun h r => afterwards r.perform h) rooted

theorem reachable_withCycle : Reachable withCycle := by
  have hst : Reachable (afterwards Request.newSlot.perform (Host.new {})) :=
    .request .newSlot (.new {} {}) trivial
  have hrooted := hst.request (.pushRoot 0) Nat.zero_lt_one
  have hclass := hrooted.request (.newClass "C") trivial
  have hstored := hclass.request (.store 0 (.cls 0x100020)) trivial
  have harr := hstored.request (.newArray #[]) trivial
  have hcycle := harr.request (.pushElement 0x100070 (.array 0x100070)) trivial
  exact hcycle.request (.onStack fun s => s.pushWord 7) trivial

theorem collect_exact_withCycle : Reachable withCycle ∧
    ∃ n h', collect withCycle = .ok n h' ∧ ExactCollection withCycle n h' ∧
      ∃ h'', collect h' = .ok 0 h'' ∧ (∀ a : Nat, h''.heap.cells[a]? = h'.heap.cells[a]?) ∧
        h''.heap.threshold = h'.heap.threshold :=
  ⟨reachable_withCycle, collect_exact reachable_withCycle⟩

/-- A slot that is registered and does not exist is found by the next collection. -/
theorem collect_without_slot : ∃ g, collect (afterwards (pushRoot 5) (.new {})) =
    .error (.fault (.outOfRange 5)) g :=
  ⟨_, rfl⟩

end Ember.Host
