import Ember.Proofs.Machine.Tenure

/-!
# Ember — machines side by side

Two machines run the same code on twin hosts. Between two instructions they agree in everything but
their heaps, and what the running function relies on is there in both of them.

Main result: `Together`.
-/

namespace Ember.Host

variable {i : Nat} {v : Value}

variable {L : Linkage} {h h1 h2 g1 g2 : Host}

theorem Kept.of_heap (hheap1 : g1.heap = h1.heap) (hheap2 : g2.heap = h2.heap) :
    Kept h1 h2 g1 g2 := by
  constructor
  · intro v _ hv
    rw [hheap1, hheap2]
    exact hv
  · rw [hheap1]
    exact .refl _
  · rw [hheap2]
    exact .refl _

/-- The heap, the settings, the exception and the console are as before. -/
structure SameCore (h g : Host) : Prop where
  config : g.config = h.config
  heap : g.heap = h.heap
  exception : g.exception = h.exception
  console : g.console = h.console

theorem Twin.change (ht : Twin L h1 h2) (hcore1 : SameCore h1 g1) (hcore2 : SameCore h2 g2)
    (hslt : g2.slots = g1.slots) (hrts : g2.roots = g1.roots) (hstk : g2.stack = g1.stack)
    (hcps : g2.checkpoints = g1.checkpoints) (hargs : g2.arguments = g1.arguments)
    (hin : ∀ slot ∈ g1.roots.slots, slot < g1.slots.size) (hbot : g1.stack.bottom = 0) :
    Twin L g1 g2 where
  orderly₁ := by
    obtain ⟨hwell, hunmarked, hidle, -⟩ := ht.orderly₁
    rw [← hcore1.heap] at hwell hunmarked hidle
    exact ⟨hwell, hunmarked, hidle, hin⟩
  orderly₂ := by
    obtain ⟨hwell, hunmarked, hidle, -⟩ := ht.orderly₂
    rw [← hcore2.heap] at hwell hunmarked hidle
    exact ⟨hwell, hunmarked, hidle, by rw [hrts, hslt]; exact hin⟩
  heaps := by
    rw [hcore1.heap, hcore2.heap]
    exact ht.heaps
  memoryLimit := by
    rw [hcore1.config, hcore2.config]
    exact ht.memoryLimit
  dictBuckets := by
    rw [hcore1.config, hcore2.config]
    exact ht.dictBuckets
  slots := hslt
  roots := hrts
  stack := hstk
  checkpoints := hcps
  exception := by
    rw [hcore1.exception, hcore2.exception]
    exact ht.exception
  arguments := hargs
  console := by
    rw [hcore1.console, hcore2.console]
    exact ht.console
  caught := by
    rw [hcore1.exception, hcore1.heap, hcore2.heap]
    exact ht.caught
  bottom := hbot ▸ Nat.zero_le _
  bottoms _ _ := hbot ▸ Nat.zero_le _

theorem anchored_of_word (hbot : h.stack.bottom = 0) (hword : h.stack.words[i]? = some v.word) :
    h.Anchored v := by
  refine .inr fun a ha => .inl ?_
  have hword' : v.word = UInt64.ofNat a := by
    cases v <;> simp [Value.address?] at ha <;> simp [Value.word, ha]
  unfold Stack.scan
  rw [hbot, List.drop_zero, ← hword']
  obtain ⟨hlt, heq⟩ := Array.getElem?_eq_some_iff.mp hword
  rw [← heq]
  exact Array.getElem_mem_toList hlt

theorem anchored_of_root (hi : i ∈ h.roots.slots) (hv : h.slots[i]? = some v) : h.Anchored v :=
  .inr fun _ ha => .inr (.inl ⟨i, hi, v, hv, ha⟩)

end Ember.Host

namespace Ember.Machine

open Ir (Role Context Instr pushes triesAfter Steady Fills)

variable {a : Activation} {g1 g2 h1 h2 : Host} {c : Host.Construction} {control rest : List Entry}
  {stack : Stack} {d depth : Nat} {ρ : Role} {s : Scalar}

/-- The view of two hosts in a world. -/
abbrev World.view (W : World) (h1 h2 : Host) : View :=
  .of W.linkage h1 h2

theorem World.keeps (W : World) (ht : Host.Twin W.linkage h1 h2) (hk : Host.Kept h1 h2 g1 g2)
    (hbot : h1.stack.bottom = 0)
    (hwds : ∀ i, i < depth → g1.stack.words[i]? = h1.stack.words[i]?)
    (hsize : h1.slots.size ≤ g1.slots.size) : (W.view h1 h2).Keeps (W.view g1 g2) depth where
  live x _ _ hword hx := hk.live x (Host.anchored_of_word hbot hword) hx
  making _ hc := hc.kept ht hk
  parts _ hc := ⟨hc.receiver, hc.arguments⟩
  words := hwds
  size := hsize

/-! ## Hosts -/

/-- A slot that holds a live value. -/
def SlotLive (v : View) (i : Nat) : Prop :=
  ∃ x, v.slots[i]? = some x ∧ v.live x

theorem SlotLive.lt {v : View} {i : Nat} (hi : SlotLive v i) : i < v.slots.size := by
  obtain ⟨x, hx, -⟩ := hi
  exact (Array.getElem?_eq_some_iff.mp hx).1

/-- What holds of the hosts whatever runs. Registered slots hold live values, and every slot has one
holder. -/
structure Ground (W : World) (h1 h2 : Host) (spare : List Nat) (control : List Entry) : Prop where
  twin : Host.Twin W.linkage h1 h2
  bottom : h1.stack.bottom = 0
  capacity : h1.roots.slots.size ≤ h1.roots.capacity ∧ h1.roots.capacity < 0x2000000000000000
  rooted : ∀ i ∈ h1.roots.slots, SlotLive (W.view h1 h2) i
  tenure : Tenure W h1.slots.size spare control

/-- Hosts on which everything in progress waits. -/
structure Poised (W : World) (h1 h2 : Host) (spare : List Nat) (control : List Entry) : Prop
    extends Ground W h1 h2 spare control where
  tower : Tower W (W.view h1 h2) control h1.roots.slots.toList h1.stack.depth h1.checkpoints

namespace Ground

variable {W : World} {h1 h2 g1 g2 : Host} {spare : List Nat} {control : List Entry}

theorem onward (hg : Ground W h1 h2 spare control) (ho : Host.Onward W.linkage h1 h2 g1 g2) :
    Ground W g1 g2 spare control where
  twin := ho.twin
  bottom := ho.frame.stack ▸ hg.bottom
  capacity := ho.frame.roots ▸ hg.capacity
  rooted i hi := by
    rw [ho.frame.roots] at hi
    obtain ⟨x, hx, hlv⟩ := hg.rooted i hi
    refine ⟨x, ?_, ho.live x (Host.anchored_of_root hi hx) hlv⟩
    show g1.slots[i]? = some x
    rw [ho.frame.slots]
    exact hx
  tenure := ho.frame.slots ▸ hg.tenure

theorem withStack (hg : Ground W h1 h2 spare control) (hbot : stack.bottom = 0) :
    Ground W { h1 with stack } { h2 with stack } spare control := by
  have htwin : Host.Twin W.linkage { h1 with stack } { h2 with stack } :=
    ⟨hg.twin.toMirror.withStack stack, hbot ▸ Nat.zero_le _, fun _ _ => hbot ▸ Nat.zero_le _⟩
  exact ⟨htwin, hbot, hg.capacity, hg.rooted, hg.tenure⟩

theorem put (hg : Ground W h1 h2 spare (.body a :: rest)) (hd : d < a.registers.size)
    (hρ : (W.cert a).HasRole d ρ)
    (hs : ∀ slots offset, s = .ptr (.values slots offset) → Leads a rest ρ slots) :
    Ground W { h1 with stack := a.kept d s h1.stack } { h2 with stack := a.kept d s h1.stack } spare
      (.body (a.put d s).next :: rest) :=
  { hg.withStack ((a.kept_bottom d s _).trans hg.bottom) with tenure := hg.tenure.put hd hρ hs }

theorem move {b : Activation} (hg : Ground W h1 h2 spare (.body a :: rest))
    (howned : b.owned = a.owned) (hrout : b.routine = a.routine)
    (hregs : b.registers = a.registers) : Ground W h1 h2 spare (.body b :: rest) :=
  { hg with tenure := hg.tenure.move howned hrout hregs }

theorem give {e : Entry} (hg : Ground W h1 h2 spare (e :: control)) :
    Ground W h1 h2 (giveBack e.slots spare) control :=
  { hg with tenure := hg.tenure.give }

theorem made : Ground W h1 h2 spare (.made c :: control) ↔ Ground W h1 h2 spare control :=
  ⟨fun hg => { hg with tenure := (Tenure.making (e := .made c) rfl nofun).mp hg.tenure },
    fun hg => { hg with tenure := (Tenure.making (e := .made c) rfl nofun).mpr hg.tenure }⟩

theorem field {f : Field} :
    Ground W h1 h2 spare (.field c f :: control) ↔ Ground W h1 h2 spare control :=
  ⟨fun hg => { hg with tenure := (Tenure.making (e := .field c f) rfl nofun).mp hg.tenure },
    fun hg => { hg with tenure := (Tenure.making (e := .field c f) rfl nofun).mpr hg.tenure }⟩

theorem keeps_withStack (hg : Ground W h1 h2 spare control)
    (hwds : ∀ i, i < depth → stack.words[i]? = h1.stack.words[i]?) :
    (W.view h1 h2).Keeps (W.view { h1 with stack } { h2 with stack }) depth :=
  W.keeps hg.twin (.of_heap rfl rfl) hg.bottom hwds (Nat.le_refl _)

theorem keeps_onward (hg : Ground W h1 h2 spare control) (ho : Host.Onward W.linkage h1 h2 g1 g2)
    (depth : Nat) : (W.view h1 h2).Keeps (W.view g1 g2) depth :=
  W.keeps hg.twin ho.toKept hg.bottom (fun _ _ => by rw [ho.frame.stack])
    (by rw [ho.frame.slots])

end Ground

theorem Poised.onward {W : World} {spare : List Nat} (hp : Poised W h1 h2 spare control)
    (hW : W.Sound) (ho : Host.Onward W.linkage h1 h2 g1 g2) : Poised W g1 g2 spare control := by
  refine ⟨hp.toGround.onward ho, ?_⟩
  rw [ho.frame.roots, ho.frame.checkpoints, ho.frame.stack]
  exact hp.tower.mono hW (hp.keeps_onward ho _)

/-! ## Places -/

/-- The first cells of a buffer hold live values. -/
def Filled (v : View) (a : Activation) (buffer count : Nat) : Prop :=
  ∀ j, j < count → ∃ slots i, a.registers[buffer]? = some (some (.ptr (.values slots 0))) ∧
    slots[j % 0x10000000000000000]? = some i ∧ SlotLive v i

/-- The slots of the arguments of a method hold live values. -/
def ArgumentsLive (W : World) (v : View) (a : Activation) : Prop :=
  ∀ (r : Nat) ρ slots offset, (W.cert a).HasRole r ρ → (ρ = .argument ∨ ∃ n, ρ = .arguments n) →
    a.registers[r]? = some (some (.ptr (.values slots offset))) → ∀ i ∈ slots, SlotLive v i

/-- The slot of the result holds a live value. -/
def ResultLive (v : View) (a : Activation) : Prop :=
  ∃ i, a.registers[0]? = some (some (.ptr (.values #[i] 0))) ∧ SlotLive v i

/-- What the prologue relies on: a slot is cleared before it is registered, a cell has its word, and
the globals of the program are there. -/
structure Opening (W : World) (v : View) (a : Activation) (before : List Instr) : Prop where
  arguments : ArgumentsLive W v a
  cleared : ∀ d rest, before = .clear d :: rest →
    ∃ i, a.registers[d]? = some (some (.ptr (.values #[i] 0))) ∧ SlotLive v i
  celled : ∀ d ty rest, before = .alloca d ty 1 :: rest → ty ≠ .value →
    ∃ w, a.routine.layout.cells.lookup d = some w ∧
      a.registers[d]? = some (some (.ptr (.word (a.base + w))))
  globals : W.kind a = .main → ∀ s ∈ W.globals, ∃ i, W.image.global s = .ok i ∧ SlotLive v i

/-- What the blocks rely on: buffers that have just been filled, cells that have just been pointed to,
arguments that nothing has touched and a result that was just stored. Behind a raise nothing is
reached. -/
structure Inside (W : World) (v : View) (a : Activation) (before : List Instr) : Prop where
  filled : ∀ b n count, (W.cert a).HasRole b (.buffer n) → Fills b count before → Filled v a b count
  pointed : ∀ d b n k rest, before = .element d .value (.reg b) (.i64 (Int64.ofNat k)) :: rest →
    (W.cert a).HasRole b (.buffer n) → (Fills b k rest → Filled v a b k) ∧
      ∃ slots, a.registers[b]? = some (some (.ptr (.values slots 0))) ∧
        a.registers[d]? = some (some (.ptr (.values slots (k % 0x10000000000000000))))
  arguments : a.block = 1 → (∀ i ∈ before, i.isQuiet) → ArgumentsLive W v a
  result : ∀ r rest, before = .store (.value r) (.reg 0) :: rest → W.kind a ≠ .main → ResultLive v a
  calm : ∀ arguments rest, before ≠ .call none .void (.entry .raise) arguments :: rest

/-- How many checkpoints a function has open where the instructions `before` of its block are behind,
above `below` others. Between the opening of a checkpoint and its resume point there is one without a
resume point; behind the resume point the function was either let in or resumed. -/
inductive Trying (a : Activation) (x : Context) (below : Nat) : List Instr → Nat → Prop
  | steady {before : List Instr} (steady : Steady before)
      (tries : triesAfter x.tries before = a.resumes.length) :
      Trying a x below before a.resumes.length
  | opened {p : Nat} {rest : List Instr} (tries : triesAfter x.tries rest = a.resumes.length)
      (register : a.registers[p]? =
        some (some (.ptr (.checkpoint (below + a.resumes.length + 1))))) :
      Trying a x below (.tryPush p :: rest) (a.resumes.length + 1)
  | entered {d p : Nat} {rest : List Instr} (tries : triesAfter x.tries rest + 1 = a.resumes.length)
      (register : a.registers[d]? = some (some (.int 0))) :
      Trying a x below (.setjmp d p :: .tryPush p :: rest) a.resumes.length
  | resumed {d p : Nat} {rest : List Instr} (tries : triesAfter x.tries rest = a.resumes.length)
      (register : a.registers[d]? = some (some (.int 1))) :
      Trying a x below (.setjmp d p :: .tryPush p :: rest) a.resumes.length
  | inward {e d p : Nat} {rest : List Instr} (tries : triesAfter x.tries rest + 1 = a.resumes.length)
      (register : a.registers[e]? = some (some (.int 1))) :
      Trying a x below (.entered e d :: .setjmp d p :: .tryPush p :: rest) a.resumes.length
  | outward {e d p : Nat} {rest : List Instr} (tries : triesAfter x.tries rest = a.resumes.length)
      (register : a.registers[e]? = some (some (.int 0))) :
      Trying a x below (.entered e d :: .setjmp d p :: .tryPush p :: rest) a.resumes.length

theorem Trying.of_steady {x : Context} {below own : Nat} {before : List Instr}
    (ht : Trying a x below before own) (hs : Steady before) :
    own = a.resumes.length ∧ triesAfter x.tries before = a.resumes.length := by
  cases ht with
  | steady _ tries => exact ⟨rfl, tries⟩
  | opened | entered | resumed | inward | outward => exact hs.elim

/-- Where a function stands: the slots that it has registered and the number of its checkpoints. -/
inductive Place (W : World) (v : View) (a : Activation) (x : Context) (before : List Instr)
    (below : Nat) : List Nat → Nat → Prop
  | opening {seg : List Nat} (block : a.block = 0) (segment : Points W a (pushes before).reverse seg)
      (resumes : a.resumes = []) (opening : Opening W v a before) :
      Place W v a x before below seg 0
  | inside {seg : List Nat} {own : Nat} (block0 : a.block ≠ 0) (block2 : a.block ≠ 2)
      (segment : Points W a (pushes a.routine.function.prologue).reverse seg)
      (trying : Trying a x below before own) (inside : Inside W v a before) :
      Place W v a x before below seg own
  | leaving {seg : List Nat} (block : a.block = 2) (resumes : a.resumes = [])
      (segment : before = [] → seg.length = (pushes a.routine.function.prologue).length)
      (popped : before ≠ [] → seg.length = (W.kind a).registered W.globals)
      (result : W.kind a ≠ .main → ResultLive v a)
      (left : ∃ all, Points W a (pushes a.routine.function.prologue).reverse all ∧ seg <+: all) :
      Place W v a x before below seg 0

/-- A function at an instruction, above what waits. -/
structure Posture (W : World) (h1 h2 : Host) (a : Activation) (rest : List Entry) (x : Context)
    (before : List Instr) (i : Instr) (roots seg : List Nat) (cps : List Checkpoint) (own : Nat) :
    Prop where
  below : Tower W (W.view h1 h2) rest roots a.base cps
  frame : Frame W (W.view h1 h2) a
  main : rest = [] ↔ W.kind a = .main
  depth : h1.stack.depth = a.base + a.routine.layout.words
  slots : h1.roots.slots.toList = roots ++ seg
  checkpoints : h1.checkpoints =
    List.replicate own ⟨(roots ++ seg).length, a.base + a.routine.layout.words⟩ ++ cps
  resumes : Resumes W a cps.length a.resumes
  standing : Standing W a x before i

/-- The running function, above what waits. -/
structure Active (W : World) (h1 h2 : Host) (a : Activation) (rest : List Entry) (x : Context)
    (before : List Instr) (i : Instr) (roots seg : List Nat) (cps : List Checkpoint) (own : Nat) :
    Prop extends Posture W h1 h2 a rest x before i roots seg cps own where
  place : Place W (W.view h1 h2) a x before cps.length seg own

namespace Posture

variable {W : World} {h1 h2 g1 g2 : Host} {spare : List Nat} {a a' : Activation} {control rest : List Entry}
  {x : Context} {before : List Instr} {i : Instr} {roots seg : List Nat} {cps : List Checkpoint}
  {own : Nat}

section

variable (hp : Posture W h1 h2 a rest x before i roots seg cps own) (hW : W.Sound)

include hp hW

theorem onward (hg : Ground W h1 h2 spare control) (ho : Host.Onward W.linkage h1 h2 g1 g2) :
    Posture W g1 g2 a rest x before i roots seg cps own where
  below := hp.below.mono hW (hg.keeps_onward ho _)
  frame := (hg.keeps_onward ho _).frame hW hp.frame (Nat.le_refl _)
  main := hp.main
  depth := ho.frame.stack ▸ hp.depth
  slots := ho.frame.roots ▸ hp.slots
  checkpoints := ho.frame.checkpoints ▸ hp.checkpoints
  resumes := hp.resumes
  standing := hp.standing

theorem put
    (hg : Ground W h1 h2 spare control) (hi : i.isTerminator = false) (hdest : destOf i = some d)
    (hrole : (W.cert a).HasRole d ρ)
    (hs : Holds W h1.slots.size a.base (Layout.cellCount a.routine.function) ρ s)
    (hlv : ∀ v, s = .value v → (W.view h1 h2).live v) :
    ∃ j, Posture W { h1 with stack := a.kept d s h1.stack } { h2 with stack := a.kept d s h1.stack }
      (a.put d s).next rest x (i :: before) j roots seg cps own := by
  have hlt := hp.frame.lt_size hW hrole
  have hdep : a.base + a.routine.layout.words ≤ h1.stack.depth := Nat.le_of_eq hp.depth.symm
  have hdefd : ∀ r, a.Defined r → (a.put d s).next.Defined r := fun r hr => hr.put hlt s
  have hd : (a.put d s).next.Defined d := by
    refine ⟨s, ?_⟩
    show (a.put d s).registers[d]? = some (some s)
    rw [Activation.getElem?_put hlt, if_pos rfl]
  have hfr := hp.frame.put hW hrole hs hlv rfl hdep
  obtain ⟨j, hj⟩ := hp.standing.exists_next (hp.frame.certified hW) hi
  refine ⟨j, ?_, ?_, hp.main, (a.kept_depth d s _).trans hp.depth, hp.slots, hp.checkpoints,
    hp.resumes.mono rfl hdefd, ?_⟩
  · exact hp.below.mono hW (hg.keeps_withStack fun i hi => hp.frame.getElem?_kept_below hW _ hi)
  · exact ⟨hfr.routine, hfr.size, hfr.roles, hfr.values⟩
  · refine hp.standing.next hj rfl rfl rfl hdefd fun e he => ?_
    obtain rfl := Option.some.inj (hdest.symm.trans he)
    exact hd

theorem skip (hi : i.isTerminator = false) (hdest : destOf i = none) :
    ∃ j, Posture W h1 h2 a.next rest x (i :: before) j roots seg cps own := by
  obtain ⟨j, hj⟩ := hp.standing.exists_next (hp.frame.certified hW) hi
  have hfr := hp.frame
  refine ⟨j, hp.below, ?_, hp.main, hp.depth, hp.slots, hp.checkpoints,
    hp.resumes.mono rfl fun _ hr => hr, ?_⟩
  · exact ⟨hfr.routine, hfr.size, hfr.roles, hfr.values⟩
  · refine hp.standing.next hj rfl rfl rfl (fun _ hr => hr) fun e he => ?_
    rw [hdest] at he
    cases he

end

end Posture

/-- Two machines in step. -/
structure Running (W : World) (m1 m2 : Machine) : Prop where
  control : m2.control = m1.control
  spare : m2.spare = m1.spare
  ground : Ground W m1.host m2.host m1.spare m1.control
  active : ∃ a rest x before i roots seg cps own, m1.control = .body a :: rest ∧
    Active W m1.host m2.host a rest x before i roots seg cps own

/-! ## Going on -/

/-- The end of a program for want of memory. -/
def Progress.OutOfMemory (p : Progress) : Prop :=
  ∃ h requested live limit, p = .halted h (.fatal (.outOfMemory requested live limit))

/-- How two machines may go on. What the first of them has become is `S`. A symbol that does not tell
the number of parameters can make a load of arguments go wrong, and nothing else can. -/
inductive Together (W : World) (S : Machine → Prop) : Progress → Progress → Prop
  | running {m1 m2 : Machine} (running : Running W m1 m2) (step : S m1) :
      Together W S (.running m1) (.running m2)
  | exit {h1 h2 : Host} {status : Int32} (mirror : Host.Mirror W.linkage h1 h2)
      (checkpoints : h1.checkpoints = []) (roots : h1.roots.depth = W.globals.length)
      (left : ∃ a all, a.routine ∈ W.image.routines ∧ W.kind a = .main ∧
        Points W a (pushes a.routine.function.prologue).reverse all ∧ h1.roots.slots.toList <+: all) :
      Together W S (.halted h1 (.exit status)) (.halted h2 (.exit status))
  | fatal {h1 h2 : Host} {e : FatalError} (mirror : Host.Mirror W.linkage h1 h2)
      (uncaught : ∀ site message, e = .uncaught site message →
        h1.checkpoints = [] ∧ ∃ loc : Location, site = loc.text)
      (balanced : ∀ count depth, e ≠ .rootUnderflow count depth) :
      Together W S (.halted h1 (.fatal e)) (.halted h2 (.fatal e))
  | overflow {h1 h2 : Host} (console : h2.console = h1.console) :
      Together W S (.halted h1 (.fault .overflow)) (.halted h2 (.fault .overflow))
  | unlinked {h1 h2 : Host} {n : Nat} (unlinked : ¬ W.Linked)
      (mirror : Host.Mirror W.linkage h1 h2) :
      Together W S (.halted h1 (.fault (.outOfRange n))) (.halted h2 (.fault (.outOfRange n)))
  | left {p1 p2 : Progress} (out : p1.OutOfMemory) : Together W S p1 p2
  | right {p1 p2 : Progress} (out : p2.OutOfMemory) : Together W S p1 p2

/-- A raise has resumed the function whose checkpoint it took, right behind the resume point of that
checkpoint and with both stacks as the checkpoint recorded them. -/
def Resumed (control : List Entry) (c : Checkpoint) (m : Machine) : Prop :=
  ∃ a r rest a', .body a :: rest <:+ control ∧ a.resumes = r :: a'.resumes ∧
    r.depth = m.host.tryDepth + 1 ∧ m.control = .body a' :: rest ∧ a'.routine = a.routine ∧
    a'.base = a.base ∧ a'.block = r.block ∧ a'.position = r.position + 1 ∧
    a'.registers[r.dest]? = some (some (.int 1)) ∧ m.host.roots.depth = c.roots ∧
    m.host.stack.depth = c.stack

/-- What a step may do to the checkpoints that were open, where it neither opens nor drops one: they
are as before, or a raise has taken the innermost one. -/
def Proceeds (cps : List Checkpoint) (control : List Entry) (m : Machine) : Prop :=
  m.host.checkpoints = cps ∨ ∃ c, cps = c :: m.host.checkpoints ∧ Resumed control c m

theorem Resumed.mono {control' : List Entry} {c : Checkpoint} {m : Machine}
    (hm : Resumed control c m)
    (hctl : ∀ a rest, .body a :: rest <:+ control → .body a :: rest <:+ control') :
    Resumed control' c m := by
  obtain ⟨a, r, rest, a', hsuf, h⟩ := hm
  exact ⟨a, r, rest, a', hctl a rest hsuf, h⟩

end Ember.Machine
