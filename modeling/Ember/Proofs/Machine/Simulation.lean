import Ember.Machine.Run
import Ember.Proofs.Host.Exactness
import Ember.Proofs.Machine.Boundary

/-!
# Ember — compiled programs side by side

Two machines in step stay in step, instruction by instruction, until their program ends or one of them
runs out of memory. Compiled programs start in step on any two hosts that differ in their thresholds.

Main result: `start_together`.
-/

namespace Ember.Machine

open Ir (Convention Cert Context Interface Instr pushes Steady)

variable {c1 c2 : Config} {console : Console} {I : Interface} {m : Ir.Module} {m1 m2 : Machine}

variable {W : World} {a : Activation} {h1 h2 : Host} {spare : List Nat} {rest : List Entry}
  {x : Context} {before : List Instr} {i : Instr} {roots seg : List Nat} {cps : List Checkpoint}
  {own : Nat} {S : Machine → Prop}

/-- How an instruction may change the checkpoints that are open: it opens one, it drops the innermost
one, or it leaves them alone unless a raise takes the innermost one. -/
inductive Moves (i : Instr) (h : Host) (control : List Entry) (m : Machine) : Prop
  | proceeds (proceeds : Proceeds h.checkpoints control m)
  | opened {d : Nat} (instr : i = .tryPush d)
      (checkpoints : m.host.checkpoints = ⟨h.roots.depth, h.stack.depth⟩ :: h.checkpoints)
  | closed {c : Checkpoint} (instr : i = .call none .void (.entry .tryPop) [])
      (checkpoints : h.checkpoints = c :: m.host.checkpoints)

theorem inside_together (hW : W.Sound) (hg : Ground W h1 h2 spare (.body a :: rest))
    (hp : Posture W h1 h2 a rest x before i roots seg cps own) (hb0 : a.block ≠ 0) (hb2 : a.block ≠ 2)
    (hseg : Points W a (pushes a.routine.function.prologue).reverse seg)
    (htrying : Trying a x cps.length before own) (hin : Inside W (W.view h1 h2) a before)
    (hS : ∀ m, Moves i h1 (.body a :: rest) m → S m) :
    StepTogether W S h1 h2 spare a rest := by
  have hcert := hp.frame.certified hW
  have hfits := hp.standing.fits hcert hb0 hb2
  have hown : Steady before → own = a.resumes.length := fun hstdy =>
    (htrying.of_steady hstdy).1
  have hs : Steady before → Settled W a x before seg := fun hstdy =>
    ⟨hb0, hb2, hseg, hstdy, (htrying.of_steady hstdy).2⟩
  have hq : Steady before → Posture W h1 h2 a rest x before i roots seg cps a.resumes.length :=
    fun hstdy => hown hstdy ▸ hp
  have hproc : ∀ m, Proceeds h1.checkpoints (.body a :: rest) m → S m := fun m hm =>
    hS m (.proceeds hm)
  have hkeeps : ∀ m, m.host.checkpoints = h1.checkpoints → S m := fun m hm => hproc m (.inl hm)
  -- one lemma for each way in which an instruction may stand in a block
  cases hfits with
  | load steady role place =>
    exact load_together hW hg (hs steady) (hq steady) hin hproc rfl role place
  | loadArgument first quiet role source written =>
    -- nothing but quiet instructions precedes, so that no region is half open
    have hstdy : Steady before := by
      cases before with
      | nil => trivial
      | cons j l =>
        have hj := quiet j (.head _)
        cases j <;> trivial
    exact loadArgument_together hW hg (hs hstdy) (hq hstdy) hin hproc rfl first quiet role source written
  | loadCell steady role source =>
    exact loadCell_together hW hg (hs steady) (hq steady) hin hproc rfl role source
  | store steady value place =>
    exact store_together hW hg (hs steady) (hq steady) hin hproc rfl value place
  | storeEntry steady value dest written =>
    exact storeEntry_together hW hg (hs steady) (hq steady) hin hproc rfl value dest written
  | storeResult steady inner value =>
    exact storeResult_together hW hg (hs steady) (hq steady) hin hproc rfl value inner
  | storeCell steady value dest =>
    exact storeCell_together hW hg (hs steady) (hq steady) hin hproc rfl value dest
  | extract steady role value =>
    exact extract_together hW hg (hs steady) (hq steady) hproc rfl role value
  | compare steady role left right =>
    exact compare_together hW hg (hs steady) (hq steady) hproc rfl role left right
  | arith steady role left right =>
    exact arith_together hW hg (hs steady) (hq steady) hproc rfl role left right
  | entry steady role source inside =>
    exact entry_together hW hg (hs steady) (hq steady) hin hproc rfl role source inside
  | argument steady role source input inside =>
    exact argument_together hW hg (hs steady) (hq steady) hin hproc rfl role source input inside
  | ordinary steady signature given role =>
    exact ordinary_together hW hg (hs steady) (hq steady) hproc rfl signature given role
  | buffered steady around ahead behind source room filled role =>
    exact buffered_together hW hg (hs steady) (hq steady) hproc hin rfl around ahead behind source filled role
  | addField steady given named =>
    exact addField_together hW hg (hs steady) (hq steady) hproc rfl given named
  | addMethod steady given named =>
    exact addMethod_together hW hg (hs steady) (hq steady) hproc rfl given named
  | math steady role given =>
    exact math_together hW hg (hs steady) (hq steady) hproc rfl role given
  | function steady named values role =>
    exact function_together hW hg (hs steady) (hq steady) hproc rfl named values role
  | tryPush steady role =>
    exact tryPush_together hW hg (hs steady) (hq steady) rfl role fun m hm => hS m (.opened rfl hm)
  | setjmp opened role =>
    exact setjmp_together hW hg hb0 hb2 hseg hp htrying hkeeps rfl opened role
  | entered armed role =>
    exact entered_together hW hg hb0 hb2 hseg hp htrying hkeeps rfl armed role
  | choose tested inside outside =>
    exact choose_together hW hg hp hkeeps hb0 hb2 hseg htrying rfl tested inside outside
  | tryPop steady opened =>
    exact tryPop_together hW hg (hs steady) (hq steady) rfl opened fun m c hm => hS m (.closed rfl hm)
  | branch steady condition positive negative =>
    exact branch_together hW hg hp hkeeps (hs steady) (hown steady) rfl condition positive negative
  | jump steady target =>
    rw [(hs steady).tries] at target
    exact perform_together hp.standing rfl rfl
      (jump_together hW hg hp hb0 hb2 hseg rfl (hown steady) target hkeeps)
  | leave steady closed stored =>
    exact leave_together hW hg hp (hs steady) hin rfl (hown steady) closed stored hkeeps
  | raised raise => exact absurd raise (hin.calm _ _)
  | dead unreached goes =>
    have hlv := (hp.standing.context hb0 hb2).2
    rw [unreached] at hlv
    cases hlv
  | comment steady =>
    exact perform_together hp.standing rfl rfl
      (settled_next hW hg (hs steady) (hq steady) rfl rfl (.of_loud rfl nofun) hkeeps)

theorem step_together (hW : W.Sound) {m1 m2 : Machine} (hr : Running W m1 m2)
    (hS : ∀ a rest i m, m1.control = .body a :: rest → a.instr? = some i →
      Moves i m1.host m1.control m → S m) :
    Together W S (step W.image m1) (step W.image m2) := by
  obtain ⟨h1, spare, control⟩ := m1
  obtain ⟨h2, spare2, control2⟩ := m2
  obtain ⟨hctl, hspare, hg, a, rest, x, before, i, roots, seg, cps, own, heq, hp, hplace⟩ := hr
  obtain rfl : control2 = control := hctl
  obtain rfl : spare2 = spare := hspare
  obtain rfl : control2 = .body a :: rest := heq
  have hS : ∀ m, Moves i h1 (.body a :: rest) m → S m := fun m hm =>
    hS a rest i m rfl hp.standing.instr? hm
  cases hplace with
  | opening block segment resumes opening =>
    exact opening_together hW hg hp block segment resumes opening fun m hm =>
      hS m (.proceeds (.inl hm))
  | inside block0 block2 segment trying inside =>
    exact inside_together hW hg hp block0 block2 segment trying inside hS
  | leaving block resumes segment popped result left =>
    exact leaving_together hW hg hp block resumes segment popped result left fun m hm =>
      hS m (.proceeds hm)

theorem runFor_together (hW : W.Sound) (hr : Running W m1 m2) (n : Nat) :
    Together W (fun _ => True) (runFor W.image n m1) (runFor W.image n m2) := by
  induction n generalizing m1 m2 with
  | zero => exact .running hr trivial
  | succ n ih =>
    have hstp := step_together hW hr (S := fun _ => True) fun _ _ _ _ _ _ _ => trivial
    unfold runFor
    generalize step W.image m1 = p1 at hstp
    generalize step W.image m2 = p2 at hstp
    cases hstp with
    | running running step => exact ih running
    | exit mirror checkpoints roots left => exact .exit mirror checkpoints roots left
    | fatal mirror uncaught balanced => exact .fatal mirror uncaught balanced
    | overflow console => exact .overflow console
    | unlinked unlinked mirror => exact .unlinked unlinked mirror
    | left out =>
      obtain ⟨h, requested, live, limit, rfl⟩ := out
      exact .left ⟨h, requested, live, limit, rfl⟩
    | right out =>
      obtain ⟨h, requested, live, limit, rfl⟩ := out
      exact .right ⟨h, requested, live, limit, rfl⟩

/-! ## Starting -/

theorem allocateGlobals_eq (names : List String) (globals : List (String × Nat))
    (values : Array Value) (hvals : ∀ y ∈ values, y = default)
    (hnd : (globals.map Prod.snd).Nodup) (hglobs : ∀ j ∈ globals.map Prod.snd, j < values.size) :
    ∃ globals' values', (∀ h : Host, h.slots = values →
        Image.allocateGlobals names globals h = .ok globals' { h with slots := values' }) ∧
      (∀ y ∈ values', y = default) ∧
      (globals'.map Prod.snd).Nodup ∧ (∀ j ∈ globals'.map Prod.snd, j < values'.size) ∧
      ∀ s, s ∈ names ∨ (globals.lookup s).isSome → (globals'.lookup s).isSome := by
  induction names generalizing globals values with
  | nil =>
    refine ⟨globals, values, ?_, hvals, hnd, hglobs, ?_⟩
    · rintro h rfl
      rfl
    · rintro s (hs | hs)
      · exact absurd hs List.not_mem_nil
      · exact hs
  | cons name names ih =>
    have hvalues' : ∀ y ∈ values.push default, y = default := by
      intro y hy
      rcases Array.mem_push.mp hy with hy | hy
      · exact hvals y hy
      · exact hy
    have hglobals' : ∀ j ∈ ((name, values.size) :: globals).map Prod.snd,
        j < (values.push default).size := by
      intro j hj
      rw [Array.size_push]
      rcases List.mem_cons.mp hj with rfl | hj
      · exact Nat.lt_succ_self _
      · exact Nat.lt_succ_of_lt (hglobs j hj)
    -- a new slot has the number of all slots before it, which none of them has
    have hnodup' : (((name, values.size) :: globals).map Prod.snd).Nodup :=
      List.nodup_cons.mpr ⟨fun hmem => Nat.lt_irrefl _ (hglobs _ hmem), hnd⟩
    obtain ⟨globals1, values1, hrun, hvalues1, hnodup1, hglobals1, hall⟩ :=
      ih _ _ hvalues' hnodup' hglobals'
    refine ⟨globals1, values1, ?_, hvalues1, hnodup1, hglobals1, fun s hs => hall s ?_⟩
    · rintro h rfl
      rw [Image.allocateGlobals]
      exact (Host.bind_ok (show Host.newSlot h = .ok h.slots.size
        { h with slots := h.slots.push default } from rfl)).trans (hrun _ rfl)
    · rw [List.lookup_cons]
      rcases hs with hs | hs
      · rcases List.mem_cons.mp hs with rfl | hs
        · simp
        · exact .inl hs
      · refine .inr ?_
        split
        · rfl
        · exact hs

/-- Two settings that differ at most in when collections happen. -/
structure Settings (c1 c2 : Config) : Prop where
  rootCapacity : c2.rootCapacity = c1.rootCapacity
  memoryLimit : c2.memoryLimit = c1.memoryLimit
  dictBuckets : c2.dictBuckets = c1.dictBuckets

theorem start_eq_ok {config : Config} {h : Host} (h0 : Host.start config console = .ok h) :
    h = Host.new config console ∧
      config.rootCapacity < 0x2000000000000000 := by
  unfold Host.start RootStack.make checkStorage at h0
  by_cases hlt : config.rootCapacity * 4 < 0x8000000000000000
  · rw [if_pos hlt] at h0
    cases h0
    exact ⟨rfl, by omega⟩
  · rw [if_neg hlt] at h0
    cases h0

theorem twin_new (L : Linkage) (hc : Settings c1 c2) (console : Console) :
    Host.Twin L (Host.new c1 console) (Host.new c2 console) := by
  have hempty : ∀ (i m a : Nat), (Heap.empty i m).cells[a]? = none := fun _ _ _ => by simp [Heap.empty]
  have htyped : ∀ i m, (Heap.empty i m).Typed L := by
    intro i m
    refine ⟨fun a o ho => ?_, fun a c hcell => ?_, fun a c hcell => ?_⟩
    · obtain ⟨c, hcell, -⟩ := Heap.get?_eq_some_iff.mp ho
      rw [hempty] at hcell
      cases hcell
    · rw [hempty] at hcell
      cases hcell
    · rw [hempty] at hcell
      cases hcell
  refine ⟨⟨(Host.whole_new _ _).1, (Host.whole_new _ _).1, ⟨htyped _ _, htyped _ _, rfl, ?_⟩,
    hc.memoryLimit, hc.dictBuckets, rfl, ?_, rfl, rfl, rfl, rfl, rfl,
      fun _ h => by cases h⟩, Nat.zero_le _, fun _ h => by cases h⟩
  · intro a k1 k2 hk
    have hk : (Heap.empty c1.initialThreshold c1.minThreshold).cells[a]? = some k1 := hk
    rw [hempty] at hk
    cases hk
  · show ({ capacity := c2.rootCapacity } : RootStack) = { capacity := c1.rootCapacity }
    rw [hc.rootCapacity]

/-- A loaded module with certificates of its functions. -/
structure World.Loads (W : World) (I : Interface) (κ : Ir.Function → Convention × Cert)
    (m : Ir.Module) (arguments : List String) : Prop where
  interface : W.interface = I
  globals : W.globals = m.globals
  certificate : W.certificate = κ
  texts : W.image.texts = m.texts
  routines : W.image.routines = m.functions.reverse.map fun f => ⟨f, .of f⟩
  arguments : W.image.arguments = arguments

theorem World.Loads.sound {κ : Ir.Function → Convention × Cert} {arguments : List String}
    (hl : W.Loads I κ m arguments) (hm : m.Certified I κ) : W.Sound := by
  have hmem : ∀ r ∈ W.image.routines, r.function ∈ m.functions ∧ r.layout = .of r.function := by
    intro r hr
    rw [hl.routines] at hr
    obtain ⟨f, hf, rfl⟩ := List.mem_map.mp hr
    exact ⟨List.mem_reverse.mp hf, rfl⟩
  refine ⟨?_, fun r hr => (hmem r hr).2, ?_, ?_, ?_⟩
  · rw [hl.texts, hl.interface, hm.texts]
  · rw [hl.interface, hl.globals, hl.certificate]
    exact fun r hr => hm.functions _ (hmem r hr).1
  · intro k symbol hk
    rw [hl.interface] at hk
    obtain ⟨f, hf, hsym⟩ := hm.defined k symbol hk
    refine ⟨⟨f, .of f⟩, ?_, hsym⟩
    rw [hl.routines]
    exact List.mem_map.mpr ⟨f, List.mem_reverse.mpr hf, rfl⟩
  · rw [hl.interface]
    exact hm.arities

theorem start_running {κ : Ir.Function → Convention × Cert} (hm : m.Certified I κ)
    (hc : Settings c1 c2) (hstart1 : Host.start c1 console = .ok h1)
    (hstart2 : Host.start c2 console = .ok h2) (arguments : List String) :
    ∃ W m1 m2, World.Loads W I κ m arguments ∧
      start m arguments h1 = (.ok W.image, .running m1) ∧
      start m arguments h2 = (.ok W.image, .running m2) ∧ Running W m1 m2 := by
  obtain ⟨rfl, hcap⟩ := start_eq_ok hstart1
  obtain ⟨rfl, -⟩ := start_eq_ok hstart2
  obtain ⟨globals, values, hrun, hvals, hnd, hglobs, hall⟩ :=
    allocateGlobals_eq m.globals [] #[] (by simp) .nil (by simp)
  let W : World := ⟨I, m.globals, κ,
    ⟨m.texts, m.functions.reverse.map fun f => ⟨f, .of f⟩, globals, arguments⟩⟩
  have hloads : W.Loads I κ m arguments := ⟨rfl, rfl, rfl, rfl, rfl, rfl⟩
  have hload : ∀ h : Host, h.slots = #[] →
      Image.load m arguments h = .ok W.image { h with slots := values } := by
    intro h hh
    unfold Image.load
    rw [Host.bind_ok (hrun h hh)]
    rfl
  -- nothing runs yet, so that only the slots of the globals are to be accounted for
  have hpoised : Poised W { Host.new c1 console with slots := values }
      { Host.new c2 console with slots := values } [] [] := by
    have htwin := twin_new W.linkage hc console
    have htenure : Tenure W values.size [] [] := by
      refine ⟨?_, ?_, fun a rest hsuf => by cases List.eq_nil_of_suffix_nil hsuf⟩
      · simpa [holdings] using hnd
      · simpa [holdings] using hglobs
    refine ⟨⟨htwin.change ⟨rfl, rfl, rfl, rfl⟩ ⟨rfl, rfl, rfl, rfl⟩ rfl htwin.roots rfl rfl rfl
      (fun _ h => absurd h (Array.not_mem_empty _)) rfl, rfl, ⟨Nat.zero_le _, hcap⟩,
      fun _ h => absurd h (Array.not_mem_empty _), htenure⟩, .nil⟩
  have hsupp : Supplies W (W.view { Host.new c1 console with slots := values }
      { Host.new c2 console with slots := values }) [] .main
      [.int (Int64.ofNat arguments.length), .ptr .arguments] := by
    refine ⟨fun base cells => .cons ⟨rfl, (by simp)⟩ (.cons ⟨rfl, (by simp)⟩ .nil), fun slots offset hslt => ?_,
      fun _ s hs => ?_⟩
    · simp at hslt
    · obtain ⟨j, hj⟩ := Option.isSome_iff_exists.mp (hall s (.inl hs))
      have hlt : j < values.size := by
        obtain ⟨front, back, hsplit, -⟩ := List.lookup_eq_some_iff.mp hj
        exact hglobs j (by simp [hsplit])
      refine ⟨j, ?_, values[j], Array.getElem?_eq_getElem hlt, ?_⟩
      · unfold Image.global
        rw [hj]
      · rw [hvals _ (Array.getElem_mem hlt)]
        exact live_default W _ _
  obtain ⟨m1, m2, henter1, henter2, hrunning, -⟩ := enter_running (hloads.sound hm) hpoised
    (show Convention.Names W.interface .main "main" from rfl) (by simp) hsupp
  refine ⟨W, m1, m2, hloads, ?_, ?_, hrunning⟩
  · unfold start
    rw [hload _ rfl]
    exact congrArg _ henter1
  · unfold start
    rw [hload _ rfl]
    exact congrArg _ henter2

end Ember.Machine
