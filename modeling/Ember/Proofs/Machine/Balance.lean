import Ember.Proofs.Machine.Safety

/-!
# Ember — balanced stacks

What waits below a function tells how deep the root stack, the machine stack and the checkpoints are.
A function that returns leaves them as it found them, whatever happened in between.

Main result: `stacks_balanced`.
-/

namespace Ember.Machine

open Ir (Typed)

variable {cps : List Checkpoint} {rest : List Entry} {roots : List Nat} {arguments : List Scalar}
  {m₀ m₁ : Machine} {t : Option Typed} {s : Scalar} {symbol : String}

variable {p : Program} {annotate : Bool} {m : Ir.Module} {config : Config} {console : Console}
  {h h' : Host} {image : Image} {W : World} {a a' a'' : Activation}

/-! ## Depths -/

theorem Tower.depths {v v' : View} {control : List Entry} {roots' : List Nat} {depth depth' : Nat}
    {cps' : List Checkpoint} (ht : Tower W v control roots depth cps)
    (ht' : Tower W v' control roots' depth' cps') :
    roots'.length = roots.length ∧ depth' = depth ∧ cps'.length = cps.length := by
  -- an entry fixes how much it adds to each of the three stacks
  induction ht generalizing roots' depth' cps' with
  | nil =>
    cases ht'
    exact ⟨rfl, rfl, rfl⟩
  | body below frame main segment resumes waits ih =>
    cases ht' with
    | body below' frame' main' segment' =>
      obtain ⟨hrts, -, hcps⟩ := ih below'
      have hseg := List.Forall₂.length_eq segment
      have hseg' := List.Forall₂.length_eq segment'
      refine ⟨?_, rfl, ?_⟩
      · rw [List.length_append, List.length_append, hrts, ← hseg, ← hseg']
      · simp only [List.length_append, List.length_replicate, hcps]
  | method below inner above ih =>
    cases ht' with
    | method below' inner' above' =>
      obtain ⟨hrts, -, hcps⟩ := ih below'
      exact ⟨hrts, above'.trans above.symm, hcps⟩
  | field below inner making spilled ih =>
    cases ht' with
    | field below' =>
      obtain ⟨hrts, -, hcps⟩ := ih below'
      exact ⟨hrts, rfl, hcps⟩
  | made below inner making spilled ih =>
    cases ht' with
    | made below' =>
      obtain ⟨hrts, -, hcps⟩ := ih below'
      exact ⟨hrts, rfl, hcps⟩

/-! ## The start of a call -/

/-- Registers were written: the frame stands where it stood, and the root stack and the checkpoints are
as they were. -/
structure Writes (a : Activation) (h : Host) (a' : Activation) (h' : Host) : Prop where
  frame : ∃ registers, a' = { a with registers }
  roots : h'.roots = h.roots
  checkpoints : h'.checkpoints = h.checkpoints

theorem Writes.trans {h'' : Host} (h1 : Writes a h a' h') (h2 : Writes a' h' a'' h'') :
    Writes a h a'' h'' := by
  obtain ⟨_, rfl⟩ := h1.frame
  obtain ⟨registers, rfl⟩ := h2.frame
  exact ⟨⟨registers, rfl⟩, h2.roots.trans h1.roots, h2.checkpoints.trans h1.checkpoints⟩

theorem writes_of_define {r : Nat} (hd : a.define r s h = .ok a' h') : Writes a h a' h' := by
  have hput : ∀ g : Host, g.roots = h.roots → g.checkpoints = h.checkpoints →
      (if r < a.registers.size then
        (pure { a with registers := a.registers.setIfInBounds r (some s) } : Act Activation)
      else Host.fault (.outOfRange r)) g = .ok a' h' → Writes a h a' h' := by
    intro g hrts hcheckpoints hg
    split at hg
    · cases hg
      exact ⟨⟨_, rfl⟩, hrts, hcheckpoints⟩
    · cases hg
  unfold Activation.define at hd
  generalize a.spillWord r = word at hd
  cases s with
  | value v =>
    cases word with
    | none => exact hput h rfl rfl hd
    | some depth =>
      -- the value is kept on the machine stack
      obtain ⟨_, g, hspill, hput'⟩ := Host.bind_eq_ok hd
      unfold Activation.spill at hspill
      split at hspill
      · cases hspill
        exact hput { h with stack := h.stack.putValue depth v } rfl rfl hput'
      · cases hspill
  | int | float | ptr | void => exact hput h rfl rfl hd

theorem writes_of_defineAll {rs : List Nat} {ss : List Scalar} (hd : a.defineAll rs ss h = .ok a' h') :
    Writes a h a' h' := by
  induction rs generalizing a h ss with
  | nil =>
    cases ss with
    | nil =>
      cases hd
      exact ⟨⟨_, rfl⟩, rfl, rfl⟩
    | cons s ss => cases hd
  | cons r rs ih =>
    cases ss with
    | nil => cases hd
    | cons s ss =>
      obtain ⟨b, g, hdef, hd⟩ := Host.bind_eq_ok hd
      exact (writes_of_define hdef).trans (ih hd)

theorem writes_of_begin (hbegin : Activation.begin image symbol arguments h = .ok a h') :
    ∃ (routine : Routine) (registers : Array (Option Scalar)) (stack : Stack),
      Writes { routine, base := h.stack.depth, registers } { h with stack } a h' := by
  unfold Activation.begin at hbegin
  obtain ⟨routine, g, hrout, hwrites⟩ := Host.bind_eq_ok hbegin
  have hg : g = h := by
    cases hr : image.routine symbol with
    | ok r =>
      rw [hr] at hrout
      cases hrout
      rfl
    | error f =>
      rw [hr] at hrout
      cases hrout
  subst hg
  exact ⟨routine, _, g.stack.reserve routine.layout.words, writes_of_defineAll hwrites⟩

theorem begin_eq_ok (hbegin : Activation.begin image symbol arguments h = .ok a h') :
    a.base = h.stack.depth ∧ a.block = 0 ∧ a.position = 0 ∧ h'.roots = h.roots ∧
      h'.checkpoints = h.checkpoints := by
  obtain ⟨routine, registers, stack, hw⟩ := writes_of_begin hbegin
  obtain ⟨registers, rfl⟩ := hw.frame
  exact ⟨rfl, rfl, rfl, hw.roots, hw.checkpoints⟩

/-! ## Calls in a run -/

/-- A run completes a call that something waits for: it begins the call with the host `before`, and
later the same function, above the same that waits, hands its result on with the host `after`. -/
inductive Completes (image : Image) (m₀ : Machine) : Host → Host → Prop
  | intro {symbol : String} {arguments : List Scalar} {before begun left : Host} {a b : Activation}
      {spare : List Nat} {rest : List Entry} {m₁ : Machine} {t : Option Typed} {s : Scalar}
      (awaited : rest ≠ []) (begins : Activation.begin image symbol arguments before = .ok a begun)
      (reached : Reaches image m₀ ⟨begun, spare, .body a :: rest⟩)
      (lasts : Reaches image ⟨begun, spare, .body a :: rest⟩ m₁) (control : m₁.control = .body b :: rest)
      (instr : b.instr? = some (.ret t)) (performs : perform image b (.ret t) m₁.host = .ok (.ret s) left) :
      Completes image m₀ before (cutStack left b.base)

/-- The stacks of a host that stands on what waits. -/
structure Rests (W : World) (h : Host) (rest : List Entry) (base : Nat) (roots : List Nat)
    (cps : List Checkpoint) : Prop where
  tower : Tower W (W.view h h) rest roots base cps
  slots : h.roots.slots.toList = roots
  checkpoints : h.tryDepth = cps.length
  stack : base ≤ h.stack.depth

theorem Rests.depth {base : Nat} (hr : Rests W h rest base roots cps) :
    h.roots.depth = roots.length := by
  rw [← hr.slots, Array.length_toList, RootStack.depth]

theorem Running.rests_of_first (hr : Running W m₁ m₁) (hctl : m₁.control = .body a :: rest)
    (hblk : a.block = 0) (hpos : a.position = 0) :
    ∃ roots cps, Rests W m₁.host rest a.base roots cps := by
  obtain ⟨x, before, i, roots, seg, cps, own, hp, hplace⟩ := hr.active_of_control hctl
  have hbef : before = [] := List.length_eq_zero_iff.mp (hp.standing.position.symm.trans hpos)
  subst hbef
  obtain ⟨rfl, rfl⟩ : seg = [] ∧ own = 0 := by
    cases hplace with
    | opening block segment =>
      cases segment
      exact ⟨rfl, rfl⟩
    | inside block0 => exact absurd hblk block0
    | leaving block =>
      rw [hblk] at block
      cases block
  refine ⟨roots, cps, hp.below, hp.slots.trans (List.append_nil _), ?_, ?_⟩
  · show m₁.host.checkpoints.length = _
    rw [hp.checkpoints, List.replicate_zero, List.nil_append]
  · rw [hp.depth]
    omega

theorem Running.rests_of_return (hW : W.Sound) (hr : Running W m₁ m₁) (hrest : rest ≠ [])
    (hctl : m₁.control = .body a :: rest) (hi : a.instr? = some (.ret t)) :
    ∃ roots cps, Rests W m₁.host rest a.base roots cps := by
  obtain ⟨x, before, i, roots, seg, cps, own, hp, hplace⟩ := hr.active_of_control hctl
  obtain rfl := Option.some.inj (hp.standing.instr?.symm.trans hi)
  have hcert := hp.frame.certified hW
  have hinn : W.kind a ≠ .main := fun hmain => hrest (hp.main.mpr hmain)
  obtain ⟨hseg, rfl⟩ : seg.length = 0 ∧ own = 0 := by
    cases hplace with
    | opening block =>
      rcases hp.standing.opens hcert block with ⟨hjump, -⟩ | ⟨hopens, -⟩
      · cases hjump
      · cases hopens
    | inside block0 block2 => cases hp.standing.fits hcert block0 block2
    | leaving block resumes segment popped =>
      have hsuf := hp.standing.suffix
      have hexits := hcert.exits
      rw [block] at hsuf
      generalize Ir.trailOf a.routine.function.blocks 2 = trail at hsuf hexits
      cases hexits with
      | main main => exact absurd main hinn
      | inner =>
        rcases List.suffix_cons_iff.mp hsuf with heq | hsuf
        · -- the return stands behind a load, and so behind what takes the slots off
          obtain ⟨-, rfl⟩ := List.cons.inj heq
          exact ⟨(popped nofun).trans (registered_of_ne_main W.globals hinn), rfl⟩
        · have hmem := hsuf.subset (.head _)
          unfold Ir.popping at hmem
          split at hmem <;> simp at hmem
  refine ⟨roots, cps, hp.below, ?_, ?_, ?_⟩
  · rw [hp.slots, List.eq_nil_of_length_eq_zero hseg, List.append_nil]
  · show m₁.host.checkpoints.length = _
    rw [hp.checkpoints, List.replicate_zero, List.nil_append]
  · rw [hp.depth]
    omega

theorem perform_ret_eq_ok (hperf : perform image a (.ret t) h = .ok (.ret s) h') : h' = h := by
  cases t with
  | none =>
    cases hperf
    rfl
  | some t =>
    obtain ⟨_, g, hsound, hpure⟩ := Host.bind_eq_ok hperf
    cases hpure
    cases ht : a.typed image t with
    | ok s =>
      rw [ht] at hsound
      cases hsound
      rfl
    | error f =>
      rw [ht] at hsound
      cases hsound

theorem Reaches.trans {m2 : Machine} (h1 : Reaches image m₀ m₁) (h2 : Reaches image m₁ m2) :
    Reaches image m₀ m2 := by
  obtain ⟨n, hn⟩ := h1
  obtain ⟨k, hk⟩ := h2
  refine ⟨n + k, ?_⟩
  induction n generalizing m₀ with
  | zero =>
    cases hn
    rwa [Nat.zero_add]
  | succ n ih =>
    rw [Nat.succ_add]
    unfold runFor at hn ⊢
    split at hn
    · exact ih hn
    · next hne => exact absurd hn (hne _)

theorem Completes.depths (hW : W.Sound) (hr : ∀ m₁, Reaches W.image m₀ m₁ → Running W m₁ m₁)
    {before after : Host} (hc : Completes W.image m₀ before after) :
    after.roots.depth = before.roots.depth ∧ after.tryDepth = before.tryDepth ∧
      after.stack.depth = before.stack.depth := by
  cases hc with
  | @intro symbol arguments before begun left a b spare rest m₁ t s awaited begins reached lasts control
      instr performs =>
    obtain ⟨hbase, hblk, hpos, hrts, hcheckpoints⟩ := begin_eq_ok begins
    obtain ⟨roots, cps, hfst⟩ := (hr _ reached).rests_of_first rfl hblk hpos
    obtain ⟨roots', cps', hlast⟩ := (hr _ (reached.trans lasts)).rests_of_return hW awaited control instr
    obtain ⟨hdepth1, hdepth2, hdepth3⟩ := hfst.tower.depths hlast.tower
    obtain rfl := perform_ret_eq_ok performs
    refine ⟨?_, ?_, ?_⟩
    · calc m₁.host.roots.depth = roots'.length := hlast.depth
        _ = roots.length := hdepth1
        _ = begun.roots.depth := hfst.depth.symm
        _ = before.roots.depth := by rw [hrts]
    · calc m₁.host.tryDepth = cps'.length := hlast.checkpoints
        _ = cps.length := hdepth3
        _ = begun.tryDepth := hfst.checkpoints.symm
        _ = before.tryDepth := by rw [Host.tryDepth, hcheckpoints, Host.tryDepth]
    · calc (m₁.host.stack.truncate b.base).depth = b.base := by
            have hle : b.base ≤ m₁.host.stack.words.size := hlast.stack
            simp [Stack.truncate, Stack.depth, hle]
        _ = a.base := hdepth2
        _ = before.stack.depth := hbase

/-! ## Main results -/

/-- Every call that a run of a compiled program completes leaves the root stack, the checkpoints and
the machine stack as deep as it found them. No run takes more off the root stack than is on it, and a
program that ends with a status leaves no checkpoint open and its globals registered. -/
theorem stacks_balanced (hlow : p.lower annotate = .ok m)
    (hst : Host.start config console = .ok h) (arguments : List String) :
    (∀ image m₀ before after, start m arguments h = (.ok image, .running m₀) →
      Completes image m₀ before after → after.roots.depth = before.roots.depth ∧
        after.tryDepth = before.tryDepth ∧ after.stack.depth = before.stack.depth) ∧
    (∀ fuel g count depth,
      run fuel m arguments h ≠ .halted g (.fatal (.rootUnderflow count depth))) ∧
    ∀ fuel g status, run fuel m arguments h = .halted g (.exit status) →
      g.tryDepth = 0 ∧ g.roots.depth = m.globals.length := by
  refine ⟨?_, ?_, ?_⟩
  · intro image m₀ before after hload hc
    obtain ⟨W, rfl, -, hW, hr⟩ := exists_world hlow hst hload
    exact hc.depths hW hr
  · intro fuel g count depth hrun
    obtain ⟨W, -, -, htog⟩ :=
      compiled_together hlow ⟨rfl, rfl, rfl⟩ hst hst arguments fuel
    rw [hrun] at htog
    cases htog with
    | fatal _ _ balanced => exact balanced count depth rfl
    | left out | right out =>
      obtain ⟨_, _, _, _, heq⟩ := out
      cases heq
  · intro fuel g status hrun
    obtain ⟨W, -, hglobs, htog⟩ :=
      compiled_together hlow ⟨rfl, rfl, rfl⟩ hst hst arguments fuel
    rw [hrun] at htog
    cases htog with
    | exit _ checkpoints roots =>
      rw [hglobs] at roots
      exact ⟨by rw [Host.tryDepth, checkpoints, List.length_nil], roots⟩
    | left out | right out =>
      obtain ⟨_, _, _, _, heq⟩ := out
      cases heq

theorem stacks_balanced_sample : sample.lower false = .ok sampleModule ∧
    Host.start {} {} = .ok (Host.new {}) ∧
    (∀ image m₀ before after, start sampleModule [] (Host.new {}) = (.ok image, .running m₀) →
      Completes image m₀ before after → after.roots.depth = before.roots.depth ∧
        after.tryDepth = before.tryDepth ∧ after.stack.depth = before.stack.depth) ∧
    ∃ g status, run 120 sampleModule [] (Host.new {}) = .halted g (.exit status) ∧
      g.tryDepth = 0 ∧ g.roots.depth = 2 := by
  have hst : Host.start {} {} = .ok (Host.new {}) := rfl
  have hexit : (run 120 sampleModule [] (Host.new {})).exited = true := by decide +kernel
  have hglobs : sampleModule.globals.length = 2 := by decide +kernel
  obtain ⟨hcalls, -, hends⟩ := stacks_balanced lower_sample hst []
  obtain ⟨g, status, hrun⟩ := Progress.exists_of_exited hexit
  obtain ⟨htries, hrts⟩ := hends 120 g status hrun
  exact ⟨lower_sample, hst, hcalls, g, status, hrun, htries, hrts.trans hglobs⟩

end Ember.Machine
