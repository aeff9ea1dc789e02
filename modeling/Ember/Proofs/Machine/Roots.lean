import Ember.Proofs.Machine.Balance

/-!
# Ember — what functions leave registered

A function registers its slots when it is entered and takes as many off the root stack when it is
left. For all but the main function those are its own, so a call leaves the root stack exactly as it
found it. The main function registers the globals as well, where they are declared among its own
slots, and takes off no more than its own number: what stays is what it registered first.

Main result: `roots_unregistered`.
-/

namespace Ember

open Ir (pushes Operand)

variable {ops : List Operand}

/-- The slots that a function registers when it is entered, in order. -/
def Ir.Function.registered (f : Ir.Function) : List Operand :=
  (pushes f.prologue).reverse

namespace Machine

variable {W : World} {a : Activation} {h g : Host} {p : Program} {annotate : Bool} {module : Ir.Module}
  {config : Config} {console : Console} {arguments : List String} {image : Image} {m₀ : Machine}

/-! ## Calls -/

theorem Points.unique {slots slots' : List Nat} (hp : Points W a ops slots)
    (hp' : Points W a ops slots') : slots' = slots := by
  induction hp generalizing slots' with
  | nil =>
    cases hp'
    rfl
  | cons ho hops ih =>
    cases hp' with
    | cons ho' hops' =>
      rw [ho] at ho'
      cases ho'
      rw [ih hops']

theorem Tower.roots_unique {v v' : View} {control : List Entry} {roots roots' : List Nat}
    {depth depth' : Nat} {cps cps' : List Checkpoint} (ht : Tower W v control roots depth cps)
    (ht' : Tower W v' control roots' depth' cps') : roots' = roots := by
  induction ht generalizing roots' depth' cps' with
  | nil =>
    cases ht'
    rfl
  | body below frame main segment resumes waits ih =>
    cases ht' with
    | body below' frame' main' segment' => rw [ih below', segment.unique segment']
  | method below inner above ih =>
    cases ht' with
    | method below' => exact ih below'
  | field below inner making spilled ih =>
    cases ht' with
    | field below' => exact ih below'
  | made below inner making spilled ih =>
    cases ht' with
    | made below' => exact ih below'

theorem Completes.roots_eq (hW : W.Sound) (hr : ∀ m1, Reaches W.image m₀ m1 → Running W m1 m1)
    {before after : Host} (hc : Completes W.image m₀ before after) :
    after.roots.slots = before.roots.slots := by
  cases hc with
  | @intro symbol arguments before begun left a b spare rest m1 t s awaited begins reached lasts control
      instr performs =>
    obtain ⟨-, hblk, hpos, hrts, -⟩ := begin_eq_ok begins
    obtain ⟨roots, cps, hfst⟩ := (hr _ reached).rests_of_first rfl hblk hpos
    obtain ⟨roots', cps', hlast⟩ := (hr _ (reached.trans lasts)).rests_of_return hW awaited control instr
    obtain rfl := perform_ret_eq_ok performs
    apply Array.ext'
    calc m1.host.roots.slots.toList = roots' := hlast.slots
      _ = roots := hfst.tower.roots_unique hlast.tower
      _ = begun.roots.slots.toList := hfst.slots.symm
      _ = before.roots.slots.toList := by rw [hrts]

/-! ## Programs -/

theorem global_of_pointerOperand {s : String} {i : Nat}
    (hi : a.pointerOperand image (.global (.slot s)) = .ok (.values #[i] 0)) :
    image.global s = .ok i := by
  unfold Activation.pointerOperand Activation.operand at hi
  cases hs : image.global s with
  | error f => simp [hs, bind, Except.bind] at hi
  | ok j =>
    obtain rfl : j = i := by simpa [hs, bind, Except.bind, pure, Except.pure] using hi
    rfl

theorem Points.take {all left : List Nat} (hall : Points W a ops all) (hleft : left <+: all) :
    Points W a (ops.take left.length) left := by
  rw [List.prefix_iff_eq_take] at hleft
  have htake := List.forall₂_take left.length hall
  rwa [← hleft] at htake

/-- Every call that a run of a compiled program completes leaves the root stack exactly as it found it.
A program that ends with a status leaves registered what its main function registered first, as many
slots as there are globals. Those are the slots of the globals if all of them are registered before the
first slot of a nested variable. -/
theorem roots_unregistered (hlow : p.lower annotate = .ok module)
    (hst : Host.start config console = .ok h)
    (hload : start module arguments h = (.ok image, .running m₀)) :
    (∀ before after, Completes image m₀ before after → after.roots.slots = before.roots.slots) ∧
    ∀ fuel g status, run fuel module arguments h = .halted g (.exit status) →
      ∃ a : Activation, a.routine.function ∈ module.functions ∧ a.routine.function.symbol = "main" ∧
        List.Forall₂ (fun o i => a.pointerOperand image o = .ok (.values #[i] 0))
          (a.routine.function.registered.take module.globals.length) g.roots.slots.toList ∧
        (a.routine.function.registered.take module.globals.length =
            module.globals.map (fun s => .global (.slot s)) →
          List.Forall₂ (fun s i => image.global s = .ok i) module.globals g.roots.slots.toList) := by
  obtain ⟨-, κ, hm⟩ := Lowering.certified_of_lower hlow
  obtain ⟨W, rfl, hloads, hW, hr⟩ := exists_world_of hm hst hload
  refine ⟨fun before after hc => hc.roots_eq hW hr, fun fuel g status hrun => ?_⟩
  rw [run_eq_runFor hload] at hrun
  have htog := runFor_together hW (hr m₀ ⟨0, rfl⟩) fuel
  rw [hrun] at htog
  -- what is left at the exit is the first part of what the main function registered
  cases htog with
  | exit _ _ roots left =>
    obtain ⟨a, all, hrout, hmain, hall, hinitial⟩ := left
    have hlen : g.roots.slots.toList.length = module.globals.length := by
      rw [Array.length_toList, ← hloads.globals]
      exact roots
    have hpts := Points.take hall hinitial
    rw [hlen] at hpts
    have hnmd := (hW.certified _ hrout).named
    rw [hloads.routines] at hrout
    obtain ⟨f, hf, heq⟩ := List.mem_map.mp hrout
    refine ⟨a, ?_, ?_, hpts, fun hfst => ?_⟩
    · rw [← heq]
      exact List.mem_reverse.mp hf
    · rwa [show (W.certificate a.routine.function).1 = .main from hmain] at hnmd
    · have hglobs : Points W a (module.globals.map fun s => .global (.slot s)) g.roots.slots.toList :=
        hfst ▸ hpts
      exact (List.forall₂_map_left_iff.mp hglobs).imp fun s i hi => global_of_pointerOperand hi
  | left out | right out =>
    obtain ⟨_, _, _, _, heq⟩ := out
    cases heq

theorem roots_unregistered_sample : sample.lower false = .ok sampleModule ∧
    Host.start {} {} = .ok (Host.new {}) ∧ ∃ image m₀ g status,
      start sampleModule [] (Host.new {}) = (.ok image, .running m₀) ∧
      (∀ before after, Completes image m₀ before after → after.roots.slots = before.roots.slots) ∧
      run 120 sampleModule [] (Host.new {}) = .halted g (.exit status) ∧
      sampleModule.globals = ["g.Point", "g.p"] ∧
      List.Forall₂ (fun s i => image.global s = .ok i) sampleModule.globals g.roots.slots.toList := by
  have hst : Host.start {} {} = .ok (Host.new {}) := rfl
  have hexit : (run 120 sampleModule [] (Host.new {})).exited = true := by decide +kernel
  have hglobs : sampleModule.globals = ["g.Point", "g.p"] := by decide +kernel
  have hfst : ∀ f ∈ sampleModule.functions, f.symbol = "main" →
      f.registered.take 2 = ["g.Point", "g.p"].map fun s => Operand.global (.slot s) := by decide +kernel
  obtain ⟨g, status, hrun⟩ := Progress.exists_of_exited hexit
  obtain ⟨W, m₀, -, -, -, -, hload, -⟩ := compiled_running lower_sample ⟨rfl, rfl, rfl⟩ hst hst []
  obtain ⟨hcalls, hends⟩ := roots_unregistered lower_sample hst hload
  obtain ⟨a, hmem, hmain, -, hkept⟩ := hends 120 g status hrun
  refine ⟨lower_sample, hst, W.image, m₀, g, status, hload, hcalls, hrun, hglobs, hkept ?_⟩
  rw [hglobs]
  exact hfst _ hmem hmain

/-- A program that declares a global after a variable of a block. -/
def crossed : Program :=
  let one : Location := ⟨"crossed.em", 1⟩
  let two : Location := ⟨"crossed.em", 2⟩
  [.block one [.var one "x" (some (.literal one (.int 1)))], .var two "y" (some (.literal two (.int 2)))]

/-- Its code. -/
def crossedModule : Ir.Module :=
  (crossed.lower false).toOption.getD default

/-- The global is the one that is unregistered, and the slot of the block stays. -/
theorem crossed_leaves_nested : crossed.lower false = .ok crossedModule ∧
    crossedModule.globals = ["g.y"] ∧
    (match start crossedModule [] (Host.new {}), run 40 crossedModule [] (Host.new {}) with
      | (.ok image, _), .halted g (.exit status) =>
        some (status, image.globals, g.roots.slots.toList)
      | _, _ => none) = some (0, [("g.y", 0)], [1]) :=
  ⟨lower_eq_ok_of_isSome (by decide +kernel), by decide +kernel, by decide +kernel⟩

end Machine

end Ember
