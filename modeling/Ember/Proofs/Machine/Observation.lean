import Ember.Proofs.Machine.Safety

/-!
# Ember — collections cannot be observed

Thresholds decide when there are collections. Two runs of a compiled program that differ in nothing
else go through the same states, apart from objects that are live in one of them only.

Main result: `run_agrees`.
-/

namespace Ember.Host

variable {h₁ h₂ : Host} {L : Linkage}

/-- All is the same but the settings and the objects that are live in one of two hosts only. -/
structure Agrees (h₁ h₂ : Host) : Prop where
  console : h₂.console = h₁.console
  slots : h₂.slots = h₁.slots
  roots : h₂.roots = h₁.roots
  stack : h₂.stack = h₁.stack
  checkpoints : h₂.checkpoints = h₁.checkpoints
  exception : h₂.exception = h₁.exception
  arguments : h₂.arguments = h₁.arguments
  nextFree : h₂.heap.nextFree = h₁.heap.nextFree
  cells : ∀ (a : Nat) (c₁ c₂ : Cell), h₁.heap.cells[a]? = some c₁ → h₂.heap.cells[a]? = some c₂ →
    c₂ = c₁
  display : h₂.heap.display h₂.currentException = h₁.heap.display h₁.currentException

theorem Mirror.live_currentException (hm : Mirror L h₁ h₂) :
    Heap.Live h₁.heap h₂.heap h₁.currentException := by
  unfold currentException
  cases hexc : h₁.exception with
  | none => exact ⟨trivial, trivial⟩
  | some v => exact hm.caught v hexc

theorem Mirror.agrees (hm : Mirror L h₁ h₂) : Agrees h₁ h₂ where
  console := hm.console
  slots := hm.slots
  roots := hm.roots
  stack := hm.stack
  checkpoints := hm.checkpoints
  exception := hm.exception
  arguments := hm.arguments
  nextFree := hm.heaps.next.symm
  cells a c₁ c₂ hc1 hc2 := (hm.heaps.agree a c₁ c₂ hc1 hc2).symm
  display := by
    have hsame : h₂.currentException = h₁.currentException := by
      unfold currentException
      rw [hm.exception]
    rw [hsame]
    exact (hm.heaps.display hm.live_currentException).same.symm

end Ember.Host

namespace Ember.Machine

variable {p : Program} {annotate : Bool} {m : Ir.Module} {c₁ c₂ : Config} {console : Console}
  {h₁ h₂ : Host} {W : World} {S : Machine → Prop} {p1 p2 : Progress}

/-- What is the same in two runs after as many steps. A fault leaves nothing behind but what was
printed. -/
inductive Progress.Agrees : Progress → Progress → Prop
  | running {m₁ m₂ : Machine} (control : m₂.control = m₁.control) (spare : m₂.spare = m₁.spare)
      (host : m₁.host.Agrees m₂.host) : Agrees (.running m₁) (.running m₂)
  | halted {h₁ h₂ : Host} {o : Outcome} (host : h₁.Agrees h₂) :
      Agrees (.halted h₁ o) (.halted h₂ o)
  | fault {h₁ h₂ : Host} {f : Fault} (console : h₂.console = h₁.console) :
      Agrees (.halted h₁ (.fault f)) (.halted h₂ (.fault f))

theorem Together.agrees (ht : Together W S p1 p2) (hroom1 : ¬ p1.OutOfMemory)
    (hroom2 : ¬ p2.OutOfMemory) : p1.Agrees p2 := by
  cases ht with
  | running running =>
    exact .running running.control running.spare running.ground.twin.toMirror.agrees
  | exit mirror => exact .halted mirror.agrees
  | fatal mirror => exact .halted mirror.agrees
  | overflow console => exact .fault console
  | unlinked _ mirror => exact .halted mirror.agrees
  | left out => exact absurd out hroom1
  | right out => exact absurd out hroom2

/-- Two runs of a compiled program that differ in their thresholds print the same and hold the same in
their registers, their slots and on their stacks after every number of steps, and what is live in both
of them is the same, unless one of them runs out of memory. -/
theorem run_agrees (hlow : p.lower annotate = .ok m) (hc : Settings c₁ c₂)
    (hstart₁ : Host.start c₁ console = .ok h₁) (hstart₂ : Host.start c₂ console = .ok h₂)
    (arguments : List String) (fuel : Nat) (hroom₁ : ¬ (run fuel m arguments h₁).OutOfMemory)
    (hroom₂ : ¬ (run fuel m arguments h₂).OutOfMemory) :
    (run fuel m arguments h₁).Agrees (run fuel m arguments h₂) := by
  obtain ⟨W, -, -, htog⟩ := compiled_together hlow hc hstart₁ hstart₂ arguments fuel
  exact htog.agrees hroom₁ hroom₂

theorem Progress.not_outOfMemory_of_exited {q : Progress} (hq : q.exited = true) :
    ¬ q.OutOfMemory := by
  rintro ⟨_, _, _, _, rfl⟩
  cases hq

/-- The collections that a run has made so far. -/
def Progress.collections : Progress → Nat
  | .halted h _ => h.heap.stats.collections
  | .running m => m.host.heap.stats.collections

theorem run_agrees_sample : sample.lower false = .ok sampleModule ∧ Settings eager {} ∧
    Host.start eager {} = .ok (Host.new eager) ∧ Host.start {} {} = .ok (Host.new {}) ∧
    0 < (run 120 sampleModule [] (Host.new eager)).collections ∧
    (run 120 sampleModule [] (Host.new {})).collections = 0 ∧
    (run 120 sampleModule [] (Host.new eager)).Agrees (run 120 sampleModule [] (Host.new {})) := by
  have hc : Settings eager {} := ⟨rfl, rfl, rfl⟩
  have hstart₂ : Host.start {} {} = .ok (Host.new {}) := rfl
  have hexit₁ : (run 120 sampleModule [] (Host.new eager)).exited = true := by decide +kernel
  have hexit₂ : (run 120 sampleModule [] (Host.new {})).exited = true := by decide +kernel
  exact ⟨lower_sample, hc, start_eager, hstart₂, by decide +kernel, by decide +kernel,
    run_agrees lower_sample hc start_eager hstart₂ [] 120
      (Progress.not_outOfMemory_of_exited hexit₁) (Progress.not_outOfMemory_of_exited hexit₂)⟩

end Ember.Machine
