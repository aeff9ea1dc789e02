import Ember.Proofs.Machine.Simulation

/-!
# Ember — compiled programs do not go wrong

What follows for a single run from two machines in step: both may be the same machine.

Main result: `run_does_not_go_wrong`.
-/

namespace Ember.Machine

variable {a : Activation} {f : Fault} {image : Image} {rest : List Entry} {m₀ : Machine}

variable {p : Program} {annotate : Bool} {m : Ir.Module} {config c1 c2 : Config} {console : Console}
  {h h1 h2 g : Host} {arguments : List String} {W : World} {S : Machine → Prop}

/-! ## Runs of compiled programs -/

theorem compiled_running (hlow : p.lower annotate = .ok m) (hc : Settings c1 c2)
    (hstart1 : Host.start c1 console = .ok h1) (hstart2 : Host.start c2 console = .ok h2)
    (arguments : List String) :
    ∃ W m1 m2, W.interface = p.interface ∧ W.globals = m.globals ∧ W.Sound ∧
      start m arguments h1 = (.ok W.image, .running m1) ∧
      start m arguments h2 = (.ok W.image, .running m2) ∧ Running W m1 m2 := by
  obtain ⟨-, κ, hm⟩ := Lowering.certified_of_lower hlow
  obtain ⟨W, m1, m2, hloads, hrun1, hrun2, hrunning⟩ := start_running hm hc hstart1 hstart2 arguments
  exact ⟨W, m1, m2, hloads.interface, hloads.globals, hloads.sound hm, hrun1, hrun2, hrunning⟩

theorem run_eq_runFor (hst : start m arguments h = (.ok image, .running m₀)) (fuel : Nat) :
    run fuel m arguments h = runFor image fuel m₀ := by
  unfold run
  rw [hst]

theorem compiled_together (hlow : p.lower annotate = .ok m) (hc : Settings c1 c2)
    (hstart1 : Host.start c1 console = .ok h1) (hstart2 : Host.start c2 console = .ok h2)
    (arguments : List String) (fuel : Nat) :
    ∃ W, W.interface = p.interface ∧ W.globals = m.globals ∧
      Together W (fun _ => True) (run fuel m arguments h1) (run fuel m arguments h2) := by
  obtain ⟨W, m1, m2, hintf, hglobs, hW, hrun1, hrun2, hrunning⟩ :=
    compiled_running hlow hc hstart1 hstart2 arguments
  refine ⟨W, hintf, hglobs, ?_⟩
  rw [run_eq_runFor hrun1, run_eq_runFor hrun2]
  exact runFor_together hW hrunning fuel

/-- The machines that a run comes to. -/
def Reaches (image : Image) (m₀ m : Machine) : Prop :=
  ∃ n, runFor image n m₀ = .running m

theorem running_of_reaches (hW : W.Sound) {m : Machine} (hr : Running W m₀ m₀)
    (hreach : Reaches W.image m₀ m) : Running W m m := by
  obtain ⟨n, hn⟩ := hreach
  have htog := runFor_together hW hr n
  rw [hn] at htog
  cases htog with
  | running running => exact running
  | left out | right out =>
    obtain ⟨_, _, _, _, heq⟩ := out
    cases heq

theorem exists_world_of {I : Ir.Interface} {κ : Ir.Function → Ir.Convention × Ir.Cert}
    (hm : m.Certified I κ) (hst : Host.start config console = .ok h)
    (hload : start m arguments h = (.ok image, .running m₀)) :
    ∃ W : World, W.image = image ∧ W.Loads I κ m arguments ∧ W.Sound ∧
      ∀ m1, Reaches image m₀ m1 → Running W m1 m1 := by
  obtain ⟨W, m1, m2, hloads, hload1, hload2, hr⟩ :=
    start_running hm ⟨rfl, rfl, rfl⟩ hst hst arguments
  rw [hload] at hload1 hload2
  injection hload1 with himage hm1
  injection hload2 with _ hm2
  injection himage with himage
  injection hm1 with hm1
  injection hm2 with hm2
  subst himage hm1 hm2
  have hW := hloads.sound hm
  exact ⟨W, rfl, hloads, hW, fun m1 hreach => running_of_reaches hW hr hreach⟩

theorem exists_world (hlow : p.lower annotate = .ok m)
    (hst : Host.start config console = .ok h)
    (hload : start m arguments h = (.ok image, .running m₀)) :
    ∃ W : World, W.image = image ∧ W.interface = p.interface ∧ W.Sound ∧
      ∀ m1, Reaches image m₀ m1 → Running W m1 m1 := by
  obtain ⟨-, κ, hm⟩ := Lowering.certified_of_lower hlow
  obtain ⟨W, himage, hloads, hW, hr⟩ := exists_world_of hm hst hload
  exact ⟨W, himage, hloads.interface, hW, hr⟩

/-- A machine in step with itself can only leave the range of sizes and addresses, or load an argument
that is not there. -/
theorem Together.fault_cases (ht : Together W S (.halted g (.fault f)) (.halted g (.fault f))) :
    f = .overflow ∨ ¬ W.Linked ∧ ∃ n, f = .outOfRange n := by
  cases ht with
  | overflow => exact .inl rfl
  | unlinked unlinked => exact .inr ⟨unlinked, _, rfl⟩
  | left out | right out =>
    obtain ⟨_, _, _, _, heq⟩ := out
    cases heq

theorem run_fault_cases (hlow : p.lower annotate = .ok m)
    (hst : Host.start config console = .ok h) {fuel : Nat}
    (hrun : run fuel m arguments h = .halted g (.fault f)) :
    f = .overflow ∨ ¬ (∀ symbol n n', p.interface.HasMethod symbol n →
      p.interface.HasMethod symbol n' → n = n') ∧ ∃ n, f = .outOfRange n := by
  obtain ⟨W, hintf, -, htog⟩ :=
    compiled_together hlow ⟨rfl, rfl, rfl⟩ hst hst arguments fuel
  rw [hrun] at htog
  rw [← hintf]
  exact htog.fault_cases

theorem Running.active_of_control (hr : Running W m₀ m₀) (hctl : m₀.control = .body a :: rest) :
    ∃ x before i roots seg cps own,
      Active W m₀.host m₀.host a rest x before i roots seg cps own := by
  obtain ⟨b, rest', x, before, i, roots, seg, cps, own, heq, hactive⟩ := hr.active
  rw [hctl] at heq
  cases heq
  exact ⟨x, before, i, roots, seg, cps, own, hactive⟩

theorem cases_of_mem_exit {G : List String} {k : Ir.Convention} {c : Ir.Cert} {roots : Nat}
    {l : List Ir.Instr} (hl : Ir.Exits G k c roots l) {i : Ir.Instr} (hi : i ∈ l) :
    (∃ t, i = .ret t) ∨ (∃ r, i = .load r .value (.reg 0)) ∨
      ∃ count, i = .call none .void (.entry .popRoots) [.i32 count] := by
  have hpopping : ∀ count, i ∈ Ir.popping count →
      ∃ count, i = .call none .void (.entry .popRoots) [.i32 count] := by
    intro count hmem
    unfold Ir.popping at hmem
    split at hmem
    · cases hmem
    · exact ⟨count, List.mem_singleton.mp hmem⟩
  cases hl with
  | inner =>
    rcases List.mem_cons.mp hi with hi | hi
    · exact .inl ⟨_, hi⟩
    · rcases List.mem_cons.mp hi with hi | hi
      · exact .inr (.inl ⟨_, hi⟩)
      · exact .inr (.inr (hpopping _ hi))
  | main =>
    rcases List.mem_cons.mp hi with hi | hi
    · exact .inl ⟨_, hi⟩
    · exact .inr (.inr (hpopping _ hi))

/-- A pointer that is moved to an entry of a buffer or to an argument stays in what it points into. -/
theorem Running.element_ok (hW : W.Sound) (hr : Running W m₀ m₀)
    (hctl : m₀.control = .body a :: rest) {d : Nat} {ty : Ir.Ty} {base : Ir.Operand}
    {index : Ir.Typed} (hi : a.instr? = some (.element d ty base index)) :
    ∃ slots offset, perform W.image a (.element d ty base index) m₀.host =
      .ok (.answer (.ptr (.values slots offset))) m₀.host ∧ (W.Linked → offset < slots.size) := by
  obtain ⟨x, before, i, roots, seg, cps, own, hp, hplace⟩ := hr.active_of_control hctl
  obtain rfl := Option.some.inj (hp.standing.instr?.symm.trans hi)
  have hcert := hp.frame.certified hW
  cases hplace with
  | opening block =>
    rcases hp.standing.opens hcert block with ⟨hjump, -⟩ | ⟨hopens, -⟩
    · cases hjump
    · cases hopens
  | leaving block =>
    have hmem := hp.standing.suffix.subset (.head _)
    rw [block] at hmem
    rcases cases_of_mem_exit hcert.exits hmem with ⟨_, heq⟩ | ⟨_, heq⟩ | ⟨_, heq⟩
    · cases heq
    · cases heq
    · cases heq
  | inside block0 block2 segment trying inside =>
    have hsettled : Ir.Steady before → Settled W a x before seg := fun steady =>
      ⟨block0, block2, segment, steady, (trying.of_steady steady).2⟩
    cases hp.standing.fits hcert block0 block2 with
    | @entry d s n index steady role source inside =>
      obtain ⟨slots, ht, hlt, -⟩ := (hsettled steady).buffer hp source inside
      exact ⟨slots, _, perform_element index ht _, fun _ => hlt⟩
    | @argument d s n index steady role source input inside =>
      obtain ⟨slots, ht, hlt, -⟩ := (hsettled steady).given hW hp hr.ground source input inside
      exact ⟨slots, _, perform_element index ht _, hlt⟩

/-! ## A program to look at -/

theorem lower_eq_ok_of_isSome (hsome : (p.lower annotate).toOption.isSome = true) :
    p.lower annotate = .ok ((p.lower annotate).toOption.getD default) := by
  cases hlow : p.lower annotate with
  | error e => simp [hlow, Except.toOption] at hsome
  | ok m => rfl

/-- A program with a class, a field, a method, calls, and a region that a raise leaves. -/
def sample : Program :=
  let one : Location := ⟨"sample.em", 1⟩
  let two : Location := ⟨"sample.em", 2⟩
  [ .function one ⟨one, "half", ["n"],
      [ .guarded one
          [.ret one (some (.binary one (.apply .divide) (.ident one "n") (.literal one (.int 2))))]
          "e" [.ret one none] ]⟩,
    .classDef two ⟨two, "Point", [⟨two, "x", some (.array two [.literal two (.str "one")])⟩],
      [⟨two, "init", ["y"], [.assign two (.member two (.this two) "x") (.ident two "y")]⟩]⟩,
    .var two "p" (some (.construct two (.ident two "Point")
      [.call two "half" [.literal two (.str "four")]])),
    .expr two (.call two "print" [.member two (.ident two "p") "x"]) ]

/-- Its code. -/
def sampleModule : Ir.Module :=
  (sample.lower false).toOption.getD default

theorem lower_sample : sample.lower false = .ok sampleModule :=
  lower_eq_ok_of_isSome (by decide +kernel)

/-- The program has ended with a status. -/
def Progress.exited : Progress → Bool
  | .halted _ (.exit _) => true
  | _ => false

theorem Progress.exists_of_exited {q : Progress} (hq : q.exited = true) :
    ∃ g status, q = .halted g (.exit status) := by
  match q, hq with
  | .halted g (.exit status), _ => exact ⟨g, status, rfl⟩

/-- Settings under which the first allocation collects, and again each time the objects have doubled. -/
def eager : Config :=
  { initialThreshold := 0, minThreshold := 0 }

theorem start_eager : Host.start eager {} = .ok (Host.new eager) :=
  rfl

/-! ## Main results -/

/-- A run of a compiled program never reads the heap where no object lives, and never finds an object
of another kind than it asked for, however often there are collections. -/
theorem run_heap_safe (hlow : p.lower annotate = .ok m)
    (hst : Host.start config console = .ok h) (arguments : List String) (fuel : Nat) (g : Host)
    (address : Nat) : run fuel m arguments h ≠ .halted g (.fault (.dangling address)) ∧
      run fuel m arguments h ≠ .halted g (.fault (.wrongKind address)) := by
  constructor
  · intro hrun
    rcases run_fault_cases hlow hst hrun with hf | ⟨-, n, hf⟩
    · cases hf
    · cases hf
  · intro hrun
    rcases run_fault_cases hlow hst hrun with hf | ⟨-, n, hf⟩
    · cases hf
    · cases hf

theorem run_heap_safe_sample : sample.lower false = .ok sampleModule ∧
    Host.start eager {} = .ok (Host.new eager) ∧ ∀ fuel g address,
      run fuel sampleModule ["a"] (Host.new eager) ≠ .halted g (.fault (.dangling address)) ∧
        run fuel sampleModule ["a"] (Host.new eager) ≠ .halted g (.fault (.wrongKind address)) :=
  ⟨lower_sample, start_eager, run_heap_safe lower_sample start_eager ["a"]⟩

/-- Where no name of a class has a dot in it, a run of a compiled program keeps to the conditions of
every operation that it uses, the range of sizes and addresses apart; and where it moves a pointer, it
stays inside what it points into. -/
theorem run_does_not_go_wrong (hlow : p.lower annotate = .ok m) (hnms : Lowering.DotFree p)
    (hst : Host.start config console = .ok h) (arguments : List String) :
    (∀ fuel g f, run fuel m arguments h = .halted g (.fault f) → f = .overflow) ∧
      ∀ image m₀ m₁ a rest d ty base index, start m arguments h = (.ok image, .running m₀) →
        Reaches image m₀ m₁ → m₁.control = .body a :: rest →
        a.instr? = some (.element d ty base index) →
        ∃ slots offset, offset < slots.size ∧ perform image a (.element d ty base index) m₁.host =
          .ok (.answer (.ptr (.values slots offset))) m₁.host := by
  have hlinked : ∀ symbol n n', p.interface.HasMethod symbol n → p.interface.HasMethod symbol n' →
      n = n' := fun _ _ _ hn hn' =>
    (Lowering.certified_of_lower hlow).1.method_arity_eq hnms hn hn'
  constructor
  · intro fuel g f hrun
    rcases run_fault_cases hlow hst hrun with hf | ⟨hunlinked, -⟩
    · exact hf
    · exact absurd hlinked hunlinked
  · intro image m₀ m₁ a rest d ty base index hload hreach hctl hi
    obtain ⟨W, rfl, hintf, hW, hrunning⟩ := exists_world hlow hst hload
    obtain ⟨slots, offset, hperf, hlt⟩ := (hrunning m₁ hreach).element_ok hW hctl hi
    refine ⟨slots, offset, hlt ?_, hperf⟩
    unfold World.Linked
    rw [hintf]
    exact hlinked

theorem run_does_not_go_wrong_sample : sample.lower false = .ok sampleModule ∧
    Lowering.DotFree sample ∧ Host.start eager {} = .ok (Host.new eager) ∧
      ∀ fuel g f, run fuel sampleModule ["a"] (Host.new eager) = .halted g (.fault f) → f = .overflow := by
  have hnms : Lowering.DotFree sample := by
    unfold Lowering.DotFree
    decide +kernel
  exact ⟨lower_sample, hnms, start_eager,
    (run_does_not_go_wrong lower_sample hnms start_eager ["a"]).1⟩

end Ember.Machine
