import Ember.Proofs.Machine.Roots

/-!
# Ember — slots and their holders

At no time has a slot two holders. What is registered for the collector belongs to a global or to a
function in progress, so a slot that is handed out again is reached by nobody else.

Main result: `slots_never_alias`.
-/

namespace Ember.Machine

open Ir (Role)

variable {e : Entry} {cps : List Checkpoint} {roots : List Nat} {depth i r : Nat} {v : View}

variable {W : World} {a : Activation} {h : Host} {spare : List Nat} {control rest : List Entry}
  {m m' : Machine} {size : Nat}

/-! ## Registered slots -/

theorem Points.exists_operand {ops : List Ir.Operand} {slots : List Nat} (hp : Points W a ops slots)
    (hi : i ∈ slots) : ∃ o ∈ ops, a.pointerOperand W.image o = .ok (.values #[i] 0) := by
  induction hp with
  | nil => exact absurd hi List.not_mem_nil
  | @cons o j ops slots ho hp ih =>
    rcases List.mem_cons.mp hi with rfl | hi
    · exact ⟨o, .head _, ho⟩
    · obtain ⟨o', ho', hpts⟩ := ih hi
      exact ⟨o', .tail _ ho', hpts⟩

theorem register_of_pointerOperand {image : Image} {q : Pointer}
    (hq : a.pointerOperand image (.reg r) = .ok q) : a.registers[r]? = some (some (.ptr q)) := by
  have hreg : a.register r = .ok (.ptr q) := typed_of_pointerOperand hq
  unfold Activation.register at hreg
  split at hreg
  · next hr =>
    cases hreg
    exact hr
  all_goals cases hreg

/-- A slot of a global or of a function in progress. -/
def Homed (W : World) (control : List Entry) (i : Nat) : Prop :=
  i ∈ W.image.globals.map Prod.snd ∨ ∃ a, .body a ∈ control ∧ i ∈ a.owned

theorem Homed.cons (hi : Homed W rest i) (e : Entry) : Homed W (e :: rest) i :=
  hi.imp_right fun ⟨a, ha, hi⟩ => ⟨a, .tail _ ha, hi⟩

theorem Tenure.homed_of_points (ht : Tenure W size spare (.body a :: rest)) {l : List Ir.Instr}
    (hl : Ir.Checked (Ir.Opens W.globals (W.kind a) (W.cert a)) l) {seg : List Nat}
    (hp : Points W a (Ir.pushes l).reverse seg) (hi : i ∈ seg) : Homed W (.body a :: rest) i := by
  obtain ⟨o, ho, hpts⟩ := hp.exists_operand hi
  rcases mem_pushes hl (List.mem_reverse.mp ho) with ⟨d, rfl, hd⟩ | ⟨symbol, -, rfl⟩
  · refine .inr ⟨a, .head _, ?_⟩
    rcases ht.leads a rest (List.suffix_refl _) d .slot #[i] hd
      ⟨0, register_of_pointerOperand hpts⟩ with howned | ⟨hpassed, -⟩
    · exact howned i (by simp)
    · cases hpassed
  · have hslot := global_of_pointerOperand hpts
    unfold Image.global at hslot
    split at hslot
    · next j hlookup =>
      cases hslot
      obtain ⟨front, back, hglobs, -⟩ := List.lookup_eq_some_iff.mp hlookup
      exact .inl (by simp [hglobs])
    · cases hslot

theorem Tower.homed (hW : W.Sound) (ht : Tower W v control roots depth cps)
    (hl : Tenure W size spare control) : ∀ i ∈ roots, Homed W control i := by
  induction ht generalizing spare with
  | nil => simp
  | body below frame main segment resumes waits ih =>
    intro i hi
    rcases List.mem_append.mp hi with hi | hi
    · exact (ih hl.give i hi).cons _
    · exact hl.homed_of_points (frame.certified hW).opens segment hi
  | method below inner above ih | field below inner making spilled ih
  | made below inner making spilled ih => exact fun i hi => (ih hl.give i hi).cons _

theorem Running.homed (hW : W.Sound) (hr : Running W m m) :
    ∀ i ∈ m.host.roots.slots, Homed W m.control i := by
  obtain ⟨a, rest, x, before, i, roots, seg, cps, own, hctl, hactive⟩ := hr.active
  have ht := hr.ground.tenure
  have hcert := hactive.frame.certified hW
  rw [hctl] at ht ⊢
  have hseg : ∀ j ∈ seg, Homed W (.body a :: rest) j := by
    intro j hj
    cases hactive.place with
    | opening block segment =>
      refine ht.homed_of_points ?_ segment hj
      rcases hactive.standing.opens hcert block with ⟨-, rfl⟩ | ⟨-, hsuf⟩
      · exact hcert.opens
      · exact hcert.opens.suffix ((List.suffix_cons _ _).trans hsuf)
    | inside _ _ segment => exact ht.homed_of_points hcert.opens segment hj
    | leaving _ _ _ _ _ left =>
      obtain ⟨all, hall, hinitial⟩ := left
      exact ht.homed_of_points hcert.opens hall (hinitial.subset hj)
  intro j hj
  rw [← Array.mem_toList_iff, hactive.slots] at hj
  rcases List.mem_append.mp hj with hj | hj
  · exact (hactive.below.homed hW ht.give j hj).cons _
  · exact hseg j hj

/-! ## Pointers of others -/

theorem Tower.frame_of_mem (ht : Tower W v control roots depth cps) (ha : .body a ∈ control) :
    Frame W v a := by
  induction ht with
  | nil => exact absurd ha List.not_mem_nil
  | body below frame main segment resumes waits ih =>
    rcases List.mem_cons.mp ha with heq | ha
    · cases heq
      exact frame
    · exact ih ha
  | method below inner above ih | field below inner making spilled ih
  | made below inner making spilled ih =>
    rcases List.mem_cons.mp ha with heq | ha
    · cases heq
    · exact ih ha

/-- What a function in progress points to belongs to it, or to the call of the method that it runs. -/
theorem Running.leads (hW : W.Sound) (hr : Running W m m) {above : List Entry}
    (hctl : m.control = above ++ .body a :: rest) {slots : Array Nat}
    (hslt : a.PointsTo r slots) :
    (∀ i ∈ slots, i ∈ a.owned) ∨ ∃ depth below, rest = .method slots depth :: below := by
  have hfr : Frame W (W.view m.host m.host) a := by
    have ha : .body a ∈ m.control := by simp [hctl]
    obtain ⟨b, rest, x, before, i, roots, seg, cps, own, heq, hactive⟩ := hr.active
    rw [heq] at ha
    rcases List.mem_cons.mp ha with heq | ha
    · cases heq
      exact hactive.frame
    · exact hactive.below.frame_of_mem ha
  obtain ⟨offset, hreg⟩ := hslt
  obtain ⟨ρ, hρ⟩ : ∃ ρ, (W.cert a).HasRole r ρ := by
    have hlt := (Array.getElem?_eq_some_iff.mp hreg).1
    rw [hfr.size, ← (hfr.certified hW).roles] at hlt
    exact ⟨_, List.getElem?_eq_getElem hlt⟩
  exact (hr.ground.tenure.leads a rest ⟨above, hctl.symm⟩ r ρ slots hρ ⟨offset, hreg⟩).imp_right
    And.right

theorem mem_slots_of_mem (he : e ∈ control) (hi : i ∈ e.slots) :
    i ∈ control.flatMap fun e => e.slots.toList :=
  List.mem_flatMap.mpr ⟨e, he, Array.mem_toList_iff.mpr hi⟩

theorem Tenure.alone (ht : Tenure W size spare control) (above : List Entry)
    (hctl : control = above ++ e :: rest) (hi : i ∈ e.slots) :
    (∀ e' ∈ above ++ rest, i ∉ e'.slots) ∧ i ∉ W.image.globals.map Prod.snd := by
  have hcnt := List.nodup_iff_count_le_one.mp ht.apart i
  simp only [holdings, hctl, List.flatMap_append, List.flatMap_cons, List.count_append] at hcnt
  have hone : 0 < e.slots.toList.count i := List.count_pos_iff.mpr (Array.mem_toList_iff.mpr hi)
  constructor
  · intro e' he' hi'
    have hoth := List.count_pos_iff.mpr (mem_slots_of_mem he' hi')
    rw [List.flatMap_append, List.count_append] at hoth
    omega
  · intro hi'
    have hoth := List.count_pos_iff.mpr hi'
    omega

/-! ## Handing out slots -/

/-- A slot that an instruction hands out: for storage of the function that runs it, or for an argument of
a method that it enters. -/
inductive Acquires (m₁ m₂ : Machine) (i : Nat) : Prop
  | storage {a b : Activation} {rest : List Entry} {d count : Nat} (before : m₁.control = .body a :: rest)
      (instr : a.instr? = some (.alloca d .value count)) (after : m₂.control = .body b :: rest)
      (fresh : i ∉ a.owned) (owned : i ∈ b.owned)
  | argument {b : Activation} {slots : Array Nat} {depth : Nat} {rest : List Entry}
      (after : m₂.control = .body b :: .method slots depth :: rest) (passed : i ∈ slots)

theorem Running.roots_of_alloca {d count : Nat} (hr : Running W ⟨h, spare, .body a :: rest⟩
    ⟨h, spare, .body a :: rest⟩) (hi : a.instr? = some (.alloca d .value count))
    (hstp : step W.image ⟨h, spare, .body a :: rest⟩ = .running m') : m'.host.roots = h.roots := by
  obtain ⟨added, spare', slots, htake, -⟩ := takeSlots_eq (live_default W h h) count #[] fun _ =>
    hr.ground.tenure.spare_lt
  simp only [step, hi] at hstp
  have hslt : apply W.image (.slots count) (some d) a rest h spare = .running m' := hstp
  simp only [apply, htake h rfl, Activation.defineOption, Activation.define] at hslt
  by_cases hd : d < a.registers.size
  · rw [if_pos hd] at hslt
    cases hslt
    rfl
  · rw [if_neg hd] at hslt
    cases hslt

theorem Acquires.apart (hW : W.Sound) {m₁ m2 : Machine} (hr1 : Running W m₁ m₁)
    (hr2 : Running W m2 m2) (hstp : step W.image m₁ = .running m2) (hacquires : Acquires m₁ m2 i) :
    i ∉ m2.host.roots.slots ∧
      ∀ a, .body a ∈ m2.control.tail → ∀ r slots, a.PointsTo r slots → i ∉ slots := by
  have ht2 := hr2.ground.tenure
  -- the slot belongs to one entry, and the functions below it have others
  have hpointers : ∀ above e rest, m2.control = above ++ e :: rest → i ∈ e.slots →
      ∀ a, .body a ∈ rest → ∀ r slots, a.PointsTo r slots → i ∉ slots := by
    intro above e rest hctl hi a ha r slots hr hmem
    have hrest : ∀ e' ∈ rest, i ∉ e'.slots := fun e' he' =>
      (ht2.alone above hctl hi).1 e' (List.mem_append_right _ he')
    obtain ⟨between, below, rfl⟩ := List.append_of_mem ha
    have hsplit : m2.control = (above ++ e :: between) ++ .body a :: below := by simp [hctl]
    rcases hr2.leads hW hsplit hr with howned | ⟨depth, rest, rfl⟩
    · exact hrest (.body a) ha (howned i hmem)
    · exact hrest (.method slots depth) (by simp) hmem
  cases hacquires with
  | @storage a b rest d count before instr after fresh owned =>
    obtain ⟨hothers, hglob⟩ := ht2.alone [] after owned
    refine ⟨fun hi => ?_, ?_⟩
    · obtain ⟨h, spare, control⟩ := m₁
      obtain rfl : control = .body a :: rest := before
      rw [hr1.roots_of_alloca instr hstp] at hi
      rcases hr1.homed hW i hi with hi | ⟨c, hc, hi⟩
      · exact hglob hi
      · rcases List.mem_cons.mp hc with heq | hc
        · cases heq
          exact fresh hi
        · exact hothers (.body c) hc hi
    · rw [after]
      exact hpointers [] (.body b) rest after owned
  | @argument b slots depth rest after passed =>
    obtain ⟨hothers, hglob⟩ := ht2.alone [.body b] after passed
    refine ⟨fun hi => ?_, ?_⟩
    · rcases hr2.homed hW i hi with hi | ⟨c, hc, hi⟩
      · exact hglob hi
      · rw [after] at hc
        rcases List.mem_cons.mp hc with heq | hc
        · exact hothers (.body c) (heq ▸ List.mem_cons_self) hi
        · rcases List.mem_cons.mp hc with heq | hc
          · cases heq
          · exact hothers (.body c) (.tail _ hc) hi
    · rw [after]
      intro a ha
      rcases List.mem_cons.mp ha with heq | ha
      · cases heq
      · exact hpointers [.body b] (.method slots depth) rest after passed a ha

/-! ## Main results -/

variable {p : Program} {annotate : Bool} {module : Ir.Module} {config : Config} {console : Console}
  {arguments : List String} {image : Image} {m₀ m₁ : Machine}

/-- Between any two instructions of a compiled program no slot has two holders: the storage of functions
in progress, the arguments of methods in progress, the globals and the spare slots are apart and without
repetition. Every registered slot belongs to a global or to a function in progress, and what a function
points to belongs to it or holds the arguments that it was given. A slot that is handed out is not
registered, and no other function in progress points to it. -/
theorem slots_never_alias (hlow : p.lower annotate = .ok module)
    (hst : Host.start config console = .ok h)
    (hload : start module arguments h = (.ok image, .running m₀)) (hreach : Reaches image m₀ m₁) :
    (holdings image m₁.spare m₁.control).Nodup ∧
    (∀ i ∈ m₁.host.roots.slots,
      i ∈ image.globals.map Prod.snd ∨ ∃ a, .body a ∈ m₁.control ∧ i ∈ a.owned) ∧
    (∀ a, .body a ∈ m₁.control → ∀ r slots, a.PointsTo r slots → (∀ i ∈ slots, i ∈ a.owned) ∨
      ∃ above depth below, m₁.control = above ++ .body a :: .method slots depth :: below) ∧
    ∀ m₂ i, step image m₁ = .running m₂ → Acquires m₁ m₂ i → i ∉ m₂.host.roots.slots ∧
      ∀ a, .body a ∈ m₂.control.tail → ∀ r slots, a.PointsTo r slots → i ∉ slots := by
  obtain ⟨W, rfl, -, hW, hr⟩ := exists_world hlow hst hload
  refine ⟨(hr m₁ hreach).ground.tenure.apart, (hr m₁ hreach).homed hW, ?_, ?_⟩
  · intro a ha r slots hslt
    obtain ⟨above, rest, hctl⟩ := List.append_of_mem ha
    refine ((hr m₁ hreach).leads hW hctl hslt).imp_right ?_
    rintro ⟨depth, below, rfl⟩
    exact ⟨above, depth, below, hctl⟩
  · intro m₂ i hstp hacquires
    have hreaches₂ : Reaches W.image m₀ m₂ := hreach.trans ⟨1, by simp only [runFor, hstp]⟩
    exact hacquires.apart hW (hr m₁ hreach) (hr m₂ hreaches₂) hstp

/-- In the middle of the constructor of an object, when slots of earlier calls have been used again. -/
theorem slots_never_alias_sample : sample.lower false = .ok sampleModule ∧
    Host.start {} {} = .ok (Host.new {}) ∧ ∃ image m₀ m₁,
      start sampleModule [] (Host.new {}) = (.ok image, .running m₀) ∧ Reaches image m₀ m₁ ∧
      m₁.spare = [6, 4] ∧ (m₁.control.map fun e => e.slots.toList) = [[], [5], [], [2, 3]] ∧
      (holdings image m₁.spare m₁.control).Nodup ∧
      (∀ i ∈ m₁.host.roots.slots,
        i ∈ image.globals.map Prod.snd ∨ ∃ a, .body a ∈ m₁.control ∧ i ∈ a.owned) ∧
      ∀ m₂ i, step image m₁ = .running m₂ → Acquires m₁ m₂ i → i ∉ m₂.host.roots.slots ∧
        ∀ a, .body a ∈ m₂.control.tail → ∀ r slots, a.PointsTo r slots → i ∉ slots := by
  have hst : Host.start {} {} = .ok (Host.new {}) := rfl
  have hview : (match run 60 sampleModule [] (Host.new {}) with
      | .running m => some (m.spare, m.control.map fun e => e.slots.toList)
      | .halted .. => none) = some ([6, 4], [[], [5], [], [2, 3]]) := by decide +kernel
  obtain ⟨W, m₀, -, -, -, -, hload, -⟩ := compiled_running lower_sample ⟨rfl, rfl, rfl⟩ hst hst []
  cases hrun : run 60 sampleModule [] (Host.new {}) with
  | halted => simp [hrun] at hview
  | running m₁ =>
    rw [hrun] at hview
    obtain ⟨hspare, hslt⟩ := Prod.mk.inj (Option.some.inj hview)
    have hreach : Reaches W.image m₀ m₁ := ⟨60, (run_eq_runFor hload 60).symm.trans hrun⟩
    obtain ⟨hnd, hrooted, -, hacquires⟩ := slots_never_alias lower_sample hst hload hreach
    exact ⟨lower_sample, hst, W.image, m₀, m₁, hload, hreach, hspare, hslt, hnd, hrooted,
      hacquires⟩

end Ember.Machine
