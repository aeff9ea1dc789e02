import Ember.Proofs.Machine.Transfer
import Ember.Proofs.Machine.Library

/-!
# Ember — instructions of blocks, side by side

A function that stands in a block, outside the opening of a protected region, performs an instruction
that fits its certificate. Both machines do the same, and what the next instruction relies on is there.

Main result: `call_together`.
-/

namespace Ember.Machine

open Ir (Role Context Instr Operand Typed Ty pushes triesAfter Steady)

variable {slots : Array Nat} {h : Host} {image : Image} {width : Ir.Width}
  {below d j offset r : Nat} {dest o rhs source : Operand} {p : Pointer} {ρ : Role} {s : Scalar}
  {lhs : Typed} {y : Value}

variable {W : World} {v v' : View} {a : Activation} {h1 h2 g1 g2 : Host} {spare : List Nat}
  {rest : List Entry} {x : Context} {before : List Instr} {i : Instr} {roots seg : List Nat}
  {cps : List Checkpoint} {own : Nat} {S : Machine → Prop}

/-! ## Places -/

section

variable (hslt : ∀ i, SlotLive v i → SlotLive v' i)

include hslt

theorem ArgumentsLive.mono (ha : ArgumentsLive W v a) : ArgumentsLive W v' a :=
  fun r ρ slots offset hr hρ hslot i hi => hslt i (ha r ρ slots offset hr hρ hslot i hi)

theorem ResultLive.mono (ha : ResultLive v a) : ResultLive v' a := by
  obtain ⟨i, hi, hlv⟩ := ha
  exact ⟨i, hi, hslt i hlv⟩

theorem Filled.mono {buffer count : Nat} (ha : Filled v a buffer count) :
    Filled v' a buffer count := by
  intro j hj
  obtain ⟨slots, i, hbuf, hi, hlv⟩ := ha j hj
  exact ⟨slots, i, hbuf, hi, hslt i hlv⟩

theorem Opening.mono (ha : Opening W v a before) : Opening W v' a before where
  arguments := ha.arguments.mono hslt
  cleared d rest heq := by
    obtain ⟨i, hi, hlv⟩ := ha.cleared d rest heq
    exact ⟨i, hi, hslt i hlv⟩
  celled := ha.celled
  globals hmain s hs := by
    obtain ⟨i, hi, hlv⟩ := ha.globals hmain s hs
    exact ⟨i, hi, hslt i hlv⟩

theorem Inside.mono (ha : Inside W v a before) : Inside W v' a before where
  filled b n count hb hfills := (ha.filled b n count hb hfills).mono hslt
  pointed d b n k rest heq hb := by
    obtain ⟨hfilled, hslot⟩ := ha.pointed d b n k rest heq hb
    exact ⟨fun hfills => (hfilled hfills).mono hslt, hslot⟩
  arguments hb hq := (ha.arguments hb hq).mono hslt
  result r rest heq hinn := (ha.result r rest heq hinn).mono hslt
  calm := ha.calm

theorem Place.mono (hp : Place W v a x before below seg own) :
    Place W v' a x before below seg own := by
  cases hp with
  | opening block segment resumes opening =>
    exact .opening block segment resumes (opening.mono hslt)
  | inside block0 block2 segment trying inside =>
    exact .inside block0 block2 segment trying (inside.mono hslt)
  | leaving block resumes segment popped result left =>
    exact .leaving block resumes segment popped (fun hinn => (result hinn).mono hslt) left

end

/-! ## Going on -/

/-- Both machines take a step in the function on top. -/
def StepTogether (W : World) (S : Machine → Prop) (h1 h2 : Host) (spare : List Nat) (a : Activation)
    (rest : List Entry) : Prop :=
  Together W S (step W.image ⟨h1, spare, .body a :: rest⟩) (step W.image ⟨h2, spare, .body a :: rest⟩)

theorem stepTogether_iff (hs : Standing W a x before i) : StepTogether W S h1 h2 spare a rest ↔
    Together W S (andThen (perform W.image a i) h1 spare (.body a :: rest) fun effect host =>
        apply W.image effect (destOf i) a rest host spare)
      (andThen (perform W.image a i) h2 spare (.body a :: rest) fun effect host =>
        apply W.image effect (destOf i) a rest host spare) := by
  have hstp : ∀ h : Host, step W.image ⟨h, spare, .body a :: rest⟩ =
      andThen (perform W.image a i) h spare (.body a :: rest) fun effect host =>
        apply W.image effect (destOf i) a rest host spare := by
    intro h
    unfold step andThen
    simp only [hs.instr?]
    cases perform W.image a i h <;> rfl
  rw [StepTogether, hstp, hstp]

theorem SlotLive.withStack (hj : SlotLive (W.view h1 h2) j) (stack : Stack) :
    SlotLive (W.view { h1 with stack } { h2 with stack }) j :=
  hj

theorem running_together {a' : Activation} (hg : Ground W h1 h2 spare (.body a' :: rest))
    (hp : Posture W h1 h2 a' rest x before i roots seg cps own)
    (hplace : Place W (W.view h1 h2) a' x before cps.length seg own)
    (hS : ∀ m, m.host.checkpoints = h1.checkpoints → S m) :
    Together W S (.running ⟨h1, spare, .body a' :: rest⟩) (.running ⟨h2, spare, .body a' :: rest⟩) :=
  .running ⟨rfl, rfl, hg, _, _, _, _, _, _, _, _, _, rfl, hp, hplace⟩ (hS _ rfl)

theorem answer_together (hW : W.Sound) (hg : Ground W h1 h2 spare (.body a :: rest))
    (hp : Posture W h1 h2 a rest x before i roots seg cps own) (hi : i.isTerminator = false)
    (hdest : destOf i = some d) (hrole : (W.cert a).HasRole d ρ)
    (hs : Holds W h1.slots.size a.base (Layout.cellCount a.routine.function) ρ s)
    (hlv : ∀ y, s = .value y → (W.view h1 h2).live y)
    (hleads : ∀ slots offset, s = .ptr (.values slots offset) → Leads a rest ρ slots)
    (hplace : Place W (W.view h1 h2) (a.put d s).next x (i :: before) cps.length seg own)
    (hS : ∀ m, m.host.checkpoints = h1.checkpoints → S m) :
    Together W S (apply W.image (.answer s) (destOf i) a rest h1 spare)
      (apply W.image (.answer s) (destOf i) a rest h2 spare) := by
  obtain ⟨j, hnext⟩ := hp.put hW hg hi hdest hrole hs hlv
  have hdep := hp.depth
  have hrun : ∀ h : Host, h.stack = h1.stack →
      apply W.image (.answer s) (destOf i) a rest h spare =
        .running ⟨{ h with stack := a.kept d s h1.stack }, spare, .body (a.put d s).next :: rest⟩ := by
    intro h hstk
    have hdef := hp.frame.define_eq hW hrole s (h := h) (by rw [hstk, hdep])
    rw [hstk] at hdef
    simp only [apply, hdest, Activation.defineOption, hdef]
  rw [hrun h1 rfl, hrun h2 hg.twin.stack]
  exact running_together (hg.put (hp.frame.lt_size hW hrole) hrole hleads) hnext
    (hplace.mono fun _ hj => hj.withStack _) hS

theorem next_together (hW : W.Sound) (hg : Ground W h1 h2 spare (.body a :: rest))
    (hp : Posture W h1 h2 a rest x before i roots seg cps own) (hi : i.isTerminator = false)
    (hdest : destOf i = none)
    (hplace : Place W (W.view h1 h2) a.next x (i :: before) cps.length seg own)
    (hS : ∀ m, m.host.checkpoints = h1.checkpoints → S m) :
    Together W S (.running ⟨h1, spare, .body a.next :: rest⟩)
      (.running ⟨h2, spare, .body a.next :: rest⟩) := by
  obtain ⟨j, hnext⟩ := hp.skip hW hi hdest
  exact running_together (hg.move rfl rfl rfl) hnext hplace hS

/-- A function in a block, outside the opening of a region: its resume points are those of the regions
around it. -/
structure Settled (W : World) (a : Activation) (x : Context) (before : List Instr) (seg : List Nat) :
    Prop where
  block0 : a.block ≠ 0
  block2 : a.block ≠ 2
  segment : Points W a (pushes a.routine.function.prologue).reverse seg
  steady : Steady before
  tries : triesAfter x.tries before = a.resumes.length

namespace Settled

theorem place (hs : Settled W a x before seg) (hin : Inside W v a before) :
    Place W v a x before below seg a.resumes.length :=
  .inside hs.block0 hs.block2 hs.segment (.steady hs.steady hs.tries) hin

theorem put (hs : Settled W a x before seg) (hW : W.Sound) (hfr : Frame W v a) (hi : i.isCalm)
    (hrole : (W.cert a).HasRole d ρ) (hρ : ρ ≠ .slot) (s : Scalar) :
    Settled W (a.put d s).next x (i :: before) seg where
  block0 := hs.block0
  block2 := hs.block2
  segment := hs.segment.put (hfr.certified hW).opens (hfr.lt_size hW hrole) hrole hρ s
  steady := hs.steady.cons hi
  tries := (Instr.tries_of_isCalm hi _).trans hs.tries

theorem skip (hs : Settled W a x before seg) (hi : i.isCalm) :
    Settled W a.next x (i :: before) seg where
  block0 := hs.block0
  block2 := hs.block2
  segment := hs.segment
  steady := hs.steady.cons hi
  tries := (Instr.tries_of_isCalm hi _).trans hs.tries

end Settled

theorem isTerminator_of_isCalm (hi : i.isCalm) : i.isTerminator = false := by
  cases i <;> first | rfl | cases hi

section

variable (hW : W.Sound) (hg : Ground W h1 h2 spare (.body a :: rest))
  (hs : Settled W a x before seg)
  (hp : Posture W h1 h2 a rest x before i roots seg cps a.resumes.length)

include hW hg hs hp

theorem settled_answer (hi : i.isCalm) (hdest : destOf i = some d) (hrole : (W.cert a).HasRole d ρ)
    (hρ : ρ ≠ .slot)
    (hholds : Holds W h1.slots.size a.base (Layout.cellCount a.routine.function) ρ s)
    (hlv : ∀ y, s = .value y → (W.view h1 h2).live y)
    (hleads : ∀ slots offset, s = .ptr (.values slots offset) → Leads a rest ρ slots)
    (hin : Inside W (W.view h1 h2) (a.put d s).next (i :: before))
    (hS : ∀ m, m.host.checkpoints = h1.checkpoints → S m) :
    Together W S (apply W.image (.answer s) (destOf i) a rest h1 spare)
      (apply W.image (.answer s) (destOf i) a rest h2 spare) :=
  answer_together hW hg hp (isTerminator_of_isCalm hi) hdest hrole hholds hlv hleads
    ((hs.put hW hp.frame hi hrole hρ s).place hin) hS

theorem settled_next (hi : i.isCalm) (hdest : destOf i = none)
    (hin : Inside W (W.view h1 h2) a.next (i :: before))
    (hS : ∀ m, m.host.checkpoints = h1.checkpoints → S m) :
    Together W S (.running ⟨h1, spare, .body a.next :: rest⟩)
      (.running ⟨h2, spare, .body a.next :: rest⟩) :=
  next_together hW hg hp (isTerminator_of_isCalm hi) hdest ((hs.skip hi).place hin) hS

theorem settled_raise (hS : ∀ m, Proceeds h1.checkpoints (.body a :: rest) m → S m) {e : Value}
    (htwin : Host.Twin W.linkage g1 g2) (hraised : Host.Raised e h1 g1)
    (hkept : Host.Kept h1 h2 g1 g2) :
    Together W S (unwind e g1 spare (.body a :: rest)) (unwind e g2 spare (.body a :: rest)) := by
  have hle : ∀ c ∈ h1.checkpoints, c.stack ≤ h1.stack.depth := by
    intro c hc
    rw [hp.checkpoints] at hc
    rw [hp.depth]
    rcases List.mem_append.mp hc with hc | hc
    · rw [List.eq_of_mem_replicate hc]
    · exact (hp.below.checkpoint_le hc).2.trans (Nat.le_add_right _ _)
  obtain ⟨c, hc, hf⟩ := hg.fallen hle htwin hraised hkept
  have hcps := hp.checkpoints
  rw [hc] at hcps
  rw [hp.slots] at hf
  cases hr : a.resumes with
  | nil =>
    rw [hr] at hcps
    have hcps : c :: g1.checkpoints = cps := hcps
    have hle := hp.below.checkpoint_le (hcps ▸ List.mem_cons_self)
    obtain ⟨hskip1, hskip2⟩ := unwind_skip rest hf hr hle.2 e
    rw [hskip1, hskip2]
    refine unwind_tower hW hp.below hcps.symm (hf.lower hle.1).give e
      fun m hm hresd => hS m (.inr ⟨c, by rw [hc, hm], ?_⟩)
    exact hresd.mono fun _ _ h => h.trans (List.suffix_cons _ _)
  | cons r older =>
    rw [hr] at hcps
    obtain ⟨hc', hleft⟩ := List.cons.inj hcps
    have hleft : g1.checkpoints = List.replicate older.length
      ⟨(roots ++ seg).length, a.base + a.routine.layout.words⟩ ++ cps := hleft
    rw [hleft] at hf hc
    subst hc'
    refine resume_together hW hp.below hp.frame hp.main hs.segment hp.resumes hr rfl hf e
      fun m hm hresd => hS m (.inr ⟨_, ?_, hresd⟩)
    rw [hc, hm]

end

/-! ## Operands -/

/-- An operand of a role, where the instructions `before` are behind. -/
abbrev Given (W : World) (a : Activation) (x : Context) (before : List Instr) (t : Typed)
    (ρ : Role) : Prop :=
  (W.cert a).Gives W.interface ((W.cert a).Knows x before) t ρ

theorem perform_together (hs : Standing W a x before i) {effect : Effect}
    (hperform1 : perform W.image a i h1 = .ok effect g1)
    (hperform2 : perform W.image a i h2 = .ok effect g2)
    (heffect : Together W S (apply W.image effect (destOf i) a rest g1 spare)
      (apply W.image effect (destOf i) a rest g2 spare)) :
    StepTogether W S h1 h2 spare a rest := by
  rw [stepTogether_iff hs]
  unfold andThen
  rw [hperform1, hperform2]
  exact heffect

theorem sound_bind {α β : Type} {r : Except Fault α} {y : α} (hr : r = .ok y) (f : α → Act β) :
    Host.sound r >>= f = f y := by
  rw [hr]
  rfl

theorem operand_reg (hr : a.registers[r]? = some (some s)) : a.operand image (.reg r) = .ok s := by
  show a.register r = .ok s
  unfold Activation.register
  rw [hr]

theorem pointerOperand_of (ho : a.operand image o = .ok (.ptr p)) :
    a.pointerOperand image o = .ok p := by
  unfold Activation.pointerOperand
  rw [ho]
  rfl

theorem pointerOperand_reg (hr : a.registers[r]? = some (some (.ptr p))) :
    a.pointerOperand image (.reg r) = .ok p :=
  pointerOperand_of (operand_reg hr)

theorem pointerOperand_global {symbol : String} (hj : image.global symbol = .ok j) :
    a.pointerOperand image (.global (.slot symbol)) = .ok (.values #[j] 0) := by
  refine pointerOperand_of ?_
  show (do return .ptr (.values #[← image.global symbol] 0) : Except Fault Scalar) = _
  rw [hj]
  rfl

theorem typed_int (image : Image) (width : Ir.Width) (o : Operand) :
    a.typed image ⟨width.ty, o⟩ = a.operand image o := by
  cases width <;> (unfold Activation.typed; split <;> first | rfl | (next h _ => cases h))

theorem Frame.Gives.intTyped {t : Typed} (hs : Frame.Gives W v a t (.int width) s) :
    ∃ n, s = .int n ∧ a.intTyped W.image t = .ok n := by
  obtain ⟨n, rfl⟩ := hs.holds
  refine ⟨n, rfl, ?_⟩
  unfold Activation.intTyped
  rw [hs.typed]
  rfl

theorem Frame.Gives.intOperand (hs : Frame.Gives W v a ⟨width.ty, o⟩ (.int width) s) :
    ∃ n, s = .int n ∧ a.intOperand W.image o = .ok n := by
  obtain ⟨n, rfl⟩ := hs.holds
  refine ⟨n, rfl, ?_⟩
  have htyped := hs.typed
  rw [typed_int] at htyped
  unfold Activation.intOperand
  rw [htyped]
  rfl

theorem Settled.knows (hs : Settled W a x before seg) (hstanding : Standing W a x before i) (r : Nat)
    (hr : (W.cert a).Knows x before r) : a.Defined r :=
  hstanding.known r (.of_knows hs.block0 hs.block2 hr)

theorem Settled.operands (hs : Settled W a x before seg) (hW : W.Sound)
    (hp : Posture W h1 h2 a rest x before i roots seg cps own)
    (hleft : Given W a x before lhs (.int width))
    (hright : Given W a x before ⟨width.ty, rhs⟩ (.int width)) :
    ∃ l r, a.intTyped W.image lhs = .ok l ∧ a.intOperand W.image rhs = .ok r := by
  obtain ⟨_, hgives⟩ := hp.frame.typed hW hleft (hs.knows hp.standing)
  obtain ⟨l, -, hl⟩ := hgives.intTyped
  obtain ⟨_, hgives⟩ := hp.frame.typed hW hright (hs.knows hp.standing)
  obtain ⟨r, -, hr⟩ := hgives.intOperand
  exact ⟨l, r, hl, hr⟩

theorem Settled.exists_slot (hs : Settled W a x before seg) (hW : W.Sound)
    (hp : Posture W h1 h2 a rest x before i roots seg cps own) (ho : (W.cert a).Keeps W.globals o) :
    ∃ j ∈ h1.roots.slots, a.pointerOperand W.image o = .ok (.values #[j] 0) := by
  have hcert := hp.frame.certified hW
  have hpush : ∀ o ∈ pushes a.routine.function.prologue,
      ∃ j ∈ h1.roots.slots, a.pointerOperand W.image o = .ok (.values #[j] 0) := by
    intro o ho
    obtain ⟨j, hj, hpts⟩ := hs.segment.exists_slot (List.mem_reverse.mpr ho)
    refine ⟨j, ?_, hpts⟩
    rw [← Array.mem_toList_iff, hp.slots]
    exact List.mem_append_right _ hj
  cases ho with
  | slot role => exact hpush _ (hcert.rooted _ role)
  | @global symbol declared =>
    by_cases hrest : rest = []
    · exact hpush _ (hcert.globals (hp.main.mp hrest) _ declared)
    · obtain ⟨j, hj, hglob⟩ := hp.below.global hW hrest declared
      refine ⟨j, ?_, ?_⟩
      · rw [← Array.mem_toList_iff, hp.slots]
        exact List.mem_append_left _ hj
      · exact pointerOperand_global hglob

/-! ## Numbers -/

section

variable (hW : W.Sound) (hg : Ground W h1 h2 spare (.body a :: rest))
  (hs : Settled W a x before seg)
  (hp : Posture W h1 h2 a rest x before i roots seg cps a.resumes.length)
  (hS : ∀ m, Proceeds h1.checkpoints (.body a :: rest) m → S m)

include hW hg hs hp hS

theorem number_together (hcalm : i.isCalm) (hloud : i.isQuiet = false) (hdest : destOf i = some d)
    (hrole : (W.cert a).HasRole d (.int width)) {n : Int64}
    (hperf : ∀ h : Host, perform W.image a i h = .ok (.answer (.int n)) h) :
    StepTogether W S h1 h2 spare a rest := by
  refine perform_together hp.standing (hperf h1) (hperf h2) ?_
  refine settled_answer hW hg hs hp hcalm hdest hrole nofun ⟨n, rfl⟩ nofun nofun (.of_loud hloud ?_)
    fun m hm => hS m (.inl hm)
  rintro arguments rfl
  cases hdest

theorem extract_together (hi : i = .extract d (.reg r) 0)
    (hrole : (W.cert a).HasRole d (.int .half)) (hval : Given W a x before (.value r) .value) :
    StepTogether W S h1 h2 spare a rest := by
  obtain ⟨s, hgives⟩ := hp.frame.typed hW hval (hs.knows hp.standing)
  obtain ⟨y, rfl⟩ := hgives.holds
  subst hi
  refine number_together hW hg hs hp hS rfl rfl rfl hrole (n := y.tagWord.toInt64) fun h => ?_
  have hopd : a.operand W.image (.reg r) = .ok (.value y) := hgives.typed
  simp only [perform, hopd]
  rfl

theorem compare_together {predicate : Ir.Predicate} (hi : i = .compare d predicate lhs rhs)
    (hrole : (W.cert a).HasRole d (.int .bit)) (hleft : Given W a x before lhs (.int width))
    (hright : Given W a x before ⟨width.ty, rhs⟩ (.int width)) :
    StepTogether W S h1 h2 spare a rest := by
  obtain ⟨l, r, hl, hr⟩ := hs.operands hW hp hleft hright
  subst hi
  refine number_together hW hg hs hp hS rfl rfl rfl hrole (n := if comparison predicate l r then 1
    else 0) fun h => ?_
  simp only [perform, hl, hr]
  rfl

theorem arith_together {op : Ir.IntOp} (hi : i = .arith d op lhs rhs)
    (hrole : (W.cert a).HasRole d (.int width)) (hleft : Given W a x before lhs (.int width))
    (hright : Given W a x before ⟨width.ty, rhs⟩ (.int width)) :
    StepTogether W S h1 h2 spare a rest := by
  obtain ⟨l, r, hl, hr⟩ := hs.operands hW hp hleft hright
  subst hi
  refine number_together hW hg hs hp hS rfl rfl rfl hrole (n := arithmetic op l r) fun h => ?_
  simp only [perform, hl, hr]
  rfl

end

/-! ## Loads -/

/-- Registers that are written keep the slots of the arguments in sight, unless they point to them. -/
theorem ArgumentsLive.put (ha : ArgumentsLive W v a) {d : Nat} {s : Scalar} (hd : d < a.registers.size)
    (hs : ∀ ρ slots offset, (W.cert a).HasRole d ρ → (ρ = .argument ∨ ∃ n, ρ = .arguments n) →
      s = .ptr (.values slots offset) → ∀ j ∈ slots, SlotLive v j) :
    ArgumentsLive W v (a.put d s).next := by
  intro r ρ slots offset hr hρ hslot
  change (a.put d s).registers[r]? = _ at hslot
  rw [Activation.getElem?_put hd] at hslot
  split at hslot
  · next heq =>
    subst heq
    exact hs ρ slots offset hr hρ (Option.some.inj (Option.some.inj hslot))
  · exact ha r ρ slots offset hr hρ hslot

theorem Inside.load (ha : Inside W v a before) {ty : Ty} (hd : d < a.registers.size)
    (hs : ∀ p, s ≠ .ptr p) :
    Inside W v (a.put d s).next (.load d ty source :: before) where
  filled b n count _ hfills := filled_of_ne hfills fun _ _ _ heq => nomatch (List.cons.inj heq).1
  pointed d b n k rest heq _ := nomatch (List.cons.inj heq).1
  arguments hb hq := by
    have hq : ∀ j ∈ before, j.isQuiet := fun j hj => hq j (.tail _ hj)
    exact (ha.arguments hb hq).put hd fun _ _ _ _ _ heq => absurd heq (hs _)
  result r rest heq _ := nomatch (List.cons.inj heq).1
  calm arguments rest heq := nomatch (List.cons.inj heq).1

theorem perform_load (hsrc : a.pointerOperand image source = .ok (.values slots offset))
    (hj : slots[offset]? = some j) (hy : h.slots[j]? = some y) :
    perform image a (.load d .value source) h = .ok (.answer (.value y)) h := by
  have hslot : slotAt (.values slots offset) = .ok j := by
    unfold slotAt
    simp only [hj]
  have hload : Host.load j h = .ok y h := by
    unfold Host.load
    rw [Host.get_bind, hy]
    rfl
  simp only [perform, sound_bind hsrc, loadFrom, sound_bind hslot, bind_assoc]
  rw [Host.bind_ok hload]
  rfl

theorem Posture.cell_lt (hp : Posture W h1 h2 a rest x before i roots seg cps own) (hW : W.Sound)
    (hoffset : offset < Layout.cellCount a.routine.function) :
    a.base + offset < h1.stack.words.size := by
  have hwds : Layout.cellCount a.routine.function ≤ a.routine.layout.words := by
    rw [hp.frame.layout hW]
    exact (Layout.separate_of a.routine.function).room
  have hdep : h1.stack.words.size = a.base + a.routine.layout.words := hp.depth
  omega

section

variable (hW : W.Sound) (hg : Ground W h1 h2 spare (.body a :: rest))
  (hs : Settled W a x before seg)
  (hp : Posture W h1 h2 a rest x before i roots seg cps a.resumes.length)
  (hin : Inside W (W.view h1 h2) a before)
  (hS : ∀ m, Proceeds h1.checkpoints (.body a :: rest) m → S m)

include hW hg hs hp hin hS

theorem loadSlot_together (hi : i = .load d .value source) (hrole : (W.cert a).HasRole d .value)
    (hsrc : a.pointerOperand W.image source = .ok (.values slots offset))
    (hj : slots[offset]? = some j) (hlv : SlotLive (W.view h1 h2) j) :
    StepTogether W S h1 h2 spare a rest := by
  obtain ⟨y, hy, hlv⟩ := hlv
  subst hi
  have hy2 : h2.slots[j]? = some y := by
    rw [hg.twin.slots]
    exact hy
  refine perform_together hp.standing (perform_load hsrc hj hy) (perform_load hsrc hj hy2) ?_
  refine settled_answer hW hg hs hp rfl rfl hrole nofun ⟨y, rfl⟩ (live_of hlv) nofun ?_
    fun m hm => hS m (.inl hm)
  exact hin.load (hp.frame.lt_size hW hrole) nofun

theorem load_together (hi : i = .load d .value source) (hrole : (W.cert a).HasRole d .value)
    (hplace : (W.cert a).Keeps W.globals source) : StepTogether W S h1 h2 spare a rest := by
  obtain ⟨j, hj, hsrc⟩ := hs.exists_slot hW hp hplace
  exact loadSlot_together hW hg hs hp hin hS hi hrole hsrc rfl (hg.rooted j hj)

theorem loadArgument_together {s : Nat} (hi : i = .load d .value (.reg s)) (hblk : a.block = 1)
    (hq : ∀ j ∈ before, j.isQuiet) (hrole : (W.cert a).HasRole d .value)
    (hsrc : (W.cert a).HasRole s .argument) (hwritten : (W.cert a).Knows x before s) :
    StepTogether W S h1 h2 spare a rest := by
  obtain ⟨t, ht⟩ := hs.knows hp.standing s hwritten
  obtain ⟨slots, offset, rfl, hlinked, -⟩ := hp.frame.roles s t _ ht hsrc
  have hlv := hin.arguments hblk hq s _ slots offset hsrc (.inl rfl) ht
  rcases Nat.lt_or_ge offset slots.size with hlt | hge
  · exact loadSlot_together hW hg hs hp hin hS hi hrole (pointerOperand_reg ht)
      (Array.getElem?_eq_getElem hlt) (hlv _ (Array.getElem_mem hlt))
  · -- only where symbols do not tell the number of parameters
    have hunlinked : ¬ W.Linked := fun h => absurd (hlinked h) (Nat.not_lt.mpr hge)
    subst hi
    have hslot : slotAt (.values slots offset) = .error (.outOfRange offset) := by
      unfold slotAt
      simp only [Array.getElem?_eq_none hge]
    have hperf : ∀ h : Host, perform W.image a (.load d .value (.reg s)) h =
        .error (.fault (.outOfRange offset)) h := by
      intro h
      simp only [perform, sound_bind (pointerOperand_reg ht), loadFrom, hslot]
      rfl
    rw [stepTogether_iff hp.standing]
    unfold andThen
    rw [hperf h1, hperf h2]
    exact .unlinked hunlinked hg.twin.toMirror

theorem loadCell_together {s : Nat} (hi : i = .load d .i64 (.reg s))
    (hrole : (W.cert a).HasRole d (.int .full)) (hsrc : (W.cert a).HasRole s .cell) :
    StepTogether W S h1 h2 spare a rest := by
  obtain ⟨t, ht⟩ := hs.knows hp.standing s (.inr (.inl ⟨_, hsrc, rfl⟩))
  obtain ⟨offset, rfl, hoffset⟩ := hp.frame.roles s t _ ht hsrc
  have hlt := hp.cell_lt hW hoffset
  obtain ⟨n, hn⟩ : ∃ n, h1.stack.word (a.base + offset) = .ok n := by
    refine ⟨h1.stack.words[a.base + offset], ?_⟩
    unfold Stack.word
    rw [Array.getElem?_eq_getElem hlt]
  subst hi
  have hperf : ∀ h : Host, h.stack = h1.stack → perform W.image a (.load d .i64 (.reg s)) h =
      .ok (.answer (.int n.toInt64)) h := by
    intro h hstk
    rw [← hstk] at hn
    simp only [perform, sound_bind (pointerOperand_reg ht), loadFrom, bind_assoc]
    rw [Host.get_bind, hn]
    rfl
  refine perform_together hp.standing (hperf h1 rfl) (hperf h2 hg.twin.stack) ?_
  refine settled_answer hW hg hs hp rfl rfl hrole nofun ⟨_, rfl⟩ nofun nofun ?_ fun m hm => hS m (.inl hm)
  exact hin.load (hp.frame.lt_size hW hrole) nofun

end

/-! ## Stores -/

theorem Posture.withSlots (hp : Posture W h1 h2 a rest x before i roots seg cps own) (hW : W.Sound)
    (hg : Ground W h1 h2 spare (.body a :: rest)) {slots : Array Value}
    (hslt : Restocks (W.view h1 h2).live h1.slots slots) :
    Posture W { h1 with slots } { h2 with slots } a rest x before i roots seg cps own where
  below := hp.below.mono hW (hg.keeps_withSlots hslt _)
  frame := (hg.keeps_withSlots hslt _).frame hW hp.frame (Nat.le_refl _)
  main := hp.main
  depth := hp.depth
  slots := hp.slots
  checkpoints := hp.checkpoints
  resumes := hp.resumes
  standing := hp.standing

/-- A store makes its slot hold the value. What it points to is a cell that was just pointed to, the
slot of the result or a variable. -/
theorem Inside.store (ha : Inside W v a before)
    (hres : W.kind a ≠ .main → ∃ j, a.registers[0]? = some (some (.ptr (.values #[j] 0))))
    (hdest : a.pointerOperand W.image dest = .ok (.values slots offset))
    (hj : slots[offset]? = some j) (hslt : ∀ j, SlotLive v j → SlotLive v' j)
    (hlv : SlotLive v' j) :
    Inside W v' a.next (.store (.value r) dest :: before) where
  filled b n count hb hfills := by
    cases count with
    | zero => exact fun j hj => absurd hj (Nat.not_lt_zero j)
    | succ k =>
      obtain ⟨r', cell, rest, heq, hfills⟩ := hfills
      obtain ⟨hstore, rfl⟩ := List.cons.inj heq
      obtain ⟨-, rfl⟩ := Instr.store.inj hstore
      obtain ⟨hfilled, slots', hbuf, hcell⟩ := ha.pointed cell b n k rest rfl hb
      have hpointer := hdest.symm.trans (pointerOperand_reg hcell)
      cases hpointer
      intro l hl
      rcases Nat.lt_succ_iff_lt_or_eq.mp hl with hl | rfl
      · exact (hfilled hfills).mono hslt l hl
      · exact ⟨slots, j, hbuf, hj, hlv⟩
  pointed d b n k rest heq _ := nomatch (List.cons.inj heq).1
  arguments hb hq :=
    (ha.arguments hb fun j hj => hq j (.tail _ hj)).mono hslt
  result r' rest heq hinn := by
    obtain ⟨hstore, rfl⟩ := List.cons.inj heq
    obtain ⟨-, rfl⟩ := Instr.store.inj hstore
    obtain ⟨j', hj'⟩ := hres hinn
    have hpointer := hdest.symm.trans (pointerOperand_reg hj')
    cases hpointer
    obtain rfl : j' = j := Option.some.inj hj
    exact ⟨j', hj', hlv⟩
  calm arguments rest heq := nomatch (List.cons.inj heq).1

theorem perform_store {value : Typed} (hval : a.typed image value = .ok (.value y))
    (hdest : a.pointerOperand image dest = .ok (.values slots offset))
    (hj : slots[offset]? = some j) (hlt : j < h.slots.size) :
    perform image a (.store value dest) h = .ok .next { h with slots := h.slots.setIfInBounds j y } := by
  have hslot : slotAt (.values slots offset) = .ok j := by
    unfold slotAt
    simp only [hj]
  have hstore : storeTo (.value y) (.values slots offset) h =
      .ok () { h with slots := h.slots.setIfInBounds j y } := by
    show (Host.sound (slotAt (.values slots offset)) >>= fun j => Host.store j y) h = _
    rw [sound_bind hslot]
    exact store_eq hlt y h rfl
  rw [perform, sound_bind hval, sound_bind hdest, Host.bind_ok hstore]
  rfl

theorem Settled.exists_result (hs : Settled W a x before seg) (hW : W.Sound)
    (hp : Posture W h1 h2 a rest x before i roots seg cps own) (hinn : W.kind a ≠ .main) :
    ∃ j, a.registers[0]? = some (some (.ptr (.values #[j] 0))) ∧ j < h1.slots.size := by
  have hrole := (hp.frame.certified hW).result hinn
  obtain ⟨t, ht⟩ := hs.knows hp.standing 0 (.inr (.inl ⟨_, hrole, rfl⟩))
  obtain ⟨j, rfl, hj⟩ := hp.frame.roles 0 t _ ht hrole
  exact ⟨j, ht, hj⟩

section

variable (hW : W.Sound) (hg : Ground W h1 h2 spare (.body a :: rest))
  (hs : Settled W a x before seg)
  (hp : Posture W h1 h2 a rest x before i roots seg cps a.resumes.length)
  (hin : Inside W (W.view h1 h2) a before)
  (hS : ∀ m, Proceeds h1.checkpoints (.body a :: rest) m → S m)

include hW hg hs hp hin hS

theorem storeSlot_together (hi : i = .store (.value r) dest)
    (hval : Given W a x before (.value r) .value)
    (hdest : a.pointerOperand W.image dest = .ok (.values slots offset))
    (hj : slots[offset]? = some j) (hlt : j < h1.slots.size) :
    StepTogether W S h1 h2 spare a rest := by
  obtain ⟨t, hgives⟩ := hp.frame.typed hW hval (hs.knows hp.standing)
  obtain ⟨y, rfl⟩ := hgives.holds
  have hlv := hgives.live y rfl
  have hrest' : Restocks (W.view h1 h2).live h1.slots (h1.slots.setIfInBounds j y) := .set _ _ hlv
  have hlive' : SlotLive (W.view { h1 with slots := h1.slots.setIfInBounds j y }
      { h2 with slots := h1.slots.setIfInBounds j y }) j :=
    ⟨y, Array.getElem?_setIfInBounds_self_of_lt hlt, hlv⟩
  have hslt : ∀ l, SlotLive (W.view h1 h2) l →
      SlotLive (W.view { h1 with slots := h1.slots.setIfInBounds j y }
        { h2 with slots := h1.slots.setIfInBounds j y }) l := by
    rintro l ⟨z, hz, hl⟩
    exact hrest'.live l z hz hl
  subst hi
  have hperform2 := perform_store (h := h2) hgives.typed hdest hj (by rw [hg.twin.slots]; exact hlt)
  rw [hg.twin.slots] at hperform2
  refine perform_together hp.standing (perform_store hgives.typed hdest hj hlt) hperform2 ?_
  refine settled_next hW (hg.withSlots hrest') hs (hp.withSlots hW hg hrest') rfl rfl ?_
    fun m hm => hS m (.inl hm)
  refine hin.store (fun hinn => ?_) hdest hj hslt hlive'
  obtain ⟨l, hl, -⟩ := hs.exists_result hW hp hinn
  exact ⟨l, hl⟩

theorem store_together (hi : i = .store (.value r) dest)
    (hval : Given W a x before (.value r) .value) (hplace : (W.cert a).Keeps W.globals dest) :
    StepTogether W S h1 h2 spare a rest := by
  obtain ⟨j, hj, hdest⟩ := hs.exists_slot hW hp hplace
  exact storeSlot_together hW hg hs hp hin hS hi hval hdest rfl (hg.rooted j hj).lt

theorem storeEntry_together {s : Nat} (hi : i = .store (.value r) (.reg s))
    (hval : Given W a x before (.value r) .value) (hrole : (W.cert a).HasRole s .entry)
    (hwritten : (W.cert a).Knows x before s) : StepTogether W S h1 h2 spare a rest := by
  obtain ⟨t, ht⟩ := hs.knows hp.standing s hwritten
  obtain ⟨slots, offset, rfl, hlt, hslt⟩ := hp.frame.roles s t _ ht hrole
  exact storeSlot_together hW hg hs hp hin hS hi hval (pointerOperand_reg ht)
    (Array.getElem?_eq_getElem hlt) (hslt _ (Array.getElem_mem hlt))

theorem storeResult_together (hi : i = .store (.value r) (.reg 0))
    (hval : Given W a x before (.value r) .value) (hinn : W.kind a ≠ .main) :
    StepTogether W S h1 h2 spare a rest := by
  obtain ⟨j, hj, hlt⟩ := hs.exists_result hW hp hinn
  exact storeSlot_together hW hg hs hp hin hS hi hval (pointerOperand_reg hj) rfl hlt

end

end Ember.Machine
