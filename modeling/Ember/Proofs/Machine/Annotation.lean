import Ember.Proofs.Lowering.Annotation
import Ember.Proofs.Machine.Balance

/-!
# Ember — comments do nothing

A machine that runs code with comments and one that runs the same code without them stand at the
same instruction most of the time: the positions differ by the comments that were passed. A comment
moves the first machine only; every other instruction moves both, on the same host. What waits for a
result, or for a raise, stands at a call and so never at a comment.

Main result: `annotation_inert`.
-/

namespace Ember.Machine

open Host (sound fault)
open Ir (Instr)

variable {α : Type} {e : Entry} {i : Instr} {m m₁ : Machine}

variable {image : Image} {a : Activation} {rest control : List Entry} {h g : Host}
  {spare : List Nat} {o : Outcome}

/-! ## Positions -/

section

variable {f : Ir.Function} {b p : Nat} {i : Instr}

/-- How many instructions of a block that are no comments stand before a position. -/
def codeBefore (f : Ir.Function) (b p : Nat) : Nat :=
  match f.blocks.get? b with
  | some block => (block.instrs.toList.take p).countP fun i => !i.isComment
  | none => 0

theorem codeBefore_zero (f : Ir.Function) (b : Nat) : codeBefore f b 0 = 0 := by
  unfold codeBefore
  split <;> rfl

theorem codeBefore_succ (hi : f.At b p i) :
    codeBefore f b (p + 1) = codeBefore f b p + if i.isComment then 0 else 1 := by
  obtain ⟨block, hblk, hget⟩ := hi
  simp only [codeBefore, hblk]
  rw [List.take_add_one, hget, List.countP_append]
  cases hi : i.isComment <;> simp [hi]

theorem getElem?_filter_countP {q : α → Bool} {l : List α} {x : α} (hx : l[p]? = some x)
    (hq : q x = true) : (l.filter q)[(l.take p).countP q]? = some x := by
  induction l generalizing p with
  | nil => cases hx
  | cons y rest ih =>
    cases p with
    | zero =>
      obtain rfl := Option.some.inj hx
      simp [hq]
    | succ p =>
      have hrest := ih (p := p) hx
      cases hy : q y <;> simpa [hy] using hrest

theorem at_plain (hi : f.At b p i) (hcode : i.isComment = false) :
    f.plain.At b (codeBefore f b p) i := by
  obtain ⟨block, hblk, hget⟩ := hi
  refine ⟨block.plain, ?_, ?_⟩
  · show (f.blocks.entries.map Ir.Block.plain)[b]? = _
    rw [Array.getElem?_map]
    exact congrArg (Option.map _) hblk
  · simp only [codeBefore, hblk, Ir.Block.plain, Array.toList_filter]
    exact getElem?_filter_countP hget (by simp [hcode])

end

theorem instr?_eq_some : a.instr? = some i ↔ a.routine.function.At a.block a.position i := by
  simp [Activation.instr?, Ir.Function.At, Option.bind_eq_some_iff]

/-! ## What is in progress -/

/-- A function with its frame, without comments. -/
def Routine.plain (r : Routine) : Routine :=
  { r with function := r.function.plain }

/-- A loaded module without comments. -/
def Image.plain (image : Image) : Image :=
  { image with routines := image.routines.map Routine.plain }

/-- A resume point of a function, without comments. -/
def Resume.plain (f : Ir.Function) (r : Resume) : Resume :=
  { r with position := codeBefore f r.block r.position }

/-- A call in progress, without comments. -/
def Activation.plain (a : Activation) : Activation :=
  { a with
    routine := a.routine.plain
    resumes := a.resumes.map (Resume.plain a.routine.function)
    position := codeBefore a.routine.function a.block a.position }

/-- What is in progress, without comments. -/
def Entry.plain : Entry → Entry
  | .body a => .body a.plain
  | e => e

/-- A position at which there is an instruction, and no comment. -/
def Stands (f : Ir.Function) (b p : Nat) : Prop :=
  ∃ i, f.At b p i ∧ i.isComment = false

/-- Resume points are recorded by calls. -/
def Activation.Placed (a : Activation) : Prop :=
  ∀ r ∈ a.resumes, Stands a.routine.function r.block r.position

/-- Functions that wait stand at calls. -/
def Paused (control : List Entry) : Prop :=
  ∀ a, .body a ∈ control → a.Placed ∧ Stands a.routine.function a.block a.position

theorem Stands.next (hs : Stands a.routine.function a.block a.position) :
    a.next.plain = a.plain.next := by
  obtain ⟨i, hi, hcode⟩ := hs
  have hpos := codeBefore_succ hi
  rw [hcode] at hpos
  simp only [Activation.next, Activation.plain, hpos]
  rfl

theorem define_plain (a : Activation) (r : Nat) (s : Scalar) :
    a.plain.define r s = Activation.plain <$> a.define r s := by
  have hwrite : (if r < a.plain.registers.size then
        pure { a.plain with registers := a.plain.registers.setIfInBounds r (some s) }
      else fault (.outOfRange r) : Act Activation) = Activation.plain <$> (if r < a.registers.size then
        pure { a with registers := a.registers.setIfInBounds r (some s) }
      else fault (.outOfRange r) : Act Activation) := by
    by_cases hr : r < a.registers.size
    · rw [if_pos hr, if_pos (show r < a.plain.registers.size from hr)]
      rfl
    · rw [if_neg hr, if_neg (show ¬ r < a.plain.registers.size from hr)]
      rfl
  have hword : a.plain.spillWord r = a.spillWord r := rfl
  unfold Activation.define
  rw [hword]
  cases s with
  | value v =>
    cases a.spillWord r with
    | none => exact hwrite
    | some depth =>
      dsimp only
      rw [map_bind]
      exact bind_congr fun _ => hwrite
  | _ => exact hwrite

theorem defineOption_plain (a : Activation) (r : Option Nat) (s : Scalar) :
    a.plain.defineOption r s = Activation.plain <$> a.defineOption r s := by
  cases r with
  | none => rfl
  | some r => exact define_plain a r s

theorem defineAll_plain (rs : List Nat) (ss : List Scalar) (a : Activation) :
    a.plain.defineAll rs ss = Activation.plain <$> a.defineAll rs ss := by
  induction rs generalizing a ss with
  | nil => cases ss <;> rfl
  | cons r rs ih =>
    cases ss with
    | nil => rfl
    | cons s ss =>
      unfold Activation.defineAll
      rw [define_plain, map_bind, bind_map_left]
      exact bind_congr fun b => ih ss b

theorem begin_plain (symbol : String) (arguments : List Scalar) :
    Activation.begin image.plain symbol arguments =
      Activation.plain <$> Activation.begin image symbol arguments := by
  have hrout : image.plain.routine symbol = (image.routine symbol).map Routine.plain := by
    unfold Image.routine Image.plain
    rw [List.find?_map, show (fun r : Routine => r.function.symbol == symbol) ∘ Routine.plain =
      fun r => r.function.symbol == symbol from rfl]
    cases image.routines.find? fun r => r.function.symbol == symbol <;> rfl
  unfold Activation.begin
  rw [hrout]
  cases image.routine symbol with
  | error f => rfl
  | ok r =>
    simp only [Except.map, sound, pure_bind, map_bind]
    refine bind_congr fun s => bind_congr fun _ => ?_
    rw [← defineAll_plain]
    simp only [Activation.plain, codeBefore_zero]
    rfl

theorem perform_plain (a : Activation) (i : Instr) :
    perform image.plain a.plain i = perform image a i := by
  cases i <;> rfl

/-! ## Machines side by side -/

/-- What follows on the two sides: the same end, or the same host with functions that differ in
comments only. -/
inductive Parallel : Progress → Progress → Prop
  | halted (h : Host) (o : Outcome) : Parallel (.halted h o) (.halted h o)
  | running {h : Host} {spare : List Nat} {a : Activation} {rest : List Entry} (placed : a.Placed)
      (paused : Paused rest) : Parallel (.running ⟨h, spare, .body a :: rest⟩)
        (.running ⟨h, spare, .body a.plain :: rest.map Entry.plain⟩)

theorem parallel_uncaught (v : Value) (h : Host) : Parallel (uncaught v h) (uncaught v h) := by
  unfold uncaught
  split <;> exact .halted ..

theorem parallel_failed (h : Host) (e : Interrupt) : Parallel (failed h e) (failed h e) := by
  cases e with
  | raise v => exact parallel_uncaught v h
  | fatal | fault => exact .halted ..

theorem Paused.tail (hr : Paused (e :: rest)) : Paused rest :=
  fun a ha => hr a (.tail e ha)

theorem frame_of_defineOption {r : Option Nat} {s : Scalar} {b : Activation}
    (hr : a.defineOption r s h = .ok b g) : ∃ registers, b = { a with registers } := by
  cases r with
  | none =>
    obtain ⟨rfl, -⟩ := EStateM.Result.ok.inj hr
    exact ⟨a.registers, rfl⟩
  | some r => exact (writes_of_define hr).frame

theorem parallel_written (hp : Paused (.body a :: rest)) (r : Option Nat) (s : Scalar) (h : Host)
    (spare : List Nat) :
    Parallel
      (match a.defineOption r s h with
      | .ok a h => .running ⟨h, spare, .body a.next :: rest⟩
      | .error e h => failed h e)
      (match a.plain.defineOption r s h with
      | .ok a h => .running ⟨h, spare, .body a.next :: rest.map Entry.plain⟩
      | .error e h => failed h e) := by
  rw [defineOption_plain]
  simp only [Functor.map, EStateM.map]
  cases hd : a.defineOption r s h with
  | error e g => exact parallel_failed g e
  | ok b g =>
    obtain ⟨registers, rfl⟩ := frame_of_defineOption hd
    obtain ⟨hplcd, hstd⟩ := hp a (.head _)
    dsimp only
    rw [← Stands.next (a := { a with registers }) hstd]
    exact .running hplcd hp.tail

/-! ## Raises -/

theorem resume_plain {r : Resume} (hr : Stands a.routine.function r.block r.position)
    (older : List Resume) :
    resume a.plain (r.plain a.routine.function) (older.map (Resume.plain a.routine.function)) =
      Activation.plain <$> resume a r older := by
  obtain ⟨i, hi, hcode⟩ := hr
  have hpos := codeBefore_succ hi
  rw [hcode] at hpos
  unfold resume
  rw [← define_plain]
  simp only [Activation.plain, hpos]
  rfl

theorem mem_of_resumePoint {depth : Nat} {p : Resume × List Resume}
    (hr : resumePoint a depth = some p) : p.1 ∈ a.resumes ∧ p.2 ⊆ a.resumes := by
  unfold resumePoint at hr
  split at hr
  · next r older heq =>
    split at hr
    · obtain rfl := Option.some.inj hr
      rw [heq]
      exact ⟨.head _, List.subset_cons_self r older⟩
    · cases hr
  · cases hr

theorem parallel_unwind (v : Value) (hp : Paused control) (h : Host) (spare : List Nat) :
    Parallel (unwind v h spare control) (unwind v h spare (control.map Entry.plain)) := by
  induction control generalizing h spare with
  | nil => exact parallel_uncaught v h
  | cons e rest ih =>
    cases e with
    | method | field | made => exact ih hp.tail _ _
    | body a =>
      obtain ⟨hplcd, -⟩ := hp a (.head _)
      have hpoint : resumePoint a.plain (h.tryDepth + 1) = (resumePoint a (h.tryDepth + 1)).map
          fun p => (p.1.plain a.routine.function, p.2.map (Resume.plain a.routine.function)) := by
        simp only [resumePoint, Activation.plain]
        cases a.resumes with
        | nil => rfl
        | cons r older =>
          simp only [List.map_cons, Resume.plain]
          split <;> rfl
      show Parallel _ (unwind v h spare (.body a.plain :: rest.map Entry.plain))
      unfold unwind
      rw [hpoint]
      cases hr : resumePoint a (h.tryDepth + 1) with
      | none => exact ih hp.tail _ _
      | some p =>
        obtain ⟨hmem, hsub⟩ := mem_of_resumePoint hr
        simp only [Option.map_some]
        rw [resume_plain (hplcd _ hmem)]
        simp only [Functor.map, EStateM.map]
        cases hresume : resume a p.1 p.2 h with
        | error e g => exact parallel_failed g e
        | ok b g =>
          obtain ⟨registers, rfl⟩ := (writes_of_define hresume).frame
          exact .running (fun r hr => hplcd r (hsub hr)) hp.tail

theorem parallel_interrupted (hp : Paused control) (h : Host) (spare : List Nat) (e : Interrupt) :
    Parallel (interrupted h spare control e) (interrupted h spare (control.map Entry.plain) e) := by
  cases e with
  | raise v => exact parallel_unwind v hp h spare
  | fatal | fault => exact .halted ..

theorem parallel_andThen {k k' : α → Host → Progress} (hp : Paused control)
    (hk : ∀ a h, Parallel (k a h) (k' a h)) (x : Act α) (h : Host) (spare : List Nat) :
    Parallel (andThen x h spare control k) (andThen x h spare (control.map Entry.plain) k') := by
  unfold andThen
  cases x h with
  | ok a g => exact hk a g
  | error e g => exact parallel_interrupted hp g spare e

/-! ## Calls and results -/

theorem parallel_enter (image : Image) (hp : Paused control) (symbol : String)
    (arguments : List Scalar) (h : Host) (spare : List Nat) : Parallel (enter image symbol arguments h spare control)
      (enter image.plain symbol arguments h spare (control.map Entry.plain)) := by
  unfold enter andThen
  rw [begin_plain]
  simp only [Functor.map, EStateM.map]
  cases hb : Activation.begin image symbol arguments h with
  | error e g => exact parallel_interrupted hp g spare e
  | ok a g =>
    obtain ⟨routine, _, stack, hw⟩ := writes_of_begin hb
    obtain ⟨registers, rfl⟩ := hw.frame
    exact .running (fun r hr => by cases hr) hp

theorem Paused.entry (hp : Paused control) (he : ∀ a, e ≠ .body a) : Paused (e :: control) := by
  intro a ha
  rcases List.mem_cons.mp ha with rfl | ha
  · exact absurd rfl (he a)
  · exact hp a ha

theorem parallel_invoke (hp : Paused control) (m : Method) (target : Value) (arguments : List Value)
    (h : Host) (spare : List Nat) : Parallel (invoke image m target arguments h spare control)
      (invoke image.plain m target arguments h spare (control.map Entry.plain)) := by
  refine parallel_andThen hp (fun p g => ?_) (takeValues arguments spare #[]) _ spare
  exact parallel_enter image (hp.entry (e := .method p.1 h.stack.depth) fun _ => nofun) _ _ g p.2

theorem parallel_advance {k k' : Value → Host → Progress} (hp : Paused control)
    (hk : ∀ v h, Parallel (k v h) (k' v h)) (c : Host.Construction) (h : Host) (spare : List Nat) :
    Parallel (advance image c h spare control k)
      (advance image.plain c h spare (control.map Entry.plain) k') := by
  unfold advance
  cases c.remaining with
  | cons f more =>
    exact parallel_enter image (hp.entry (e := .field { c with remaining := more } f) fun _ => nofun) _ _ h spare
  | nil =>
    have hmade : Paused (.made c :: control) := hp.entry fun _ => nofun
    refine parallel_andThen hmade (fun m g => ?_) _ h spare
    cases m with
    | some m => exact parallel_invoke hmade m _ _ g spare
    | none => exact parallel_andThen hp hk _ g spare

theorem parallel_deliver (s : Scalar) (hp : Paused control) (h : Host) (spare : List Nat) :
    Parallel (deliver image s h spare control)
      (deliver image.plain s h spare (control.map Entry.plain)) := by
  induction control generalizing s h spare with
  | nil =>
    show Parallel (deliver image s h spare []) (deliver image.plain s h spare [])
    unfold deliver
    split <;> exact .halted ..
  | cons e rest ih =>
    cases e with
    | body a => exact parallel_written hp a.awaits s h spare
    | method slots depth =>
      cases s with
      | value v => exact ih (.value v) hp.tail _ _
      | _ => exact .halted ..
    | field c f =>
      cases s with
      | value v =>
        have hmade : Paused (.made c :: rest) := hp.tail.entry fun _ => nofun
        exact parallel_andThen hmade (fun _ g => parallel_advance hp.tail
          (fun v g => ih (.value v) hp.tail g spare) c g spare) _ h spare
      | _ => exact .halted ..
    | made c => exact parallel_andThen hp.tail (fun v g => ih (.value v) hp.tail g spare) _ h spare

/-! ## Instructions -/

theorem Paused.body (hplcd : a.Placed) (hstd : Stands a.routine.function a.block a.position)
    (hp : Paused rest) : Paused (.body a :: rest) := by
  intro b hb
  rcases List.mem_cons.mp hb with heq | hb
  · obtain rfl := Entry.body.inj heq
    exact ⟨hplcd, hstd⟩
  · exact hp b hb

theorem close_eq (a : Activation) (depth : Nat) : ∃ resumes, resumes ⊆ a.resumes ∧
    a.close depth = { a with resumes } ∧
    a.plain.close depth = Activation.plain { a with resumes } := by
  obtain ⟨routine, base, registers, owned, resumes, block, position, awaits⟩ := a
  cases resumes with
  | nil => exact ⟨[], List.Subset.refl _, rfl, rfl⟩
  | cons r older =>
    by_cases hr : r.depth = depth
    · refine ⟨older, List.subset_cons_self r older, ?_, ?_⟩
      · simp [Activation.close, hr]
      · simp [Activation.close, Activation.plain, Resume.plain, hr]
    · refine ⟨r :: older, List.Subset.refl _, ?_, ?_⟩
      · simp [Activation.close, hr]
      · simp [Activation.close, Activation.plain, Resume.plain, hr]

theorem parallel_apply (hplcd : a.Placed)
    (hstd : Stands a.routine.function a.block a.position) (hp : Paused rest) (effect : Effect)
    (dest : Option Nat) (h : Host) (spare : List Nat) :
    Parallel (apply image effect dest a rest h spare)
      (apply image.plain effect dest a.plain (rest.map Entry.plain) h spare) := by
  have hwaits : Paused (.body { a with awaits := dest } :: rest) := .body hplcd hstd hp
  -- the two differ in positions only, and each effect leaves positions that correspond
  cases effect with
  | next =>
    show Parallel _ (.running ⟨h, spare, .body a.plain.next :: _⟩)
    rw [← hstd.next]
    exact .running hplcd hp
  | answer s => exact parallel_written (.body hplcd hstd hp) dest s h spare
  | slots count =>
    unfold apply
    dsimp only
    cases takeSlots count spare #[] h with
    | error e g => exact parallel_failed g e
    | ok p g =>
      have hpaused : Paused (.body { a with owned := a.owned ++ p.1 } :: rest) :=
        .body hplcd hstd hp
      exact parallel_written hpaused dest _ g p.2
  | closed =>
    obtain ⟨resumes, hsub, hclose, hplain⟩ := close_eq a (h.tryDepth + 1)
    unfold apply
    simp only [hclose, hplain]
    have hpaused : Paused (.body { a with resumes } :: rest) :=
      .body (fun r hr => hplcd r (hsub hr)) hstd hp
    exact parallel_written hpaused dest .void h spare
  | checkpoint depth =>
    cases dest with
    | none => exact .halted ..
    | some r =>
      let point : Resume := { depth, block := a.block, position := a.position, dest := r }
      have hpaused : Paused (.body { a with resumes := point :: a.resumes } :: rest) := by
        refine .body (fun r' hr' => ?_) hstd hp
        rcases List.mem_cons.mp hr' with rfl | hr'
        · exact hstd
        · exact hplcd r' hr'
      exact parallel_written hpaused (some r) (.int 0) h spare
  | jump block =>
    have hplain : ({ a with block, position := 0 } : Activation).plain =
        { a.plain with block, position := 0 } := by
      simp only [Activation.plain, codeBefore_zero]
    show Parallel _ (.running ⟨h, spare, .body { a.plain with block, position := 0 } :: _⟩)
    rw [← hplain]
    exact .running hplcd hp
  | ret s => exact parallel_deliver s hp _ _
  | enter symbol arguments => exact parallel_enter image hwaits symbol arguments h spare
  | invoke m target arguments => exact parallel_invoke hwaits m target arguments h spare
  | construct c =>
    exact parallel_advance hwaits (fun v g => parallel_deliver (.value v) hwaits g spare) c h spare

theorem parallel_step (image : Image) (h : Host) (spare : List Nat) (hplcd : a.Placed)
    (hp : Paused rest) (hi : a.instr? = some i) (hcode : i.isComment = false) :
    Parallel (step image ⟨h, spare, .body a :: rest⟩)
      (step image.plain ⟨h, spare, .body a.plain :: rest.map Entry.plain⟩) := by
  have hat := instr?_eq_some.mp hi
  have hstd : Stands a.routine.function a.block a.position := ⟨i, hat, hcode⟩
  have hplain : a.plain.instr? = some i := instr?_eq_some.mpr (at_plain hat hcode)
  unfold step
  simp only [hi, hplain, perform_plain]
  cases perform image a i h with
  | ok effect g => exact parallel_apply hplcd hstd hp effect _ g spare
  | error e g => exact parallel_interrupted (.body hplcd hstd hp) g spare e

theorem step_comment (image : Image) (h : Host) (spare : List Nat) (rest : List Entry)
    (hi : a.instr? = some i) (hcode : i.isComment = true) :
    step image ⟨h, spare, .body a :: rest⟩ = .running ⟨h, spare, .body a.next :: rest⟩ ∧
      a.next.plain = a.plain := by
  have hpos := codeBefore_succ (instr?_eq_some.mp hi)
  rw [hcode] at hpos
  constructor
  · cases i with
    | comment text =>
      unfold step
      simp only [hi]
      rfl
    | _ => cases hcode
  · simp only [Activation.next, Activation.plain, hpos]
    rfl

/-! ## Runs -/

/-- A run that always has an instruction to go on with. -/
def Lasting (image : Image) (m : Machine) : Prop :=
  ∀ m₁, Reaches image m m₁ → ∀ a rest, m₁.control = .body a :: rest → ∃ i, a.instr? = some i

theorem Lasting.step (hl : Lasting image m) (hstp : step image m = .running m₁) :
    Lasting image m₁ := by
  rintro m2 ⟨n, hn⟩
  refine hl m2 ⟨n + 1, ?_⟩
  rw [runFor, hstp]
  exact hn

theorem runFor_succ_of_running (hstp : Machine.step image m = .running m₁) (n : Nat) :
    runFor image (n + 1) m = runFor image n m₁ := by
  rw [runFor, hstp]

theorem halts_plain (n : Nat) (hplcd : a.Placed) (hp : Paused rest)
    (hl : Lasting image ⟨h, spare, .body a :: rest⟩)
    (hn : runFor image n ⟨h, spare, .body a :: rest⟩ = .halted g o) :
    ∃ n', runFor image.plain n' ⟨h, spare, .body a.plain :: rest.map Entry.plain⟩ = .halted g o := by
  induction n generalizing h spare a rest with
  | zero => cases hn
  | succ n ih =>
    obtain ⟨i, hi⟩ := hl _ ⟨0, rfl⟩ a rest rfl
    cases hcode : i.isComment with
    | true =>
      obtain ⟨hstp, hplain⟩ := step_comment image h spare rest hi hcode
      rw [runFor_succ_of_running hstp] at hn
      rw [← hplain]
      exact ih hplcd hp (hl.step hstp) hn
    | false =>
      have hboth := parallel_step image h spare hplcd hp hi hcode
      generalize hs : step image _ = q at hboth
      generalize hs' : step image.plain _ = q' at hboth
      cases hboth with
      | halted =>
        rw [runFor, hs] at hn
        refine ⟨1, ?_⟩
        rw [runFor, hs']
        exact hn
      | running placed paused =>
        rw [runFor_succ_of_running hs] at hn
        obtain ⟨n', hn'⟩ := ih placed paused (hl.step hs) hn
        exact ⟨n' + 1, (runFor_succ_of_running hs' n').trans hn'⟩

theorem exists_code (hplcd : a.Placed) (hl : Lasting image ⟨h, spare, .body a :: rest⟩) :
    ∃ j b, b.plain = a.plain ∧ b.Placed ∧ Lasting image ⟨h, spare, .body b :: rest⟩ ∧
      (∃ i, b.instr? = some i ∧ i.isComment = false) ∧
      ∀ n, runFor image (j + n) ⟨h, spare, .body a :: rest⟩ =
        runFor image n ⟨h, spare, .body b :: rest⟩ := by
  obtain ⟨i, hi⟩ := hl _ ⟨0, rfl⟩ a rest rfl
  obtain ⟨block, hblk, hget⟩ := instr?_eq_some.mp hi
  -- Each comment brings the function closer to the end of its block.
  induction hk : block.instrs.size - a.position generalizing a i with
  | zero =>
    have hlt := (List.getElem?_eq_some_iff.mp hget).1
    rw [Array.length_toList] at hlt
    omega
  | succ k ih =>
    cases hcode : i.isComment with
    | false => exact ⟨0, a, rfl, hplcd, hl, ⟨i, hi, hcode⟩, fun n => by rw [Nat.zero_add]⟩
    | true =>
      obtain ⟨hstp, hplain⟩ := step_comment image h spare rest hi hcode
      have hl' := hl.step hstp
      obtain ⟨i', hi'⟩ := hl' _ ⟨0, rfl⟩ a.next rest rfl
      obtain ⟨block', hblock', hget'⟩ := instr?_eq_some.mp hi'
      obtain rfl := Option.some.inj (hblk.symm.trans hblock')
      have hk' : block.instrs.size - a.next.position = k := by
        show block.instrs.size - (a.position + 1) = k
        omega
      obtain ⟨j, b, hb, hplaced', hlasting, hinstr, hrun⟩ := ih (a := a.next) hplcd
        hl' i' hi' hblk hget' hk'
      refine ⟨j + 1, b, hb.trans hplain, hplaced', hlasting, hinstr, fun n => ?_⟩
      rw [Nat.add_right_comm, runFor_succ_of_running hstp]
      exact hrun n

theorem halts_of_plain (n : Nat) (hplcd : a.Placed) (hp : Paused rest)
    (hl : Lasting image ⟨h, spare, .body a :: rest⟩)
    (hn : runFor image.plain n ⟨h, spare, .body a.plain :: rest.map Entry.plain⟩ = .halted g o) :
    ∃ n', runFor image n' ⟨h, spare, .body a :: rest⟩ = .halted g o := by
  induction n generalizing h spare a rest with
  | zero => cases hn
  | succ n ih =>
    obtain ⟨j, b, hplain, hplcd, hl, ⟨i, hi, hcode⟩, hrun⟩ := exists_code hplcd hl
    rw [← hplain] at hn
    have hboth := parallel_step image h spare hplcd hp hi hcode
    generalize hs : step image _ = q at hboth
    generalize hs' : step image.plain _ = q' at hboth
    cases hboth with
    | halted =>
      rw [runFor, hs'] at hn
      refine ⟨j + 1, (hrun 1).trans ?_⟩
      rw [runFor, hs]
      exact hn
    | running placed paused =>
      rw [runFor_succ_of_running hs'] at hn
      obtain ⟨n', hn'⟩ := ih placed paused (hl.step hs) hn
      exact ⟨j + (n' + 1), (hrun (n' + 1)).trans ((runFor_succ_of_running hs n').trans hn')⟩

/-! ## Programs -/

theorem layout_plain (f : Ir.Function) : Layout.of f.plain = Layout.of f := by
  have hinstrs : f.plain.instrs = f.instrs.filter fun i => !i.isComment := by
    simp only [Ir.Function.instrs, Ir.Function.plain, Table.toList, Array.toList_map,
      List.filter_flatMap, List.flatMap_map, Ir.Block.plain, Array.toList_filter]
  have hcell : ∀ l (i : Instr), (if !i.isComment then Layout.addCell l i else l) = l.addCell i := by
    intro l i
    cases i <;> rfl
  unfold Layout.of
  rw [hinstrs, List.foldl_filter]
  simp only [hcell]
  rfl

theorem load_plain (m : Ir.Module) (arguments : List String) :
    Image.load m.plain arguments = Image.plain <$> Image.load m arguments := by
  unfold Image.load
  rw [map_bind]
  refine bind_congr fun globals => ?_
  simp only [map_pure, Image.plain, Ir.Module.plain, ← List.map_reverse, List.map_map]
  congr 2
  exact List.map_congr_left fun f _ => by simp [Routine.plain, layout_plain]

theorem start_plain {m : Ir.Module} {arguments : List String} {m0 : Machine}
    (hst : start m arguments h = (.ok image, .running m0)) :
    ∃ m₁, start m.plain arguments h = (.ok image.plain, .running m₁) ∧
      Parallel (.running m0) (.running m₁) := by
  unfold start at hst ⊢
  rw [load_plain]
  simp only [Functor.map, EStateM.map]
  cases hload : Image.load m arguments h with
  | error e g =>
    rw [hload] at hst
    cases hst
  | ok image' g =>
    rw [hload] at hst
    obtain ⟨himage, henter⟩ := Prod.mk.inj hst
    obtain rfl := Except.ok.inj himage
    have hempty : Paused [] := fun a ha => by cases ha
    have hboth := parallel_enter image' hempty "main"
      [.int (Int64.ofNat arguments.length), .ptr .arguments] g []
    rw [henter] at hboth
    rw [List.map_nil] at hboth
    dsimp only
    generalize enter image'.plain "main" _ g [] [] = q at hboth ⊢
    cases hboth with
    | running placed paused => exact ⟨_, rfl, .running placed paused⟩

/-- **Annotation does nothing.** A program with and without comments is refused for the same reason or
compiled to the same code but for the comments; and where the code with comments ends, the code without
them ends with the same outcome and the same host, and the other way round. -/
theorem annotation_inert (p : Program) :
    p.lower false = (p.lower true).map Ir.Module.plain ∧
      ∀ m, p.lower true = .ok m → ∀ config console h, Host.start config console = .ok h →
        ∀ arguments g o, (∃ n, run n m arguments h = .halted g o) ↔
          ∃ n, run n m.plain arguments h = .halted g o := by
  refine ⟨p.lower_plain, fun m hm config console h hst arguments g o => ?_⟩
  obtain ⟨W, m₀, -, -, -, -, hload, -, -⟩ :=
    compiled_running hm ⟨rfl, rfl, rfl⟩ hst hst arguments
  obtain ⟨m₁, hplain, hboth⟩ := start_plain hload
  obtain ⟨W', himage, -, -, hreach⟩ := exists_world hm hst hload
  have hlasting : Lasting W.image m₀ := by
    intro m₂ hm₂ a rest hctl
    obtain ⟨_, _, i, _, _, _, _, ha⟩ := (hreach m₂ hm₂).active_of_control hctl
    exact ⟨i, ha.standing.instr?⟩
  simp only [run_eq_runFor hload, run_eq_runFor hplain]
  cases hboth with
  | running placed paused =>
    exact ⟨fun ⟨n, hn⟩ => halts_plain n placed paused hlasting hn,
      fun ⟨n, hn⟩ => halts_of_plain n placed paused hlasting hn⟩

theorem annotation_inert_sample :
    ∃ m, sample.lower true = .ok m ∧ (m.instrs.any Instr.isComment) = true ∧
      sample.lower false = .ok m.plain ∧ Host.start eager {} = .ok (Host.new eager) ∧
      ∀ g o, (∃ n, run n m ["a"] (Host.new eager) = .halted g o) ↔
        ∃ n, run n m.plain ["a"] (Host.new eager) = .halted g o := by
  have hlow : sample.lower true = .ok ((sample.lower true).toOption.getD default) :=
    lower_eq_ok_of_isSome (by decide +kernel)
  have hplain := (annotation_inert sample).1
  rw [hlow] at hplain
  exact ⟨_, hlow, by decide +kernel, hplain, start_eager,
    (annotation_inert sample).2 _ hlow eager {} _ start_eager ["a"]⟩

end Ember.Machine
