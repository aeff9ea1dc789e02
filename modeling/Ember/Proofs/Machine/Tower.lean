import Ember.Proofs.Machine.Frame

/-!
# Ember — what waits below the running function

The functions, method calls and constructions in progress stand one on the other. Each has its part
of the machine stack, of the root stack and of the open checkpoints, directly above the parts of what
lies below it. The resume points of a function are those of its own checkpoints.

Main result: `Ground`.
-/

namespace Ember.Machine

open Ir (Convention Cert Context Instr Operand Assigns pushes trailOf triesAfter Steady
  Ended Opens)

variable {a' : Activation} {c : Cert} {before : List Instr} {b : Nat} {o : Operand}

/-! ## Places in the code -/

/-- A register that was written where the instructions `before` of a block are behind. The prologue
writes the storage, and in the exit only that is relied on. -/
def Known (c : Cert) (b : Nat) (x : Context) (before : List Instr) (r : Nat) : Prop :=
  r ∈ c.inputs ∨ Assigns before r ∨ (b ≠ 0 ∧ ∃ ρ, c.HasRole r ρ ∧ ρ.isStorage) ∨
    (b ≠ 0 ∧ b ≠ 2 ∧ ∃ p ∈ x.after, (p, r) ∈ c.defs)

theorem Known.of_knows {c : Cert} {b : Nat} {x : Context} {before : List Instr} {r : Nat}
    (hb0 : b ≠ 0) (hb2 : b ≠ 2) (hr : c.Knows x before r) : Known c b x before r := by
  rcases hr with hr | hr | hr | hr
  · exact .inl hr
  · exact .inr (.inr (.inl ⟨hb0, hr⟩))
  · exact .inr (.inl hr)
  · exact .inr (.inr (.inr ⟨hb0, hb2, hr⟩))

/-- A function stands at the instruction `i` of its block, behind the instructions `before`. -/
structure Standing (W : World) (a : Activation) (x : Context) (before : List Instr) (i : Instr) :
    Prop where
  suffix : i :: before <:+ trailOf a.routine.function.blocks a.block
  position : a.position = before.length
  context : a.block ≠ 0 → a.block ≠ 2 → (W.cert a).HasContext a.block x ∧ x.live = true
  known : ∀ r, Known (W.cert a) a.block x before r → a.Defined r

theorem getElem?_of_trail {blocks : Table Ir.Block} {i : Instr}
    (hsuf : i :: before <:+ trailOf blocks b) :
    ((blocks.get? b).bind fun blk => blk.instrs[before.length]?) = some i := by
  unfold trailOf at hsuf
  cases hblk : blocks.get? b with
  | none =>
    rw [hblk] at hsuf
    cases List.eq_nil_of_suffix_nil hsuf
  | some blk =>
    rw [hblk] at hsuf
    obtain ⟨rest, hrest⟩ := hsuf
    have hlist : blk.instrs.toList = before.reverse ++ i :: rest.reverse := by
      rw [← List.reverse_reverse blk.instrs.toList]
      show blk.trail.reverse = _
      have htrail : rest ++ i :: before = blk.trail := hrest
      simp [← htrail]
    show blk.instrs[before.length]? = some i
    rw [← Array.getElem?_toList, hlist, List.getElem?_append_right (by simp)]
    simp

namespace Standing

variable {W : World} {v : View} {a a' : Activation} {x : Context} {before : List Instr}
  {i j : Instr}

theorem instr? (hs : Standing W a x before i) : a.instr? = some i := by
  unfold Activation.instr?
  rw [hs.position]
  exact getElem?_of_trail hs.suffix

theorem ended (hs : Standing W a x before i)
    (hc : a.routine.function.Certified W.interface W.globals (W.kind a) (W.cert a)) :
    Ended (trailOf a.routine.function.blocks a.block) := by
  refine hc.ended _ (Nat.lt_of_not_le fun hle => ?_)
  have hsuf := hs.suffix
  rw [Ir.trailOf_of_size_le hle] at hsuf
  cases List.eq_nil_of_suffix_nil hsuf

theorem exists_next (hs : Standing W a x before i)
    (hc : a.routine.function.Certified W.interface W.globals (W.kind a) (W.cert a))
    (hi : i.isTerminator = false) :
    ∃ j, j :: i :: before <:+ trailOf a.routine.function.blocks a.block := by
  obtain ⟨rest, hrest⟩ := hs.suffix
  cases rest using List.reverseRecOn with
  | nil =>
    have hended := hs.ended hc
    rw [← hrest] at hended
    simp [Ended, hi] at hended
  | append_singleton rest j =>
    exact ⟨j, rest, by rw [← hrest]; simp⟩

theorem next (hs : Standing W a x before i)
    (hnext : j :: i :: before <:+ trailOf a.routine.function.blocks a.block)
    (hrout : a'.routine = a.routine) (hblock : a'.block = a.block)
    (hpos : a'.position = a.position + 1) (hdefd : ∀ r, a.Defined r → a'.Defined r)
    (hdest : ∀ d, destOf i = some d → a'.Defined d) : Standing W a' x (i :: before) j := by
  have hcert : W.cert a' = W.cert a := by rw [World.cert, World.cert, hrout]
  constructor
  · rw [hrout, hblock]
    exact hnext
  · rw [hpos, hs.position, List.length_cons]
  · rw [hblock, hcert]
    exact hs.context
  · intro r hr
    rw [hblock, hcert] at hr
    rcases hr with hr | ⟨j, hj, hr⟩ | hr | hr
    · exact hdefd r (hs.known r (.inl hr))
    · rcases List.mem_cons.mp hj with rfl | hj
      · exact hdest r hr
      · exact hdefd r (hs.known r (.inr (.inl ⟨j, hj, hr⟩)))
    · exact hdefd r (hs.known r (.inr (.inr (.inl hr))))
    · exact hdefd r (hs.known r (.inr (.inr (.inr hr))))

end Standing

/-! ## Resume points -/

/-- A resume point stands where its checkpoint was recorded, with `n` regions open around it. -/
def Resumable (W : World) (a : Activation) (r : Resume) (n : Nat) : Prop :=
  ∃ x p rest, Standing W { a with block := r.block, position := r.position } x (.tryPush p :: rest)
      (.setjmp r.dest p) ∧
    r.block ≠ 0 ∧ r.block ≠ 2 ∧ triesAfter x.tries rest = n

/-- Resume points, innermost first, of a function above `below` checkpoints. -/
def Resumes (W : World) (a : Activation) (below : Nat) : List Resume → Prop
  | [] => True
  | r :: older => r.depth = below + older.length + 1 ∧ Resumable W a r older.length ∧
      Resumes W a below older

section

variable {W : World} {a a' : Activation} {below n : Nat} {r : Resume} {rs : List Resume}

theorem Resumable.mono (hr : Resumable W a r n) (hrout : a'.routine = a.routine)
    (hdefd : ∀ r, a.Defined r → a'.Defined r) : Resumable W a' r n := by
  obtain ⟨x, p, rest, hs, hblock⟩ := hr
  have hcert : W.cert a' = W.cert a := by rw [World.cert, World.cert, hrout]
  refine ⟨x, p, rest, ⟨?_, hs.position, ?_, fun r hr => hdefd r (hs.known r ?_)⟩, hblock⟩
  · show _ <:+ trailOf a'.routine.function.blocks _
    rw [hrout]
    exact hs.suffix
  · show _ → _ → (W.cert a').HasContext _ _ ∧ _
    rw [hcert]
    exact hs.context
  · have hr : Known (W.cert a') _ _ _ _ := hr
    rw [hcert] at hr
    exact hr

theorem Resumes.mono (hrs : Resumes W a below rs) (hrout : a'.routine = a.routine)
    (hdefd : ∀ r, a.Defined r → a'.Defined r) : Resumes W a' below rs := by
  induction rs with
  | nil => trivial
  | cons r older ih => exact ⟨hrs.1, hrs.2.1.mono hrout hdefd, ih hrs.2.2⟩

end

/-! ## Registered slots -/

/-- The slots that operands point to. -/
def Points (W : World) (a : Activation) : List Operand → List Nat → Prop :=
  List.Forall₂ fun o i => a.pointerOperand W.image o = .ok (.values #[i] 0)

section

variable {W : World} {a : Activation} {ops : List Operand} {slots : List Nat}

theorem pointerOperand_congr {image : Image}
    (ho : ∀ r, o = .reg r → a'.registers[r]? = a.registers[r]?) :
    a'.pointerOperand image o = a.pointerOperand image o := by
  have hopd : a'.operand image o = a.operand image o := by
    cases o with
    | reg r => simp only [Activation.operand, Activation.register, ho r rfl]
    | imm n => cases n <;> rfl
    | global g => cases g <;> rfl
  unfold Activation.pointerOperand
  rw [hopd]

theorem Points.congr (hp : Points W a ops slots)
    (hregs : ∀ r, .reg r ∈ ops → a'.registers[r]? = a.registers[r]?) :
    Points W a' ops slots := by
  induction hp with
  | nil => exact .nil
  | @cons o i ops slots ho hp ih =>
    refine .cons ?_ (ih fun r hr => hregs r (.tail _ hr))
    rw [pointerOperand_congr fun r hr => hregs r (hr ▸ List.mem_cons_self)]
    exact ho

theorem Points.exists_slot (hp : Points W a ops slots) (ho : o ∈ ops) :
    ∃ i ∈ slots, a.pointerOperand W.image o = .ok (.values #[i] 0) := by
  induction hp with
  | nil => exact absurd ho List.not_mem_nil
  | @cons o' i ops slots ho' hp ih =>
    rcases List.mem_cons.mp ho with rfl | ho
    · exact ⟨i, .head _, ho'⟩
    · obtain ⟨j, hj, hpts⟩ := ih ho
      exact ⟨j, .tail _ hj, hpts⟩

end

/-- What a prologue registers: slots of the frame, and in `main` those of the whole program. -/
theorem mem_pushes {G : List String} {k : Convention} {l : List Instr}
    (hl : Ir.Checked (Opens G k c) l) (ho : o ∈ pushes l) :
    (∃ d, o = .reg d ∧ c.HasRole d .slot) ∨ ∃ s ∈ G, o = .global (.slot s) := by
  induction l with
  | nil => exact absurd ho List.not_mem_nil
  | cons i before ih =>
    obtain ⟨hi, hl⟩ := hl
    unfold pushes at ho
    obtain ⟨j, hj, hpush⟩ := List.mem_filterMap.mp ho
    rcases List.mem_cons.mp hj with rfl | hj
    · cases hi with
      | root role cleared => exact .inl ⟨_, (Option.some.inj hpush).symm, role⟩
      | globalRoot main declared => exact .inr ⟨_, declared, (Option.some.inj hpush).symm⟩
      | slots | cell | clear | gcInit | bottom | setArgs => cases hpush
    · exact ih hl (List.mem_filterMap.mpr ⟨j, hj, hpush⟩)

/-! ## The tower -/

/-- A function that waits for the value of a call. -/
def Waits (W : World) (a : Activation) : Prop :=
  ∃ x before d ty callee arguments, Standing W a x before (.call (some d) ty callee arguments) ∧
    a.block ≠ 0 ∧ a.block ≠ 2 ∧ Steady before ∧
    (Instr.call (some d) ty callee arguments).isCalm ∧
    triesAfter x.tries before = a.resumes.length ∧ a.awaits = some d ∧ (W.cert a).HasRole d .value

/-- The words of a construction: those of its arguments and of the instance. -/
def Spilled (v : View) (c : Host.Construction) : Prop :=
  ∀ x ∈ c.arguments ++ [c.receiver], ∃ i, c.depth ≤ i ∧ i < c.depth + 2 * (c.arguments.length + 1) ∧
    v.words[i]? = some x.word

/-- What waits below the running function, with its registered slots, the depth of the machine stack
above it and its open checkpoints. -/
inductive Tower (W : World) (v : View) : List Entry → List Nat → Nat → List Checkpoint → Prop
  | nil : Tower W v [] [] 0 []
  | body {a : Activation} {rest : List Entry} {roots seg : List Nat} {cps : List Checkpoint}
      (below : Tower W v rest roots a.base cps) (frame : Frame W v a)
      (main : rest = [] ↔ W.kind a = .main)
      (segment : Points W a (pushes a.routine.function.prologue).reverse seg)
      (resumes : Resumes W a cps.length a.resumes) (waits : Waits W a) :
      Tower W v (.body a :: rest) (roots ++ seg) (a.base + a.routine.layout.words)
        (List.replicate a.resumes.length ⟨(roots ++ seg).length, a.base + a.routine.layout.words⟩ ++
          cps)
  | method {slots : Array Nat} {rest : List Entry} {roots : List Nat} {depth top : Nat}
      {cps : List Checkpoint} (below : Tower W v rest roots depth cps) (inner : rest ≠ [])
      (above : top = depth + 2 * (slots.size + 1)) :
      Tower W v (.method slots depth :: rest) roots top cps
  | field {c : Host.Construction} {f : Field} {rest : List Entry} {roots : List Nat}
      {cps : List Checkpoint} (below : Tower W v rest roots c.depth cps) (inner : rest ≠ [])
      (making : v.making c) (spilled : Spilled v c) :
      Tower W v (.field c f :: rest) roots (c.depth + 2 * (c.arguments.length + 1)) cps
  | made {c : Host.Construction} {rest : List Entry} {roots : List Nat}
      {cps : List Checkpoint} (below : Tower W v rest roots c.depth cps) (inner : rest ≠ [])
      (making : v.making c) (spilled : Spilled v c) :
      Tower W v (.made c :: rest) roots (c.depth + 2 * (c.arguments.length + 1)) cps

/-- What later views keep of earlier ones, as far as the first `depth` words of the machine stack
hold on to it. -/
structure View.Keeps (v v' : View) (depth : Nat) : Prop where
  live : ∀ x i, i < depth → v.words[i]? = some (Value.word x) → v.live x → v'.live x
  making : ∀ c, v.making c → v'.live c.receiver → (∀ x ∈ c.arguments, v'.live x) → v'.making c
  parts : ∀ c, v.making c → v.live c.receiver ∧ ∀ x ∈ c.arguments, v.live x
  words : ∀ i, i < depth → v'.words[i]? = v.words[i]?
  size : v.slots.size ≤ v'.slots.size

namespace View.Keeps

variable {v v' : View} {depth depth' : Nat}

theorem mono (hv : v.Keeps v' depth) (hle : depth' ≤ depth) : v.Keeps v' depth' where
  live x i hi := hv.live x i (hi.trans_le hle)
  making := hv.making
  parts := hv.parts
  words i hi := hv.words i (hi.trans_le hle)
  size := hv.size

theorem frame (hv : v.Keeps v' depth) {W : World} {a : Activation} (hW : W.Sound) (ha : Frame W v a)
    (hdep : a.base + a.routine.layout.words ≤ depth) : Frame W v' a :=
  ha.mono hW (fun x i hi => hv.live x i (hi.trans_le hdep))
    (fun i hi => hv.words i (hi.trans_le hdep)) hv.size

theorem construction (hv : v.Keeps v' depth) {c : Host.Construction} (hmk : v.making c)
    (hspilled : Spilled v c) (hdep : c.depth + 2 * (c.arguments.length + 1) ≤ depth) :
    v'.making c ∧ Spilled v' c := by
  obtain ⟨hrecv, hargs⟩ := hv.parts c hmk
  have hlv : ∀ x ∈ c.arguments ++ [c.receiver], v.live x → v'.live x := by
    intro x hx hlv
    obtain ⟨i, -, hi, hword⟩ := hspilled x hx
    exact hv.live x i (by omega) hword hlv
  constructor
  · refine hv.making c hmk (hlv _ (by simp) hrecv) fun x hx => ?_
    exact hlv x (List.mem_append_left _ hx) (hargs x hx)
  · intro x hx
    obtain ⟨i, hlow, hi, hword⟩ := hspilled x hx
    exact ⟨i, hlow, hi, (hv.words i (by omega)).trans hword⟩

end View.Keeps

namespace Tower

variable {W : World} {v v' : View} {control : List Entry} {roots : List Nat} {depth : Nat}
  {cps : List Checkpoint}

theorem mono (ht : Tower W v control roots depth cps) (hW : W.Sound) (hv : v.Keeps v' depth) :
    Tower W v' control roots depth cps := by
  induction ht with
  | nil => exact .nil
  | body below frame main segment resumes waits ih =>
    exact .body (ih (hv.mono (Nat.le_add_right _ _))) (hv.frame hW frame (Nat.le_refl _)) main segment
      resumes waits
  | method below inner above ih =>
    exact .method (ih (hv.mono (by omega))) inner above
  | field below inner making spilled ih =>
    obtain ⟨hmk, hspilled⟩ := hv.construction making spilled (Nat.le_refl _)
    exact .field (ih (hv.mono (by omega))) inner hmk hspilled
  | made below inner making spilled ih =>
    obtain ⟨hmk, hspilled⟩ := hv.construction making spilled (Nat.le_refl _)
    exact .made (ih (hv.mono (by omega))) inner hmk hspilled

theorem global (ht : Tower W v control roots depth cps) (hW : W.Sound) (hne : control ≠ [])
    {s : String} (hs : s ∈ W.globals) : ∃ i ∈ roots, W.image.global s = .ok i := by
  induction ht with
  | nil => exact absurd rfl hne
  | @body a rest roots seg cps below frame main segment resumes waits ih =>
    by_cases hrest : rest = []
    · have hpush := (frame.certified hW).globals (main.mp hrest) s hs
      obtain ⟨i, hi, hpts⟩ := segment.exists_slot (List.mem_reverse.mpr hpush)
      refine ⟨i, List.mem_append_right _ hi, ?_⟩
      unfold Activation.pointerOperand Activation.operand at hpts
      cases hglob : W.image.global s with
      | error e => simp [hglob, bind, Except.bind] at hpts
      | ok j =>
        simp [hglob, bind, Except.bind, pure, Except.pure] at hpts
        rw [hpts]
    · obtain ⟨i, hi, hglob⟩ := ih hrest
      exact ⟨i, List.mem_append_left _ hi, hglob⟩
  | method below inner above ih => exact ih inner
  | field below inner making spilled ih => exact ih inner
  | made below inner making spilled ih => exact ih inner

end Tower

end Ember.Machine
