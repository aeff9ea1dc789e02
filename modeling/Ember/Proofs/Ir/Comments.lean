import Ember.Proofs.Ir.Readiness

/-!
# Ember — comments in code

Comments do nothing, and code without them is the same code. While a function is written, a comment
may be left out as soon as it is added, except behind the end of a block: there it would make the
block go on. What is written then is what is written without comments, with the same numbers of
registers and blocks.

Main result: `Draft.Inert`.
-/

namespace Ember.Ir

variable {i : Instr}

/-- Comments. -/
def Instr.isComment : Instr → Bool
  | .comment _ => true
  | _ => false

/-- A block without its comments. -/
def Block.plain (b : Block) : Block :=
  { b with instrs := b.instrs.filter fun i => !i.isComment }

/-- A function without its comments. -/
def Function.plain (f : Function) : Function :=
  { f with blocks := ⟨f.blocks.entries.map Block.plain⟩ }

/-- A module without its comments. -/
def Module.plain (m : Module) : Module :=
  { m with functions := m.functions.map Function.plain }

/-! ## Blocks under construction -/

namespace Block

variable (b : Block) {i : Instr}

/-- Adds an instruction, unless it is a comment in a block that goes on. -/
def settle (b : Block) (i : Instr) : Block :=
  if i.isComment && !b.isTerminated then b else { b with instrs := b.instrs.push i }

/-- A block without the comments before its end. -/
def strip (b : Block) : Block :=
  b.instrs.toList.foldl settle { b with instrs := #[] }

theorem strip_push (i : Instr) :
    strip { b with instrs := b.instrs.push i } = b.strip.settle i := by
  unfold strip
  rw [Array.toList_push, List.foldl_append]
  rfl

theorem settle_code (hi : i.isComment = false) :
    b.settle i = { b with instrs := b.instrs.push i } := by
  simp [settle, hi]

theorem isTerminated_settle (b : Block) (i : Instr) : (b.settle i).isTerminated = i.isTerminator := by
  unfold settle
  split
  · next h =>
    rw [Bool.and_eq_true, Bool.not_eq_true'] at h
    cases i with
    | comment text => exact h.2
    | _ => cases h.1
  · exact Draft.isTerminated_push b i

theorem isTerminated_strip : b.strip.isTerminated = b.isTerminated := by
  obtain ⟨label, ⟨code⟩⟩ := b
  induction code using List.reverseRecOn with
  | nil => rfl
  | append_singleton before i _ =>
    have hpush : (⟨label, ⟨before ++ [i]⟩⟩ : Block) =
        { (⟨label, ⟨before⟩⟩ : Block) with instrs := (⟨before⟩ : Array Instr).push i } := by
      simp
    rw [hpush, strip_push, isTerminated_settle, Draft.isTerminated_push]

theorem label_strip : b.strip.label = b.label := by
  have hfold : ∀ (code : List Instr) (c : Block), (code.foldl settle c).label = c.label := by
    intro code
    induction code with
    | nil => exact fun _ => rfl
    | cons i rest ih =>
      intro c
      rw [List.foldl_cons, ih, settle]
      split <;> rfl
  exact hfold _ _

theorem strip_of_code (hb : ∀ i ∈ b.instrs, i.isComment = false) : b.strip = b := by
  obtain ⟨label, ⟨code⟩⟩ := b
  have hfold : ∀ (rest done : List Instr), (∀ i ∈ rest, i.isComment = false) →
      rest.foldl settle ⟨label, ⟨done⟩⟩ = ⟨label, ⟨done ++ rest⟩⟩ := by
    intro rest
    induction rest with
    | nil => simp
    | cons i rest ih =>
      intro done hrest
      rw [List.foldl_cons, settle_code _ (hrest i (.head _)), List.push_toArray,
        ih _ fun j hj => hrest j (.tail _ hj), List.append_assoc, List.singleton_append]
  exact hfold code [] fun i hi => hb i (Array.mem_def.mpr hi)

theorem strip_eq_plain {before : List Instr} {last : Instr} (hb : b.instrs.toList = before ++ [last])
    (hlast : last.isTerminator = true) (hbef : ∀ i ∈ before, i.isTerminator = false) :
    b.strip = b.plain := by
  obtain ⟨label, ⟨code⟩⟩ := b
  obtain rfl : code = before ++ [last] := hb
  have hcode : last.isComment = false := by
    cases last with
    | comment => cases hlast
    | _ => rfl
  -- before the last instruction no block is terminated, so that only comments are dropped
  have hfold : ∀ (rest done : List Instr), (∀ i ∈ rest, i.isTerminator = false) →
      (⟨label, ⟨done⟩⟩ : Block).isTerminated = false →
      rest.foldl settle ⟨label, ⟨done⟩⟩ = ⟨label, ⟨done ++ rest.filter fun i => !i.isComment⟩⟩ := by
    intro rest
    induction rest with
    | nil => simp
    | cons i rest ih =>
      intro done hrest hdone
      rw [List.foldl_cons]
      cases hi : i.isComment with
      | true =>
        have hsettle : settle ⟨label, ⟨done⟩⟩ i = ⟨label, ⟨done⟩⟩ := by simp [settle, hi, hdone]
        rw [hsettle, ih done (fun j hj => hrest j (.tail _ hj)) hdone]
        simp [hi]
      | false =>
        have hsettle : settle ⟨label, ⟨done⟩⟩ i = ⟨label, ⟨done ++ [i]⟩⟩ := by simp [settle, hi]
        have hopen := isTerminated_settle ⟨label, ⟨done⟩⟩ i
        rw [hsettle, hrest i (.head _)] at hopen
        rw [hsettle, ih (done ++ [i]) (fun j hj => hrest j (.tail _ hj)) hopen]
        simp [hi]
  show (before ++ [last]).foldl settle ⟨label, #[]⟩ = _
  rw [List.foldl_append, hfold before [] hbef rfl]
  simp [settle, plain, hcode]

end Block

/-- A function with its blocks stripped. -/
def Function.strip (f : Function) : Function :=
  { f with blocks := ⟨f.blocks.entries.map Block.strip⟩ }

/-! ## Steps of construction -/

section

variable {ε σ α : Type}

/-- What a step gives, with a change of the state that it leaves. -/
def carry (e : σ → σ) : EStateM.Result ε σ α → EStateM.Result ε σ α
  | .ok a s => .ok a (e s)
  | .error r s => .error r (e s)

end

namespace Draft

variable {α β : Type} {d : Draft}

/-- A draft with its blocks stripped. -/
def strip (d : Draft) : Draft :=
  { d with blocks := ⟨d.blocks.entries.map Block.strip⟩ }

/-- Steps that do the same to a draft whose blocks are stripped. -/
def Inert (x : Drafting α) : Prop :=
  ∀ d, x d.strip = carry strip (x d)

theorem get?_strip (d : Draft) (b : Nat) :
    d.strip.blocks.get? b = (d.blocks.get? b).map Block.strip :=
  Array.getElem?_map

namespace Inert

variable {x : Drafting α} {f : α → Drafting β}

theorem bind (hx : Inert x) (hf : ∀ a, Inert (f a)) : Inert (x >>= f) := by
  intro d
  show EStateM.bind x f d.strip = carry strip (EStateM.bind x f d)
  unfold EStateM.bind
  rw [hx d]
  cases x d with
  | ok a d' => exact hf a d'
  | error e d' => rfl

theorem look {f : Draft → Drafting β} (hsame : ∀ d, f d.strip = f d) (hf : ∀ d, Inert (f d)) :
    Inert (get >>= f) := by
  intro d
  show f d.strip d.strip = carry strip (f d d)
  rw [hsame]
  exact hf d d

theorem modify {g : Draft → Draft} (hg : ∀ d, g d.strip = (g d).strip) :
    Inert (modify g : Drafting Unit) :=
  fun d => congrArg (EStateM.Result.ok ()) (hg d)

end Inert

theorem inert_register (ty : Ty) (name : Option String) : Inert (register ty name) :=
  fun _ => rfl

theorem inert_block (label : String) : Inert (block label) := by
  intro d
  simp [block, modifyGet, MonadStateOf.modifyGet, EStateM.modifyGet, carry, strip, Table.push,
    Table.size, Block.strip]

theorem inert_parameter (ty : Ty) (name : String) : Inert (parameter ty name) :=
  .bind (inert_register ty (some name)) fun _ => .bind (.modify fun _ => rfl) fun _ _ => rfl

theorem inert_exitTry : Inert exitTry := by
  intro d
  simp only [exitTry, bind, EStateM.bind, get, getThe, MonadStateOf.get, EStateM.get]
  by_cases hd : d.tryDepth = 0
  · rw [if_pos hd, if_pos (show d.strip.tryDepth = 0 from hd)]
    rfl
  · rw [if_neg hd, if_neg (show ¬ d.strip.tryDepth = 0 from hd)]
    rfl

theorem append_eq (d : Draft) (b : Nat) (i : Instr) : append b i d =
    match d.blocks.get? b with
    | none => .error (.outOfRange b) d
    | some blk => .ok () { d with
        blocks := ⟨d.blocks.entries.setIfInBounds b { blk with instrs := blk.instrs.push i }⟩ } := by
  simp only [append, bind, EStateM.bind, get, getThe, MonadStateOf.get, EStateM.get]
  cases hget : d.blocks.get? b with
  | none => rfl
  | some blk =>
    have hb : b < d.blocks.size := (Array.getElem?_eq_some_iff.mp hget).1
    simp only [Table.set, if_pos hb]
    rfl

theorem strip_setBlock (d : Draft) (b : Nat) (blk : Block) :
    strip { d with blocks := ⟨d.blocks.entries.setIfInBounds b blk⟩ } =
      { d.strip with blocks := ⟨d.strip.blocks.entries.setIfInBounds b blk.strip⟩ } := by
  simp only [strip, Array.map_setIfInBounds]

theorem inert_append (hi : i.isComment = false) (b : Nat) :
    Inert (append b i) := by
  intro d
  rw [append_eq, append_eq, get?_strip]
  cases d.blocks.get? b with
  | none => rfl
  | some blk =>
    simp only [Option.map_some, carry]
    rw [strip_setBlock, Block.strip_push, Block.settle_code _ hi]

theorem inert_pushPrologue (hi : i.isComment = false) : Inert (pushPrologue i) :=
  .look (fun _ => rfl) fun _ => inert_append hi _

theorem push_eq (d : Draft) (i : Instr) : push i d =
    match d.blocks.get? d.current with
    | none => .error (.outOfRange d.current) d
    | some blk => if blk.isTerminated then .error .blockEnded d else append d.current i d := by
  simp only [push, bind, EStateM.bind, get, getThe, MonadStateOf.get, EStateM.get]
  cases d.blocks.get? d.current with
  | none => rfl
  | some blk =>
    dsimp only
    split <;> rfl

theorem inert_push (hi : i.isComment = false) : Inert (push i) := by
  intro d
  have hget : d.strip.blocks.get? d.strip.current = _ := get?_strip d d.current
  rw [push_eq, push_eq, hget]
  cases d.blocks.get? d.current with
  | none => rfl
  | some blk =>
    simp only [Option.map_some, Block.isTerminated_strip]
    split
    · rfl
    · exact inert_append hi d.current d

theorem strip_of_comment {text : String} {d' : Draft} (hr : push (.comment text) d = .ok () d') :
    d'.strip = d.strip := by
  rw [push_eq] at hr
  cases hget : d.blocks.get? d.current with
  | none => simp [hget] at hr
  | some blk =>
    simp only [hget] at hr
    split at hr
    · cases hr
    · next hopen =>
      rw [append_eq, hget] at hr
      obtain rfl := (EStateM.Result.ok.inj hr).2
      -- The block is stripped to what it was stripped to before, and so put back in its place.
      have hblk : Block.strip { blk with instrs := blk.instrs.push (.comment text) } = blk.strip := by
        rw [Block.strip_push, Block.settle, Block.isTerminated_strip]
        simp [Instr.isComment, hopen]
      have hsame := get?_strip d d.current
      rw [hget] at hsame
      rw [strip_setBlock, hblk]
      have hput : d.strip.blocks.entries.setIfInBounds d.current blk.strip = d.strip.blocks.entries := by
        obtain ⟨hlt, heq⟩ := Array.getElem?_eq_some_iff.mp hsame
        rw [← heq, Array.setIfInBounds, dif_pos hlt, Array.set_getElem_self]
      rw [hput]

/-! ## The beginning and the end of a function -/

theorem strip_start (symbol : String) (result : Ty) :
    (start symbol result).strip = start symbol result := by
  have hblks : (start symbol result).blocks.entries.map Block.strip =
      (start symbol result).blocks.entries := by
    rw [← Array.toList_inj, Array.toList_map]
    cases result <;> rfl
  unfold strip
  rw [hblks]

/-- The prologue is ended, and the code of the exit is made. -/
def conclude : Drafting (Array Instr) := do
  pushPrologue (.jump (← get).body)
  exitInstrs

theorem inert_conclude : Inert conclude := by
  have hexit : Inert exitInstrs := by
    refine .look (fun _ => rfl) fun d => ?_
    dsimp only
    split
    · exact .bind (inert_register .value none) fun _ _ => rfl
    · exact fun _ => rfl
    · exact fun _ => rfl
  exact .look (fun _ => rfl) fun _ => .bind (inert_pushPrologue rfl) fun _ => hexit

theorem yields_conclude (d : Draft) :
    Yields conclude d fun code _ => ∀ i ∈ code, i.isComment = false := by
  refine .get_bind (.bind (R := fun _ _ => True) (fun _ _ _ => trivial) fun _ d _ => .get_bind ?_)
  have hpops : ∀ i ∈ (if d.rootCount = 0 then #[]
      else #[.call none .void (.entry .popRoots) [.i32 d.rootCount]] : Array Instr),
      i.isComment = false := by
    split <;> simp [Instr.isComment]
  dsimp only
  generalize (if d.rootCount = 0 then #[] else _ : Array Instr) = pops at hpops
  split
  · refine .bind (R := fun _ _ => True) (fun _ _ _ => trivial) fun r _ _ => .pure fun i hi => ?_
    rcases Array.mem_append.mp hi with hi | hi
    · exact hpops i hi
    · simp at hi
      rcases hi with rfl | rfl <;> rfl
  all_goals
    refine .pure fun i hi => ?_
    rcases Array.mem_push.mp hi with hi | rfl
    · exact hpops i hi
    · rfl

theorem strip_sealBlock (b : Block) : (sealBlock b).strip = sealBlock b.strip := by
  unfold sealBlock
  rw [Block.isTerminated_strip]
  split
  · rfl
  · rw [Block.strip_push, Block.settle_code _ rfl]

theorem finish_eq (d : Draft) : finish d =
    match conclude d with
    | .error e d' => .error e d'
    | .ok code d' =>
      match d'.blocks.get? d'.exit with
      | none => .error (.outOfRange d'.exit) d'
      | some blk => .ok {
          symbol := d'.symbol
          result := d'.result
          parameters := d'.parameters
          registers := d'.registers
          blocks := ⟨(d'.blocks.entries.setIfInBounds d'.exit
            { blk with instrs := code }).map sealBlock⟩ } d' := by
  simp only [finish, conclude, bind, EStateM.bind, get, getThe, MonadStateOf.get, EStateM.get]
  cases pushPrologue (.jump d.body) d with
  | error e d' => rfl
  | ok _ d1 =>
    dsimp only
    cases exitInstrs d1 with
    | error e d' => rfl
    | ok code d' =>
      dsimp only
      cases hget : d'.blocks.get? d'.exit with
      | none => rfl
      | some blk =>
        have hb : d'.exit < d'.blocks.size := (Array.getElem?_eq_some_iff.mp hget).1
        simp only [Table.set, if_pos hb]
        rfl

theorem finish_strip (d : Draft) : finish d.strip =
    match finish d with
    | .ok f d' => .ok f.strip d'.strip
    | .error e d' => .error e d'.strip := by
  rw [finish_eq, finish_eq, inert_conclude d]
  cases hr : conclude d with
  | error e d' => rfl
  | ok code d' =>
    have hcode := yields_conclude d code d' hr
    have hget : d'.strip.blocks.get? d'.strip.exit = _ := get?_strip d' d'.exit
    simp only [carry]
    rw [hget]
    cases d'.blocks.get? d'.exit with
    | none => rfl
    | some blk =>
      have hexit : sealBlock { blk.strip with instrs := code } =
          (sealBlock { blk with instrs := code }).strip := by
        rw [strip_sealBlock, Block.strip_of_code ⟨blk.label, code⟩ hcode]
        exact congrArg (fun label => sealBlock ⟨label, code⟩) blk.label_strip
      have hseal : Block.strip ∘ sealBlock = sealBlock ∘ Block.strip := funext strip_sealBlock
      simp only [Option.map_some, Function.strip, strip, Array.map_setIfInBounds, Array.map_map, hseal,
        hexit]

end Draft

end Ember.Ir
