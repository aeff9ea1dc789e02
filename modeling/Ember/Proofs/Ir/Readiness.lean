import Ember.Proofs.Ir.Drafting

/-!
# Ember — drafts that can be written on

The operations of a draft fail where the construction is misused: where an instruction would follow
the end of its block, a block does not exist, a call has no result, or no region is open. A draft is
ready where none of this can happen: its current block is open, and so are the blocks that are
reserved for later. Every operation succeeds on a ready draft and leaves it ready.

Main results: `succeeds_emitReturn`, `succeeds_finish`.
-/

namespace Ember

/-- A computation ends well, with a result and a state. -/
def Succeeds {ε σ α : Type} (x : EStateM ε σ α) (s : σ) (Q : α → σ → Prop) : Prop :=
  ∃ a s', x s = .ok a s' ∧ Q a s'

namespace Succeeds

variable {ε σ α β : Type} {s : σ}

theorem mono {x : EStateM ε σ α} {Q R : α → σ → Prop} (hx : Succeeds x s Q)
    (hQ : ∀ a s', Q a s' → R a s') : Succeeds x s R := by
  obtain ⟨a, s', heq, ha⟩ := hx
  exact ⟨a, s', heq, hQ a s' ha⟩

theorem pure {a : α} {Q : α → σ → Prop} (ha : Q a s) : Succeeds (Pure.pure a : EStateM ε σ α) s Q :=
  ⟨a, s, rfl, ha⟩

theorem bind {x : EStateM ε σ α} {f : α → EStateM ε σ β} {R : α → σ → Prop} {Q : β → σ → Prop}
    (hx : Succeeds x s R) (hf : ∀ a s', R a s' → Succeeds (f a) s' Q) : Succeeds (x >>= f) s Q := by
  obtain ⟨a, s1, heq, ha⟩ := hx
  obtain ⟨b, s2, heq', hb⟩ := hf a s1 ha
  refine ⟨b, s2, ?_, hb⟩
  simp only [Bind.bind, EStateM.bind, heq, heq']

theorem get_bind {f : σ → EStateM ε σ β} {Q : β → σ → Prop} (hf : Succeeds (f s) s Q) :
    Succeeds (MonadState.get >>= f) s Q :=
  hf

theorem set {s' : σ} {Q : PUnit → σ → Prop} (hs : Q ⟨⟩ s') :
    Succeeds (MonadState.set s' : EStateM ε σ PUnit) s Q :=
  ⟨⟨⟩, s', rfl, hs⟩

theorem modifyGet {f : σ → α × σ} {Q : α → σ → Prop} (hs : Q (f s).1 (f s).2) :
    Succeeds (MonadState.modifyGet f : EStateM ε σ α) s Q :=
  ⟨_, _, rfl, hs⟩

end Succeeds

end Ember

namespace Ember.Ir.Draft

variable {callee : Callee} {make : Nat → Instr}

variable {d : Draft} {R : List Nat} {t : Nat} {l : List LoopTargets} {i : Instr} {b : Nat}

/-- A block that exists and goes on. -/
def Open (d : Draft) (b : Nat) : Prop :=
  ∃ blk, d.blocks.get? b = some blk ∧ blk.isTerminated = false

/-- A draft that can be written on, where the blocks `reserved` are to be written later, so many
regions are open, and these loops enclose what is written. -/
structure Ready (reserved : List Nat) (tries : Nat) (loops : List LoopTargets) (d : Draft) : Prop where
  distinct : (d.current :: reserved).Nodup
  isOpen : ∀ b ∈ d.current :: reserved, d.Open b
  prologue : d.prologue < d.blocks.size
  exit : d.exit < d.blocks.size
  tries : d.tryDepth = tries
  loops : d.loops = loops

theorem Open.lt (hb : d.Open b) : b < d.blocks.size := by
  obtain ⟨blk, hblk, -⟩ := hb
  exact (Array.getElem?_eq_some_iff.mp hblk).1

theorem succeeds_append (hb : b < d.blocks.size) (i : Instr) :
    Succeeds (append b i) d fun _ d' => ∃ blk blocks, d.blocks.get? b = some blk ∧
      d' = { d with blocks } ∧ blocks.size = d.blocks.size ∧
      ∀ b', blocks.get? b' =
        if b' = b then some { blk with instrs := blk.instrs.push i } else d.blocks.get? b' := by
  refine .get_bind ?_
  have hblk : d.blocks.get? b = some d.blocks.entries[b] := Array.getElem?_eq_getElem hb
  rw [hblk]
  simp only
  unfold Table.set
  rw [if_pos hb]
  refine .set ⟨_, _, rfl, rfl, Array.size_setIfInBounds .., fun b' => ?_⟩
  unfold Table.get?
  rw [Array.getElem?_setIfInBounds]
  have hlt : b < d.blocks.entries.size := hb
  by_cases heq : b' = b
  · rw [if_pos heq.symm, if_pos heq, if_pos hlt]
  · rw [if_neg (Ne.symm heq), if_neg heq]

theorem isTerminated_push (blk : Block) (i : Instr) :
    Block.isTerminated { blk with instrs := blk.instrs.push i } = i.isTerminator := by
  unfold Block.isTerminated
  rw [Array.back?_push]
  rfl

section

variable (hd : d.Ready R t l)

include hd

theorem Ready.append (hb : b < d.blocks.size) (hi : i.isTerminator = false) :
    Succeeds (append b i) d fun _ d' => d'.Ready R t l := by
  refine (succeeds_append hb i).mono ?_
  rintro _ _ ⟨blk, blocks, hblk, rfl, hsize, hget⟩
  refine { hd with isOpen := fun b' hb' => ?_, prologue := hsize ▸ hd.prologue, exit := hsize ▸ hd.exit }
  obtain ⟨blk', hblk', hopen⟩ := hd.isOpen b' hb'
  by_cases heq : b' = b
  · exact ⟨_, (hget b').trans (if_pos heq), (isTerminated_push blk i).trans hi⟩
  · exact ⟨blk', (hget b').trans ((if_neg heq).trans hblk'), hopen⟩

theorem Ready.push (hi : i.isTerminator = false) :
    Succeeds (push i) d fun _ d' => d'.Ready R t l := by
  obtain ⟨blk, hblk, hopen⟩ := hd.isOpen d.current (.head _)
  refine .get_bind ?_
  rw [hblk]
  simp only [hopen, Bool.false_eq_true, if_false]
  exact hd.append (Open.lt ⟨blk, hblk, hopen⟩) hi

theorem Ready.pushPrologue (hi : i.isTerminator = false) :
    Succeeds (pushPrologue i) d fun _ d' => d'.Ready R t l :=
  .get_bind (hd.append hd.prologue hi)

theorem Ready.register (ty : Ty) (name : Option String) :
    Succeeds (register ty name) d fun _ d' => d'.Ready R t l :=
  .modifyGet { hd with }

theorem Ready.parameter (ty : Ty) (name : String) :
    Succeeds (parameter ty name) d fun _ d' => d'.Ready R t l :=
  (hd.register ty (some name)).bind fun _ _ hd =>
    Succeeds.bind (R := fun _ d' => d'.Ready R t l) (.modifyGet { hd with }) fun _ _ hd => .pure hd

theorem Ready.block (label : String) :
    Succeeds (block label) d fun b d' => d'.Ready (b :: R) t l := by
  have hsize : (d.blocks.push { label }).size = d.blocks.size + 1 := Table.size_push ..
  have hold : ∀ b ∈ d.current :: R, b < d.blocks.size := fun b hb => (hd.isOpen b hb).lt
  refine .modifyGet { hd with distinct := ?_, isOpen := ?_, prologue := ?_, exit := ?_ }
  · have hdist := List.nodup_cons.mp hd.distinct
    refine List.nodup_cons.mpr ⟨?_, List.nodup_cons.mpr ⟨fun hmem => ?_, hdist.2⟩⟩
    · rw [List.mem_cons]
      rintro (heq | hmem)
      · exact absurd (hold _ (.head _)) (heq ▸ Nat.lt_irrefl _)
      · exact hdist.1 hmem
    · exact Nat.lt_irrefl _ (hold _ (.tail _ hmem))
  · have hopen : ∀ b ∈ d.current :: R, Open { d with blocks := d.blocks.push { label } } b := by
      intro b hb
      obtain ⟨blk, hblk, hopen⟩ := hd.isOpen b hb
      refine ⟨blk, ?_, hopen⟩
      show (d.blocks.push { label }).get? b = some blk
      rw [Table.get?_push, if_neg (Nat.ne_of_lt (hold b hb)), hblk]
    intro b hb
    rcases List.mem_cons.mp hb with rfl | hb
    · exact hopen _ (.head _)
    · rcases List.mem_cons.mp hb with rfl | hb
      · refine ⟨{ label }, ?_, rfl⟩
        show (d.blocks.push { label }).get? d.blocks.size = _
        rw [Table.get?_push, if_pos rfl]
      · exact hopen _ (.tail _ hb)
  · exact hsize ▸ Nat.lt_succ_of_lt hd.prologue
  · exact hsize ▸ Nat.lt_succ_of_lt hd.exit

end

theorem Ready.moveTo (R1 : List Nat) (b : Nat) (R2 : List Nat) (hd : d.Ready (R1 ++ b :: R2) t l) :
    Succeeds (moveTo b) d fun _ d' => d'.Ready (R1 ++ R2) t l := by
  have hperm : (R1 ++ b :: R2).Perm (b :: (R1 ++ R2)) := List.perm_middle
  refine .modifyGet { hd with distinct := ?_, isOpen := fun b' hb' => ?_ }
  · exact hperm.nodup_iff.mp (List.nodup_cons.mp hd.distinct).2
  · exact hd.isOpen b' (.tail _ (hperm.mem_iff.mpr hb'))

section

variable (hd : d.Ready R t l)

include hd

theorem Ready.terminate (hi : i.isTerminator = true) :
    Succeeds (terminate i) d fun _ d' => d'.Ready R t l := by
  obtain ⟨blk, hblk, hopen⟩ := hd.isOpen d.current (.head _)
  have hlt : d.current < d.blocks.size := Open.lt ⟨blk, hblk, hopen⟩
  unfold Draft.terminate
  rw [if_pos hi]
  have hpush : Succeeds (Draft.push i) d fun _ d' => ∃ blocks, d' = { d with blocks } ∧
      blocks.size = d.blocks.size ∧ ∀ b ∈ R, blocks.get? b = d.blocks.get? b := by
    refine .get_bind ?_
    rw [hblk]
    simp only [hopen, Bool.false_eq_true, if_false]
    refine (succeeds_append hlt i).mono ?_
    rintro _ _ ⟨blk, blocks, -, rfl, hsize, hget⟩
    refine ⟨blocks, rfl, hsize, fun b hb => (hget b).trans (if_neg ?_)⟩
    rintro rfl
    exact (List.nodup_cons.mp hd.distinct).1 hb
  refine hpush.bind ?_
  rintro _ _ ⟨blocks, rfl, hsize, hget⟩
  have hnew : (blocks.push { label := "dead" }).size = d.blocks.size + 1 := by
    rw [Table.size_push, hsize]
  refine Succeeds.bind (R := fun b d' => b = blocks.size ∧
    d' = { d with blocks := blocks.push { label := "dead" } }) (.modifyGet ⟨rfl, rfl⟩) ?_
  rintro _ _ ⟨rfl, rfl⟩
  have hold : ∀ b ∈ R, b < d.blocks.size := fun b hb =>
    (hd.isOpen b (.tail _ hb)).lt
  refine .modifyGet ⟨?_, fun b hb => ?_, ?_, ?_, hd.tries, hd.loops⟩
  · refine List.nodup_cons.mpr ⟨fun hmem => ?_, (List.nodup_cons.mp hd.distinct).2⟩
    exact absurd (hold _ hmem) (hsize ▸ Nat.lt_irrefl _)
  · show Open { d with blocks := blocks.push { label := "dead" }, current := blocks.size } b
    rcases List.mem_cons.mp hb with rfl | hb
    · exact ⟨{ label := "dead" }, (Table.get?_push ..).trans (if_pos rfl), rfl⟩
    · obtain ⟨blk, hblk, hopen⟩ := hd.isOpen b (.tail _ hb)
      refine ⟨blk, (Table.get?_push ..).trans ?_, hopen⟩
      rw [if_neg (hsize ▸ Nat.ne_of_lt (hold b hb)), hget b hb, hblk]
  · exact hnew ▸ Nat.lt_succ_of_lt hd.prologue
  · exact hnew ▸ Nat.lt_succ_of_lt hd.exit

/-! ## Instructions -/

theorem Ready.fresh (ty : Ty) (name : Option String) (hmake : ∀ r, (make r).isTerminator = false) :
    Succeeds (do let r ← Draft.register ty name; Draft.push (make r); return r) d fun _ d' =>
      d'.Ready R t l :=
  (hd.register ty name).bind fun r _ hd => (hd.push (hmake r)).bind fun _ _ hd => .pure hd

theorem Ready.callFor (hres : callee.result ≠ .void) (arguments : List Typed) :
    Succeeds (callFor callee arguments) d fun _ d' => d'.Ready R t l := by
  rw [callFor_eq hres]
  exact hd.fresh _ _ fun _ => rfl

theorem Ready.callVoid (hres : callee.result = .void) (arguments : List Typed) :
    Succeeds (callVoid callee arguments) d fun _ d' => d'.Ready R t l := by
  rw [callVoid_eq hres]
  exact hd.push rfl

theorem Ready.storage (ty : Ty) (name : Option String)
    (hmake : ∀ r, (make r).isTerminator = false) :
    Succeeds (do let r ← Draft.register ty name; Draft.pushPrologue (make r); return r) d fun _ d' =>
      d'.Ready R t l :=
  (hd.register ty name).bind fun r _ hd => (hd.pushPrologue (hmake r)).bind fun _ _ hd => .pure hd

theorem Ready.slot (name : Option String) :
    Succeeds (do let slot ← Draft.register .ptr name; rootSlot slot; return slot) d fun _ d' =>
      d'.Ready R t l := by
  refine (hd.register .ptr name).bind fun r _ hd => ?_
  refine Succeeds.bind (R := fun _ d' => d'.Ready R t l) ?_ fun _ _ hd => .pure hd
  refine (hd.pushPrologue rfl).bind fun _ _ hd => ?_
  refine (hd.pushPrologue rfl).bind fun _ _ hd => ?_
  refine Succeeds.bind (x := registerRoot (.reg r)) (hd.pushPrologue rfl) fun _ _ hd => ?_
  exact .modifyGet { hd with }

theorem Ready.counter (initial : Operand) :
    Succeeds (counter initial) d fun _ d' => d'.Ready R t l :=
  (hd.storage .ptr none fun _ => rfl).bind fun _ _ hd => (hd.push rfl).bind fun _ _ hd => .pure hd

theorem Ready.advance (counter : Nat) (amount : Operand) :
    Succeeds (advance counter amount) d fun _ d' => d'.Ready R t l :=
  (hd.fresh .i64 none fun _ => rfl).bind fun _ _ hd =>
    (hd.fresh .i64 none fun _ => rfl).bind fun _ _ hd => hd.push rfl

end

/-! ## Loops, regions and returns -/

theorem Ready.popTries (n : Nat) (hd : d.Ready R t l) :
    Succeeds (popTries n) d fun _ d' => d'.Ready R t l := by
  induction n generalizing d with
  | zero => exact .pure hd
  | succ n ih => exact (hd.callVoid rfl []).bind fun _ _ hd => ih hd

theorem Ready.unwindTriesTo (hd : d.Ready R t l) (depth : Nat) :
    Succeeds (unwindTriesTo depth) d fun _ d' => d'.Ready R t l :=
  .get_bind (hd.popTries _)

theorem Ready.emitReturn (hd : d.Ready R t l) (value : Option Nat) :
    Succeeds (emitReturn value) d fun _ d' => d'.Ready R t l := by
  refine (hd.unwindTriesTo 0).bind fun _ d1 hd1 => .get_bind ?_
  split
  · exact (hd1.push rfl).bind fun _ _ hd => hd.terminate rfl
  · exact hd1.terminate rfl

theorem Ready.exitTry (hd : d.Ready R (t + 1) l) :
    Succeeds exitTry d fun _ d' => d'.Ready R t l := by
  refine .get_bind ?_
  rw [hd.tries, if_neg (Nat.succ_ne_zero t)]
  exact .set { hd with tries := rfl }

/-! ## Beginning and end -/

theorem ready_start (symbol : String) {result : Ty} (hres : result = .value ∨ result = .i32) :
    (start symbol result).Ready [] 0 [] := by
  rcases hres with rfl | rfl <;>
  · refine ⟨List.nodup_singleton _, fun b hb => ?_, show 0 < 3 by decide, show 2 < 3 by decide, rfl, rfl⟩
    rw [List.mem_singleton.mp hb]
    exact ⟨_, rfl, rfl⟩

theorem succeeds_exitInstrs (d : Draft) : Succeeds exitInstrs d fun _ d' =>
    ∃ registers, d' = { d with registers } := by
  refine .get_bind ?_
  dsimp only
  split
  · exact Succeeds.bind (R := fun _ d' => ∃ registers, d' = { d with registers })
      (.modifyGet ⟨_, rfl⟩) fun _ _ h => .pure h
  · exact .pure ⟨_, rfl⟩
  · exact .pure ⟨_, rfl⟩

theorem Ready.finish (hd : d.Ready R t l) : Succeeds finish d fun _ _ => True := by
  refine .get_bind ?_
  refine Succeeds.bind (R := fun _ d' => d'.exit < d'.blocks.size) ?_ fun _ d1 hexit => ?_
  · refine Succeeds.get_bind ((succeeds_append hd.prologue _).mono ?_)
    rintro _ _ ⟨blk, blocks, -, rfl, hsize, -⟩
    exact hsize ▸ hd.exit
  refine (succeeds_exitInstrs d1).bind ?_
  rintro code _ ⟨registers, rfl⟩
  refine .get_bind ?_
  have hblk : d1.blocks.get? d1.exit = some d1.blocks.entries[d1.exit] := Array.getElem?_eq_getElem hexit
  simp only [hblk]
  unfold Table.set
  rw [if_pos hexit]
  exact .pure trivial

end Ember.Ir.Draft
