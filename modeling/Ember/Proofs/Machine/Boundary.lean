import Ember.Proofs.Machine.Regions

/-!
# Ember — prologues and exits, side by side

The prologue of a function makes its storage and registers its slots, and in `main` those of the whole
program. The exit unregisters the slots of the function and hands its result to what waits for it.

Main result: `leaving_together`.
-/

namespace Ember.Machine

open Ir (Role Convention Cert Context Instr Operand Typed Ty Assigns pushes trailOf Opens
  EntryPoint)

variable {k : Convention} {l : List Instr} {count j n r : Nat} {o : Operand} {ρ : Role}
  {stack : RootStack} {ty : Ty}

variable {W : World} {v : View} {a : Activation} {h1 h2 g1 g2 : Host} {spare : List Nat}
  {rest : List Entry} {x : Context} {before : List Instr} {i : Instr} {roots seg : List Nat}
  {cps : List Checkpoint} {d : Nat} {S : Machine → Prop}

/-! ## Storage -/

theorem Standing.opens (hs : Standing W a x before i)
    (hc : a.routine.function.Certified W.interface W.globals (W.kind a) (W.cert a)) (hb : a.block = 0) :
    (i = .jump 1 ∧ before = a.routine.function.prologue) ∨
      Opens W.globals (W.kind a) (W.cert a) before i ∧ i :: before <:+ a.routine.function.prologue := by
  have hsuf := hs.suffix
  rw [hb, hc.enters] at hsuf
  rcases List.suffix_cons_iff.mp hsuf with heq | hsuf
  · exact .inl (List.cons.inj heq)
  · exact .inr ⟨hc.opens.of_suffix hsuf, hsuf⟩

theorem exists_dest_of_mem_pushes {G : List String} {c : Cert}
    (hl : Ir.Checked (Opens G k c) l) (hr : .reg r ∈ pushes l) : ∃ j ∈ l, destOf j = some r := by
  induction l with
  | nil => exact absurd hr List.not_mem_nil
  | cons j l ih =>
    obtain ⟨hj, hl⟩ := hl
    unfold pushes at hr
    obtain ⟨j', hj', hpush⟩ := List.mem_filterMap.mp hr
    rcases List.mem_cons.mp hj' with rfl | hj'
    · cases hj with
      | root role cleared =>
        cases hpush
        refine ⟨.alloca _ .value 1, List.mem_cons_of_mem _ ?_, rfl⟩
        rw [cleared]
        simp
      | globalRoot main declared => cases Option.some.inj hpush
      | slots | cell | clear | gcInit | bottom | setArgs => cases hpush
    · obtain ⟨q, hq, hdest⟩ := ih hl (List.mem_filterMap.mpr ⟨j', hj', hpush⟩)
      exact ⟨q, .tail _ hq, hdest⟩

theorem Points.fresh (hpts : Points W a (pushes before).reverse seg)
    (hopens : Ir.Checked (Opens W.globals (W.kind a) (W.cert a)) before)
    (hd : d < a.registers.size) (hfresh : ∀ j ∈ before, destOf j ≠ some d) (s : Scalar) :
    Points W (a.put d s).next (pushes before).reverse seg := by
  refine hpts.congr fun r hr => ?_
  show (a.put d s).registers[r]? = _
  rw [Activation.getElem?_put hd, if_neg]
  rintro rfl
  obtain ⟨j, hj, hdest⟩ := exists_dest_of_mem_pushes hopens (List.mem_reverse.mp hr)
  exact hfresh j hj hdest

theorem Opening.skip (ha : Opening W v a before) (hclear : ∀ d, i ≠ .clear d)
    (hcell : ∀ d ty, i ≠ .alloca d ty 1) : Opening W v a.next (i :: before) where
  arguments := ha.arguments
  cleared d _ heq := absurd (List.cons.inj heq).1 (hclear d)
  celled d ty _ heq _ := absurd (List.cons.inj heq).1 (hcell d ty)
  globals := ha.globals

theorem ArgumentsLive.storage (ha : ArgumentsLive W v a) (hd : d < a.registers.size)
    (hrole : (W.cert a).HasRole d ρ) (hρ : ρ.isStorage) (s : Scalar) :
    ArgumentsLive W v (a.put d s).next := by
  refine ha.put hd fun σ slots offset hσ hargument => ?_
  obtain rfl := hrole.unique hσ
  rcases hargument with rfl | ⟨n, rfl⟩ <;> cases hρ

theorem holds_slots {size base cells : Nat} (hρ : ρ.slots? = some n) {slots : Array Nat}
    (hsize : slots.size = n) (hslt : ∀ j ∈ slots, j < size) :
    ρ.isStorage ∧ Holds W size base cells ρ (.ptr (.values slots 0)) := by
  have hone : n = 1 → ∃ j, Scalar.ptr (.values slots 0) = .ptr (.values #[j] 0) ∧ j < size := by
    intro hn
    obtain ⟨j, rfl⟩ := Array.size_eq_one_iff.mp (hsize.trans hn)
    exact ⟨j, rfl, hslt j (by simp)⟩
  cases ρ with
  | slot => exact ⟨rfl, hone (Option.some.inj hρ).symm⟩
  | result => exact ⟨rfl, hone (Option.some.inj hρ).symm⟩
  | buffer m => exact ⟨rfl, slots, rfl, hsize.trans (Option.some.inj hρ).symm, hslt⟩
  | _ => cases hρ

theorem lookup_first {f : Ir.Function} (hf : Ir.Single f.registers.size f.parameters f.blocks)
    (hty : ty ≠ .value) (htrail : trailOf f.blocks 0 = l ++ [.alloca d ty 1, .gcInit]) :
    (Layout.of f).cells.lookup d = some 0 := by
  obtain ⟨block, blocks, hblks⟩ : ∃ block blocks, f.blocks.toList = block :: blocks := by
    cases hlist : f.blocks.toList with
    | cons block blocks => exact ⟨block, blocks, rfl⟩
    | nil =>
      have hsize : f.blocks.size ≤ 0 := by
        rw [Table.size, ← Array.length_toList]
        exact Nat.le_of_eq (congrArg List.length hlist)
      rw [Ir.trailOf_of_size_le hsize] at htrail
      simp at htrail
  rw [Ir.trail_of_getElem? (show f.blocks.toList[0]? = some block by rw [hblks]; rfl),
    List.reverse_eq_iff] at htrail
  have hinstrs : f.instrs = [.gcInit] ++ .alloca d ty 1 ::
      (l.reverse ++ blocks.flatMap fun b => b.instrs.toList) := by
    unfold Ir.Function.instrs
    rw [hblks, List.flatMap_cons, htrail]
    simp
  refine Layout.first_cell hinstrs hty ?_ fun ty' count hmem => ?_
  · intro j hj d' ty' count
    obtain rfl := List.mem_singleton.mp hj
    exact fun h => by cases h
  · -- a second allocation for the same register would be a second writer
    have hnd := (List.nodup_append'.mp hf.nodup_writes).2.1
    rw [hinstrs, List.filterMap_append] at hnd
    have hnot := (List.nodup_cons.mp (List.nodup_append'.mp hnd).2.1).1
    exact (hnot (List.mem_filterMap.mpr ⟨_, hmem, rfl⟩)).elim

/-! ## Roots -/

theorem Ground.withRoots (hg : Ground W h1 h2 spare (.body a :: rest))
    (hcap : stack.slots.size ≤ stack.capacity ∧ stack.capacity < 0x2000000000000000)
    (hrooted : ∀ j ∈ stack.slots, SlotLive (W.view h1 h2) j) :
    Ground W { h1 with roots := stack } { h2 with roots := stack } spare (.body a :: rest) := by
  refine ⟨?_, hg.bottom, hcap, hrooted, hg.tenure⟩
  exact hg.twin.change ⟨rfl, rfl, rfl, rfl⟩ ⟨rfl, rfl, rfl, rfl⟩ hg.twin.slots rfl hg.twin.stack
    hg.twin.checkpoints hg.twin.arguments (fun j hj => (hrooted j hj).lt) hg.bottom

theorem Ground.withArguments (hg : Ground W h1 h2 spare (.body a :: rest)) (arguments : List String) :
    Ground W { h1 with arguments } { h2 with arguments } spare (.body a :: rest) := by
  refine ⟨?_, hg.bottom, hg.capacity, hg.rooted, hg.tenure⟩
  exact hg.twin.change ⟨rfl, rfl, rfl, rfl⟩ ⟨rfl, rfl, rfl, rfl⟩ hg.twin.slots hg.twin.roots
    hg.twin.stack hg.twin.checkpoints rfl (fun j hj => (hg.rooted j hj).lt) hg.bottom

theorem pushes_pushRoot (o : Operand) (l : List Instr) : pushes (.pushRoot o :: l) = o :: pushes l :=
  rfl

theorem typed_of_pointerOperand {image : Image} {p : Pointer}
    (ho : a.pointerOperand image o = .ok p) : a.typed image ⟨.ptr, o⟩ = .ok (.ptr p) := by
  have htyped : a.typed image ⟨.ptr, o⟩ = a.operand image o := by
    unfold Activation.typed
    split <;> first | rfl | (next h _ => cases h)
  rw [htyped]
  unfold Activation.pointerOperand at ho
  cases hs : a.operand image o with
  | error f =>
    rw [hs] at ho
    cases ho
  | ok s =>
    rw [hs] at ho
    cases s with
    | ptr q =>
      cases ho
      rfl
    | _ => cases ho

theorem plain_together (hW : W.Sound) (hp : Posture W h1 h2 a rest x before i roots seg cps 0)
    (hi : i.isTerminator = false) (hdest : destOf i = none) {effect : Effect}
    (heffect : effect = .next ∨ effect = .answer .void)
    (hperform1 : perform W.image a i h1 = .ok effect g1)
    (hperform2 : perform W.image a i h2 = .ok effect g2)
    (hgrd : Ground W g1 g2 spare (.body a :: rest))
    (hpost : Posture W g1 g2 a rest x before i roots seg cps 0)
    (hplace : Place W (W.view g1 g2) a.next x (i :: before) cps.length seg 0)
    (hS : ∀ m, m.host.checkpoints = g1.checkpoints → S m) :
    StepTogether W S h1 h2 spare a rest := by
  refine perform_together hp.standing hperform1 hperform2 ?_
  have hnext := next_together hW hgrd hpost hi hdest hplace hS
  rw [hdest]
  rcases heffect with rfl | rfl
  · exact hnext
  · exact hnext

section

variable {e : EntryPoint} {ss : List Scalar} {action : Act Unit} {image : Image} {g h : Host}

theorem callEntry_void (haccepts : accepts e ss = true) (hvoid : e.result = .void)
    (hbody : callBody image e ss = answerVoid action) (haction : action h = .ok () g) :
    callEntry image e ss h = .ok (.answer .void) g := by
  have hanswered : answered e (.answer .void) = pure (.answer .void) := by
    unfold answered
    rw [hvoid]
    rfl
  have hanswer : answerVoid action h = .ok (.answer .void) g := Host.bind_ok haction
  unfold callEntry
  rw [if_pos haccepts, hbody, Host.bind_ok hanswer]
  exact congrFun hanswered g

theorem callEntry_interrupted {interrupt : Interrupt} (haccepts : accepts e ss = true)
    (hbody : callBody image e ss = answerVoid action) (haction : action h = .error interrupt g) :
    callEntry image e ss h = .error interrupt g := by
  have hanswer : answerVoid action h = .error interrupt g := Host.bind_error haction
  unfold callEntry
  rw [if_pos haccepts, hbody, Host.bind_error hanswer]

theorem pushRoot_ok (hpush : h.roots.push j = .ok stack) :
    Host.pushRoot j h = .ok () { h with roots := stack } := by
  unfold Host.pushRoot
  rw [Host.get_bind, hpush]
  rfl

theorem pushRoot_error {f : FatalError} (hpush : h.roots.push j = .error f) :
    Host.pushRoot j h = .error (.fatal f) h := by
  unfold Host.pushRoot
  rw [Host.get_bind, hpush]
  rfl

theorem popRoots_ok (hpop : h.roots.pop n = .ok stack) :
    Host.popRoots n h = .ok () { h with roots := stack } := by
  unfold Host.popRoots
  rw [Host.get_bind, hpop]
  rfl

end

section

variable (hW : W.Sound) (hg : Ground W h1 h2 spare (.body a :: rest))
  (hp : Posture W h1 h2 a rest x before i roots seg cps 0) (hb : a.block = 0)
  (hpts : Points W a (pushes before).reverse seg) (hresm : a.resumes = [])
  (hopng : Opening W (W.view h1 h2) a before)
  (hopens : Ir.Checked (Opens W.globals (W.kind a) (W.cert a)) before)
  (hS : ∀ m, m.host.checkpoints = h1.checkpoints → S m)

include hW hg hp hb hpts hresm hopng hS

include hopens

theorem slots_together (hi : i = .alloca d .value n) (hrole : (W.cert a).HasRole d ρ)
    (hsize : ρ.slots? = some n) (hfresh : ∀ j ∈ before, destOf j ≠ some d) :
    StepTogether W S h1 h2 spare a rest := by
  obtain ⟨added, spare', slots, htake, hadded, hlv, hrest', hdrawn⟩ :=
    takeSlots_eq (live_default W h1 h2) n #[] fun _ => hg.tenure.spare_lt
  rw [Array.empty_append] at htake
  have hin : ∀ j ∈ added, j < slots.size := by
    intro j hj
    obtain ⟨y, hy, -⟩ := hlv j hj
    exact (Array.getElem?_eq_some_iff.mp hy).1
  have hpost := hp.withSlots hW hg hrest'
  -- the slots that were taken belong to the activation until it returns
  let b : Activation := { a with owned := a.owned ++ added }
  have hgrd : Ground W { h1 with slots } { h2 with slots } spare' (.body b :: rest) :=
    { hg.withSlots hrest' with tenure := hg.tenure.allot hdrawn hrest'.size }
  have hpost : Posture W { h1 with slots } { h2 with slots } b rest x before i roots seg cps 0 := by
    have hfr := hpost.frame
    have hstanding := hpost.standing
    exact ⟨hpost.below, ⟨hfr.routine, hfr.size, hfr.roles, hfr.values⟩, hp.main, hp.depth,
      hp.slots, hp.checkpoints, hp.resumes.mono rfl fun _ h => h,
      ⟨hstanding.suffix, hstanding.position, hstanding.context, hstanding.known⟩⟩
  obtain ⟨hstor, hholds⟩ : ρ.isStorage ∧ Holds W slots.size b.base
      (Layout.cellCount b.routine.function) ρ (.ptr (.values added 0)) :=
    holds_slots hsize hadded hin
  obtain ⟨j, hnext⟩ := hpost.put hW hgrd (hi ▸ rfl) (d := d) (hi ▸ rfl) hrole hholds nofun
  have hlt := hpost.frame.lt_size hW hrole
  have hslt : ∀ j, SlotLive (W.view h1 h2) j →
      SlotLive (W.view { h1 with slots } { h2 with slots }) j := by
    rintro j ⟨y, hy, hy'⟩
    exact hrest'.live j y hy hy'
  have hopening' := hopng.mono hslt
  have hplace : Place W (W.view { h1 with slots } { h2 with slots })
      (b.put d (.ptr (.values added 0))).next x (i :: before) cps.length seg 0 := by
    subst hi
    refine .opening hb (Points.fresh (a := b) hpts hopens hlt hfresh _) hresm ⟨?_, nofun, ?_, ?_⟩
    · exact ArgumentsLive.storage (a := b) hopening'.arguments hlt hrole hstor _
    · intro d' ty rest heq hty
      obtain ⟨-, rfl, -⟩ := Instr.alloca.inj (List.cons.inj heq).1
      exact absurd rfl hty
    · exact hopening'.globals
  have hperf : ∀ h : Host, perform W.image a i h = .ok (.slots n) h := by
    intro h
    rw [hi]
    rfl
  have hrun : ∀ h : Host, h.stack = h1.stack → h.slots = h1.slots →
      apply W.image (.slots n) (destOf i) a rest h spare =
        .running ⟨{ h with slots, stack := h1.stack }, spare',
          .body (b.put d (.ptr (.values added 0))).next :: rest⟩ := by
    intro h hstk hh
    have hdef : b.define d (.ptr (.values added 0)) { h with slots } =
        .ok (b.put d (.ptr (.values added 0))) { h with slots, stack := h1.stack } := by
      have hdef := hpost.frame.define_eq hW hrole (.ptr (.values added 0)) (h := { h with slots })
        (by show _ ≤ h.stack.depth; rw [hstk]; exact Nat.le_of_eq hpost.depth.symm)
      rw [← hstk]
      exact hdef
    rw [hi]
    simp only [apply, htake h hh, destOf, Activation.defineOption]
    rw [hdef]
  refine perform_together hp.standing (hperf h1) (hperf h2) ?_
  rw [hrun h1 rfl rfl, hrun h2 hg.twin.stack hg.twin.slots]
  refine running_together (hgrd.put hlt hrole (s := .ptr (.values added 0)) fun _ _ heq => ?_) hnext
    hplace hS
  cases heq
  exact .inl fun j hj => Array.mem_append_right _ hj

theorem cell_together (hi : i = .alloca d ty 1) (hty : ty ≠ .value)
    (hrole : (W.cert a).HasRole d .cell) (hfresh : ∀ j ∈ before, destOf j ≠ some d) :
    StepTogether W S h1 h2 spare a rest := by
  have hmem : .alloca d ty 1 ∈ a.routine.function.instrs := by
    have hsuf := hp.standing.suffix
    rw [hi] at hsuf
    exact Ir.mem_instrs_of_trail (hsuf.subset (.head _))
  obtain ⟨w, hlookup, hw⟩ := Layout.exists_cell hmem hty
  rw [← hp.frame.layout hW] at hlookup
  have hperf : ∀ h : Host, perform W.image a i h =
      .ok (.answer (.ptr (.word (a.base + w)))) h := by
    intro h
    rw [hi, perform, if_neg hty, hlookup]
    rfl
  have hlt := hp.frame.lt_size hW hrole
  refine perform_together hp.standing (hperf h1) (hperf h2) ?_
  refine answer_together hW hg hp (hi ▸ rfl) (d := d) (hi ▸ rfl) hrole ⟨w, rfl, hw⟩ (by simp) (by simp) ?_ hS
  subst hi
  refine .opening hb (hpts.fresh hopens hlt hfresh _) hresm
    ⟨?_, fun _ _ h => (by cases h), ?_, hopng.globals⟩
  · exact hopng.arguments.storage hlt hrole rfl _
  · intro d' ty' rest heq _
    obtain ⟨rfl, -, -⟩ := Instr.alloca.inj (List.cons.inj heq).1
    exact ⟨w, hlookup, Activation.getElem?_put_self hlt _⟩

omit hopens in
theorem clear_together (hi : i = .clear d) (hrole : (W.cert a).HasRole d .slot)
    (hbef : before = .alloca d .value 1 :: l) : StepTogether W S h1 h2 spare a rest := by
  obtain ⟨t, ht⟩ := hp.standing.known d (.inr (.inl ⟨_, hbef ▸ List.mem_cons_self, rfl⟩))
  obtain ⟨j, rfl, hj⟩ := hp.frame.roles d t _ ht hrole
  have hrest' : Restocks (W.view h1 h2).live h1.slots (h1.slots.setIfInBounds j default) :=
    .set _ _ (live_default W h1 h2)
  have hslt : ∀ l, SlotLive (W.view h1 h2) l →
      SlotLive (W.view { h1 with slots := h1.slots.setIfInBounds j default }
        { h2 with slots := h1.slots.setIfInBounds j default }) l := by
    rintro l ⟨y, hy, hl⟩
    exact hrest'.live l y hy hl
  have hperf : ∀ h : Host, h.slots = h1.slots → perform W.image a i h =
      .ok .next { h with slots := h1.slots.setIfInBounds j default } := by
    intro h hh
    rw [hi, ← hh]
    exact perform_store rfl (pointerOperand_reg ht) rfl (hh ▸ hj)
  refine plain_together hW hp (hi ▸ rfl) (hi ▸ rfl) (.inl rfl) (hperf h1 rfl)
    (hperf h2 hg.twin.slots) (hg.withSlots hrest') (hp.withSlots hW hg hrest') ?_ hS
  subst hi
  have hopening' := hopng.mono hslt
  refine .opening hb hpts hresm ⟨hopening'.arguments, ?_, nofun, hopening'.globals⟩
  intro d' rest heq
  obtain rfl := Operand.reg.inj (Instr.store.inj (List.cons.inj heq).1).2
  exact ⟨j, ht, default, Array.getElem?_setIfInBounds_self_of_lt hj, live_default W h1 h2⟩

omit hopens

theorem pushRoot_together (hi : i = .pushRoot o)
    (ho : a.pointerOperand W.image o = .ok (.values #[j] 0)) (hlv : SlotLive (W.view h1 h2) j) :
    StepTogether W S h1 h2 spare a rest := by
  have hss : [(⟨.ptr, o⟩ : Typed)].mapM (a.typed W.image) = .ok [.ptr (.values #[j] 0)] := by
    simp only [List.mapM_cons, List.mapM_nil, typed_of_pointerOperand ho]
    rfl
  have hperf : perform W.image a i = callEntry W.image .pushRoot [.ptr (.values #[j] 0)] := by
    rw [hi]
    exact perform_call hss
  have hbody : callBody W.image .pushRoot [.ptr (.values #[j] 0)] = answerVoid (Host.pushRoot j) := rfl
  have hcap := hg.capacity
  have hdep : h1.roots.depth = h1.roots.slots.size := rfl
  -- both sides have the same root stack, so they overflow together or grow together
  by_cases hfull : h1.roots.depth = h1.roots.capacity
  · have hcall : ∀ h : Host, h.roots = h1.roots → perform W.image a i h =
        .error (.fatal (.rootOverflow h1.roots.capacity)) h := by
      intro h hrts
      rw [hperf]
      refine callEntry_interrupted rfl hbody (pushRoot_error ?_)
      rw [hrts]
      exact if_pos hfull
    rw [stepTogether_iff hp.standing]
    unfold andThen
    rw [hcall h1 rfl, hcall h2 hg.twin.roots]
    exact .fatal hg.twin.toMirror (fun _ _ he => nomatch he) (fun _ _ he => nomatch he)
  · obtain ⟨stack, hstk⟩ : ∃ stack : RootStack, stack =
      { h1.roots with slots := h1.roots.slots.push j } := ⟨_, rfl⟩
    have hcall : ∀ h : Host, h.roots = h1.roots → perform W.image a i h =
        .ok (.answer .void) { h with roots := stack } := by
      intro h hrts
      rw [hperf]
      refine callEntry_void rfl rfl hbody (pushRoot_ok ?_)
      rw [hrts, hstk]
      exact if_neg hfull
    have hgrd : Ground W { h1 with roots := stack } { h2 with roots := stack } spare
        (.body a :: rest) := by
      refine hg.withRoots ?_ ?_
      · rw [hstk]
        simp only [Array.size_push]
        omega
      · intro l hl
        rw [hstk, Array.mem_push] at hl
        rcases hl with hl | rfl
        · exact hg.rooted l hl
        · exact hlv
    -- the slot is the next of the segment that the prologue is about to have pushed
    have hpost : Posture W { h1 with roots := stack } { h2 with roots := stack } a rest x before i
        roots (seg ++ [j]) cps 0 := by
      refine ⟨hp.below, hp.frame, hp.main, hp.depth, ?_, hp.checkpoints, hp.resumes, hp.standing⟩
      show stack.slots.toList = _
      rw [hstk, Array.toList_push, hp.slots, List.append_assoc]
    refine perform_together hp.standing (hcall h1 rfl) (hcall h2 hg.twin.roots) ?_
    subst hi
    refine next_together hW hgrd hpost rfl rfl ?_ hS
    refine .opening hb ?_ hresm (hopng.skip nofun nofun)
    rw [pushes_pushRoot, List.reverse_cons]
    exact List.rel_append hpts (.cons ho .nil)

omit hg in
theorem service_together {e : EntryPoint} {arguments : List Typed}
    (hi : i = .call none .void (.entry e) arguments) (he : e ≠ .pushRoot)
    (hperform1 : perform W.image a i h1 = .ok (.answer .void) g1)
    (hperform2 : perform W.image a i h2 = .ok (.answer .void) g2)
    (hgrd : Ground W g1 g2 spare (.body a :: rest))
    (hpost : Posture W g1 g2 a rest x before i roots seg cps 0)
    (hslt : ∀ j, SlotLive (W.view h1 h2) j → SlotLive (W.view g1 g2) j)
    (hcps : g1.checkpoints = h1.checkpoints) :
    StepTogether W S h1 h2 spare a rest := by
  refine plain_together hW hp (hi ▸ rfl) (hi ▸ rfl) (.inr rfl) hperform1 hperform2 hgrd hpost ?_
    fun m hm => hS m (hm.trans hcps)
  subst hi
  refine .opening hb ?_ hresm ((hopng.mono hslt).skip nofun nofun)
  have hpushes : pushes (.call none .void (.entry e) arguments :: before) = pushes before := by
    unfold pushes
    rw [List.filterMap_cons]
    split
    · rfl
    · next h =>
      split at h
      · next heq => exact absurd (Ir.Callee.entry.inj (Instr.call.inj heq).2.2.1) he
      · cases h
  rw [hpushes]
  exact hpts

theorem gcInit_together (hi : i = .gcInit) :
    StepTogether W S h1 h2 spare a rest := by
  have hperf : ∀ h : Host, perform W.image a i h = .ok (.answer .void) h := by
    intro h
    rw [hi]
    rfl
  exact service_together hW hp hb hpts hresm hopng hS hi nofun (hperf h1) (hperf h2) hg hp
    (fun _ h => h) rfl

theorem setArgs_together {vector : Nat}
    (hi : i = .call none .void (.entry .setArgs) [⟨.i32, .reg count⟩, .ptr vector])
    (hcnt : (W.cert a).HasRole count .argc) (hvector : (W.cert a).HasRole vector .vector)
    (hins : count ∈ (W.cert a).inputs ∧ vector ∈ (W.cert a).inputs) :
    StepTogether W S h1 h2 spare a rest := by
  obtain ⟨s, hs⟩ := hp.standing.known count (.inl hins.1)
  obtain ⟨t, ht⟩ := hp.standing.known vector (.inl hins.2)
  obtain rfl : s = .int (Int64.ofNat W.image.arguments.length) := hp.frame.roles count s _ hs hcnt
  obtain rfl : t = .ptr .arguments := hp.frame.roles vector t _ ht hvector
  have hss : [(⟨.i32, .reg count⟩ : Typed), .ptr vector].mapM (a.typed W.image) =
      .ok [.int (Int64.ofNat W.image.arguments.length), .ptr .arguments] := by
    have hvector : a.typed W.image (.ptr vector) = .ok (.ptr .arguments) := typed_reg _ ht _
    simp only [List.mapM_cons, List.mapM_nil, typed_reg _ hs, hvector]
    rfl
  have hperf : ∀ h : Host, perform W.image a i h =
      .ok (.answer .void) { h with arguments := W.image.arguments } := by
    intro h
    rw [hi, perform_call hss]
    refine callEntry_void rfl rfl (?_ : _ = answerVoid (modify fun h : Host =>
      { h with arguments := W.image.arguments })) rfl
    exact if_pos rfl
  refine service_together hW hp hb hpts hresm hopng hS hi nofun (hperf h1) (hperf h2)
    (hg.withArguments _) ?_ (fun _ h => h) rfl
  exact ⟨hp.below, hp.frame, hp.main, hp.depth, hp.slots, hp.checkpoints, hp.resumes, hp.standing⟩

theorem bottom_together (hi : i = .call none .void (.entry .setStackBottom) [.ptr d])
    (hmain : W.kind a = .main) (hbef : before = [.alloca d .i64 1, .gcInit]) :
    StepTogether W S h1 h2 spare a rest := by
  obtain ⟨w, hlookup, hreg⟩ := hopng.celled d .i64 _ hbef nofun
  have hbase : a.base = 0 := by
    have hbelow := hp.below
    rw [hp.main.mpr hmain] at hbelow
    generalize a.base = depth at hbelow
    cases hbelow
    rfl
  have hword : w = 0 := by
    obtain ⟨l, hl⟩ := hp.standing.suffix
    rw [hb, hbef] at hl
    have hcert := hp.frame.certified hW
    have hfst : (Layout.of a.routine.function).cells.lookup d = some 0 :=
      lookup_first hcert.single (l := l ++ [i]) (show Ty.i64 ≠ .value by decide)
        (by rw [← hl]; simp)
    rw [← hp.frame.layout hW, hlookup] at hfst
    exact Option.some.inj hfst
  rw [hbase, hword] at hreg
  have hperf : ∀ h : Host, h.stack.bottom = 0 → perform W.image a i h = .ok (.answer .void) h := by
    intro h hbot
    have hss : [Typed.ptr d].mapM (a.typed W.image) = .ok [.ptr (.word 0)] := by
      have hopd : a.typed W.image (.ptr d) = .ok (.ptr (.word 0)) := typed_reg _ hreg _
      simp only [List.mapM_cons, List.mapM_nil, hopd]
      rfl
    rw [hi, perform_call hss]
    refine callEntry_void rfl rfl (show _ = answerVoid (Host.onStack fun s => { s with bottom := 0 })
      from rfl) ?_
    show EStateM.Result.ok () { h with stack := { h.stack with bottom := 0 } } = .ok () h
    rw [← hbot]
  have hbottom2 : h2.stack.bottom = 0 := by
    rw [hg.twin.stack]
    exact hg.bottom
  exact service_together hW hp hb hpts hresm hopng hS hi nofun (hperf h1 hg.bottom)
    (hperf h2 hbottom2) hg hp (fun _ h => h) rfl

omit hb in
theorem begin_together (hi : i = .jump 1) (hbef : before = a.routine.function.prologue) :
    StepTogether W S h1 h2 spare a rest := by
  have hfr := hp.frame
  have hcert := hfr.certified hW
  have hlt : 1 < a.routine.function.blocks.size := by
    rw [← hcert.contexts]
    exact (List.getElem?_eq_some_iff.mp hcert.body).1
  obtain ⟨j, hfst⟩ := exists_first hcert hlt
  have hknown : ∀ r, Known (W.cert a) 1 {} [] r → a.Defined r := by
    intro r hr
    rcases hr with hr | ⟨j, hj, -⟩ | ⟨-, ρ, hρ, hstor⟩ | ⟨-, -, q, hq, -⟩
    · exact hp.standing.known r (.inl hr)
    · exact absurd hj List.not_mem_nil
    · have hass := hcert.stored r ρ hρ hstor
      rw [← hbef] at hass
      exact hp.standing.known r (.inr (.inl hass))
    · exact absurd hq List.not_mem_nil
  have hpost : Posture W h1 h2 { a with block := 1, position := 0 } rest {} [] j roots seg cps 0 :=
    ⟨hp.below, ⟨hfr.routine, hfr.size, hfr.roles, hfr.values⟩, hp.main, hp.depth,
      hp.slots, hp.checkpoints, hp.resumes.mono rfl fun _ h => h,
      ⟨hfst, rfl, fun _ _ => ⟨hcert.body, rfl⟩, hknown⟩⟩
  have hin : Inside W (W.view h1 h2) { a with block := 1, position := 0 } [] := by
    exact ⟨fun _ _ _ _ hfills => filled_of_ne hfills nofun, nofun, fun _ _ => hopng.arguments,
      nofun, nofun⟩
  have hnone : a.resumes.length = 0 := by rw [hresm]; rfl
  have hplace : Place W (W.view h1 h2) { a with block := 1, position := 0 } {} [] cps.length seg
      a.resumes.length :=
    .inside nofun nofun (hbef ▸ hpts) (.steady trivial hnone.symm) hin
  have hperf : ∀ h : Host, perform W.image a i h = .ok (.jump 1) h := by
    intro h
    rw [hi]
    rfl
  rw [hnone] at hplace
  exact perform_together hp.standing (hperf h1) (hperf h2)
    (running_together (hg.move rfl rfl rfl) hpost hplace hS)

end

theorem opening_together (hW : W.Sound) (hg : Ground W h1 h2 spare (.body a :: rest))
    (hp : Posture W h1 h2 a rest x before i roots seg cps 0) (hb : a.block = 0)
    (hpts : Points W a (pushes before).reverse seg) (hresm : a.resumes = [])
    (hopng : Opening W (W.view h1 h2) a before)
    (hS : ∀ m, m.host.checkpoints = h1.checkpoints → S m) :
    StepTogether W S h1 h2 spare a rest := by
  have hcert := hp.frame.certified hW
  rcases hp.standing.opens hcert hb with ⟨hi, hbef⟩ | ⟨hi, hsuf⟩
  · exact begin_together hW hg hp hpts hresm hopng hS hi hbef
  · have hopens : Ir.Checked (Opens W.globals (W.kind a) (W.cert a)) before :=
      (hcert.opens.suffix hsuf).2
    cases hi with
    | slots role size fresh =>
      exact slots_together hW hg hp hb hpts hresm hopng hopens hS rfl role size fresh
    | cell scalar role fresh =>
      exact cell_together hW hg hp hb hpts hresm hopng hopens hS rfl scalar role fresh
    | clear role allocated =>
      exact clear_together hW hg hp hb hpts hresm hopng hS rfl role allocated
    | root role cleared =>
      obtain ⟨j, hj, hlv⟩ := hopng.cleared _ _ cleared
      exact pushRoot_together hW hg hp hb hpts hresm hopng hS rfl (pointerOperand_reg hj) hlv
    | globalRoot main declared =>
      obtain ⟨j, hj, hlv⟩ := hopng.globals main _ declared
      exact pushRoot_together hW hg hp hb hpts hresm hopng hS rfl (pointerOperand_global hj)
        hlv
    | gcInit => exact gcInit_together hW hg hp hb hpts hresm hopng hS rfl
    | bottom main role first =>
      exact bottom_together hW hg hp hb hpts hresm hopng hS rfl main first
    | setArgs main number arguments inputs =>
      exact setArgs_together hW hg hp hb hpts hresm hopng hS rfl number arguments inputs

/-! ## Exits -/

section

variable (hW : W.Sound) (hg : Ground W h1 h2 spare (.body a :: rest))
  (hp : Posture W h1 h2 a rest x before i roots seg cps 0) (hb : a.block = 2)
  (hresm : a.resumes = []) (hres : W.kind a ≠ .main → ResultLive (W.view h1 h2) a)
  (hleft : ∃ all, Points W a (pushes a.routine.function.prologue).reverse all ∧ seg <+: all)

include hW hg hp hb hresm hres hleft

theorem popRoots_together (hi : i = .call none .void (.entry .popRoots) [.i32 count])
    (hcnt : count + (W.kind a).registered W.globals = seg.length)
    (hS : ∀ m, m.host.checkpoints = h1.checkpoints → S m) :
    StepTogether W S h1 h2 spare a rest := by
  have hsize : h1.roots.slots.size = roots.length + seg.length := by
    rw [← Array.length_toList, hp.slots, List.length_append]
  have hcap := hg.capacity
  obtain ⟨stack, hstk⟩ : ∃ stack, stack = h1.roots.truncate (h1.roots.depth - count) := ⟨_, rfl⟩
  have hperf : ∀ h : Host, h.roots = h1.roots → perform W.image a i h =
      .ok (.answer .void) { h with roots := stack } := by
    intro h hrts
    have hss : [Typed.i32 count].mapM (a.typed W.image) = .ok [.int (Int64.ofNat count)] := rfl
    have hpop : h.roots.pop (countOf (Int64.ofNat count)) = .ok stack := by
      rw [countOf_ofNat, Nat.mod_eq_of_lt (by omega), hrts, hstk]
      refine if_neg ?_
      unfold RootStack.depth
      omega
    rw [hi, perform_call hss]
    exact callEntry_void rfl rfl (show _ = answerVoid (Host.popRoots (countOf (Int64.ofNat count)))
      from rfl) (popRoots_ok hpop)
  -- what stays registered are the globals, and these only in the main function
  obtain ⟨left, htaken⟩ : ∃ left, left = seg.take (seg.length - count) := ⟨_, rfl⟩
  have hslt : stack.slots.toList = roots ++ left := by
    have htake : stack.slots.toList = (roots ++ seg).take (h1.roots.depth - count) := by
      rw [hstk, ← hp.slots]
      simp [RootStack.truncate]
    have hdep : h1.roots.depth - count = roots.length + (seg.length - count) := by
      unfold RootStack.depth
      omega
    rw [htake, hdep, List.take_length_add_append, htaken]
  have hgrd : Ground W { h1 with roots := stack } { h2 with roots := stack } spare (.body a :: rest) := by
    refine hg.withRoots ?_ fun j hj => ?_
    · have hlen : stack.slots.size = roots.length + left.length := by
        rw [← Array.length_toList, hslt, List.length_append]
      have hle : left.length ≤ seg.length := by
        rw [htaken, List.length_take]
        omega
      have hsame : stack.capacity = h1.roots.capacity := by rw [hstk]; rfl
      omega
    · refine hg.rooted j ?_
      rw [← Array.mem_toList_iff, hslt] at hj
      rw [← Array.mem_toList_iff, hp.slots]
      rcases List.mem_append.mp hj with hj | hj
      · exact List.mem_append_left _ hj
      · exact List.mem_append_right _ (List.mem_of_mem_take (htaken ▸ hj))
  have hpost : Posture W { h1 with roots := stack } { h2 with roots := stack } a rest x before i
      roots left cps 0 :=
    ⟨hp.below, hp.frame, hp.main, hp.depth, hslt, hp.checkpoints, hp.resumes, hp.standing⟩
  have hregd : left.length = (W.kind a).registered W.globals := by
    rw [htaken, List.length_take]
    omega
  obtain ⟨all, hall, hseg⟩ := hleft
  refine perform_together hp.standing (hperf h1 rfl) (hperf h2 hg.twin.roots) ?_
  subst hi
  exact next_together hW hgrd hpost rfl rfl
    (.leaving hb hresm (by simp) (fun _ => hregd) hres
      ⟨all, hall.congr fun _ _ => rfl, htaken ▸ (List.take_prefix _ _).trans hseg⟩) hS

theorem loadResult_together (hi : i = .load r .value (.reg 0)) (hrole : (W.cert a).HasRole r .value)
    (hinn : W.kind a ≠ .main) (hregd : seg.length = (W.kind a).registered W.globals)
    (hS : ∀ m, m.host.checkpoints = h1.checkpoints → S m) :
    StepTogether W S h1 h2 spare a rest := by
  obtain ⟨j, hj, y, hy, hlv⟩ := hres hinn
  have hcert := hp.frame.certified hW
  have hy2 : h2.slots[j]? = some y := by
    rw [hg.twin.slots]
    exact hy
  have hlt := hp.frame.lt_size hW hrole
  have hne : 0 ≠ r := by
    rintro rfl
    cases hrole.unique (hcert.result hinn)
  subst hi
  refine perform_together hp.standing (perform_load (pointerOperand_reg hj) rfl hy)
    (perform_load (pointerOperand_reg hj) rfl hy2) ?_
  refine answer_together hW hg hp rfl rfl hrole ⟨y, rfl⟩ (live_of hlv) nofun ?_ hS
  obtain ⟨all, hall, hseg⟩ := hleft
  refine .leaving hb hresm nofun (fun _ => hregd) (fun _ => ⟨j, ?_, y, hy, hlv⟩)
    ⟨all, (hall.put hcert.opens hlt hrole nofun _).congr fun _ _ => rfl, hseg⟩
  show (a.put r (.value y)).registers[0]? = _
  rw [Activation.getElem?_put hlt, if_neg hne]
  exact hj

omit hb hresm hres hleft in
theorem ret_together (hi : i = .ret (some (.value r))) (hass : Assigns before r)
    (hrole : (W.cert a).HasRole r .value) (hinn : W.kind a ≠ .main) (hseg : seg = [])
    (hS : ∀ m, Proceeds h1.checkpoints (.body a :: rest) m → S m) :
    StepTogether W S h1 h2 spare a rest := by
  obtain ⟨s, hs⟩ := hp.standing.known r (.inr (.inl hass))
  obtain ⟨y, rfl⟩ := hp.frame.roles r s _ hs hrole
  have hlv := (hp.frame.values r y hs).1
  have hperf : ∀ h : Host, perform W.image a i h = .ok (.ret (.value y)) h := by
    intro h
    have htyped : a.typed W.image (.value r) = .ok (.value y) := typed_reg _ hs _
    rw [hi, perform, sound_bind htyped]
    rfl
  have hne : rest ≠ [] := fun h => hinn (hp.main.mp h)
  have htower : Tower W (W.view h1 h2) rest h1.roots.slots.toList a.base h1.checkpoints := by
    rw [hp.slots, hp.checkpoints, hseg, List.append_nil]
    exact hp.below
  have hdep : a.base ≤ h1.stack.depth := by
    rw [hp.depth]
    exact Nat.le_add_right _ _
  refine perform_together hp.standing (hperf h1) (hperf h2) ?_
  exact deliver_together hW (hg.give.cut hW htower hdep) hne hlv fun m hm =>
    hS m (hm.mono fun _ _ h => h.trans (List.suffix_cons _ _))

omit hW hb hresm hres in
theorem exit_together (hi : i = .ret (some (.i32 0))) (hmain : W.kind a = .main)
    (hregd : seg.length = (W.kind a).registered W.globals) :
    StepTogether W S h1 h2 spare a rest := by
  have hperf : ∀ h : Host, perform W.image a i h = .ok (.ret (.int 0)) h := by
    intro h
    rw [hi]
    rfl
  obtain rfl := hp.main.mpr hmain
  have hbelow := hp.below
  obtain ⟨rfl, rfl⟩ : roots = [] ∧ cps = [] := by
    generalize a.base = depth at hbelow
    cases hbelow
    exact ⟨rfl, rfl⟩
  refine perform_together hp.standing (hperf h1) (hperf h2) ?_
  obtain ⟨all, hall, hseg⟩ := hleft
  refine .exit (hg.twin.toMirror.cut _) ?_ ?_ ⟨a, all, hp.frame.routine, hmain, hall, hp.slots ▸ hseg⟩
  · exact hp.checkpoints
  · show h1.roots.slots.size = _
    rw [← Array.length_toList, hp.slots, List.nil_append, hregd, hmain]
    rfl

end

theorem registered_of_ne_main (G : List String) (hk : k ≠ .main) : k.registered G = 0 := by
  cases k with
  | main => exact absurd rfl hk
  | function | method | field => rfl

theorem leaving_together (hW : W.Sound) (hg : Ground W h1 h2 spare (.body a :: rest))
    (hp : Posture W h1 h2 a rest x before i roots seg cps 0) (hb : a.block = 2)
    (hresm : a.resumes = [])
    (hsegment : before = [] → seg.length = (pushes a.routine.function.prologue).length)
    (hpopped : before ≠ [] → seg.length = (W.kind a).registered W.globals)
    (hres : W.kind a ≠ .main → ResultLive (W.view h1 h2) a)
    (hleft : ∃ all, Points W a (pushes a.routine.function.prologue).reverse all ∧ seg <+: all)
    (hS : ∀ m, Proceeds h1.checkpoints (.body a :: rest) m → S m) :
    StepTogether W S h1 h2 spare a rest := by
  have hcert := hp.frame.certified hW
  have hexits := hcert.exits
  have hsuf := hp.standing.suffix
  rw [hb] at hsuf
  have hstp : ∀ m, m.host.checkpoints = h1.checkpoints → S m := fun m hm => hS m (.inl hm)
  -- the slots that the exit has to unregister, if there are any
  have hpopping : ∀ count, i :: before <:+ Ir.popping count →
      count + (W.kind a).registered W.globals = (pushes a.routine.function.prologue).length →
      StepTogether W S h1 h2 spare a rest := by
    intro count hsuf hbal
    unfold Ir.popping at hsuf
    split at hsuf
    · cases List.eq_nil_of_suffix_nil hsuf
    · rcases List.suffix_cons_iff.mp hsuf with heq | hsuf
      · obtain ⟨hi, hbef⟩ := List.cons.inj heq
        exact popRoots_together hW hg hp hb hresm hres hleft hi
          (hbal.trans (hsegment hbef).symm) hstp
      · cases List.eq_nil_of_suffix_nil hsuf
  have hregd : ∀ count, before = Ir.popping count →
      count + (W.kind a).registered W.globals = (pushes a.routine.function.prologue).length →
      seg.length = (W.kind a).registered W.globals := by
    intro count hbef hbal
    by_cases hcnt : count = 0
    · rw [hsegment (by rw [hbef, Ir.popping, if_pos hcnt]), ← hbal, hcnt, Nat.zero_add]
    · exact hpopped (by rw [hbef, Ir.popping, if_neg hcnt]; exact nofun)
  generalize htrail : trailOf a.routine.function.blocks 2 = trail at hexits hsuf
  cases hexits with
  | @inner r inner role =>
    have hzero := registered_of_ne_main W.globals inner
    have hbal : (pushes a.routine.function.prologue).length + (W.kind a).registered W.globals =
        (pushes a.routine.function.prologue).length := by rw [hzero, Nat.add_zero]
    rcases List.suffix_cons_iff.mp hsuf with heq | hsuf
    · obtain ⟨hi, hbef⟩ := List.cons.inj heq
      have hseg : seg.length = 0 := (hpopped (by rw [hbef]; exact nofun)).trans hzero
      exact ret_together hW hg hp hi ⟨_, hbef ▸ List.mem_cons_self, rfl⟩ role inner
        (List.eq_nil_of_length_eq_zero hseg) hS
    · rcases List.suffix_cons_iff.mp hsuf with heq | hsuf
      · obtain ⟨hi, hbef⟩ := List.cons.inj heq
        exact loadResult_together hW hg hp hb hresm hres hleft hi role inner
          (hregd _ hbef hbal) hstp
      · exact hpopping _ hsuf hbal
  | @main count main balance =>
    have hbal : count + (W.kind a).registered W.globals =
        (pushes a.routine.function.prologue).length := by
      rw [main]
      exact balance
    rcases List.suffix_cons_iff.mp hsuf with heq | hsuf
    · obtain ⟨hi, hbef⟩ := List.cons.inj heq
      exact exit_together hg hp hleft hi main (hregd _ hbef hbal)
    · exact hpopping _ hsuf hbal

end Ember.Machine
