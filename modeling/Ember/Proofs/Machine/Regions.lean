import Ember.Proofs.Ir.Flow
import Ember.Proofs.Machine.Calls

/-!
# Ember — protected regions and jumps, side by side

A protected region is opened by four instructions: a checkpoint is opened, its resume point is
recorded, and a test tells whether the region is entered or was resumed by a raise. Jumps lead to
blocks where as many regions are open as the function has resume points.

Main results: `jump_together`, `leave_together`.
-/

namespace Ember.Machine

open Ir (Convention Cert Context Interface Instr Typed Assigns pushes trailOf triesAfter)

variable {b neg pos r : Nat}

variable {W : World} {v : View} {a : Activation} {h1 h2 : Host} {spare : List Nat}
  {rest : List Entry} {x : Context} {before l : List Instr} {i : Instr} {roots seg : List Nat}
  {cps : List Checkpoint} {own below d e p : Nat} {S : Machine → Prop}

/-! ## The opening of a region -/

namespace Trying

theorem of_tryPush (ht : Trying a x below (.tryPush p :: l) own) :
    own = a.resumes.length + 1 ∧ triesAfter x.tries l = a.resumes.length ∧
      a.registers[p]? = some (some (.ptr (.checkpoint (below + a.resumes.length + 1)))) := by
  generalize hb : Instr.tryPush p :: l = before at ht
  cases ht with
  | steady steady =>
    subst hb
    exact steady.elim
  | opened tries register =>
    obtain ⟨hhead, rfl⟩ := List.cons.inj hb
    obtain rfl := Option.some.inj (Instr.call.inj hhead).1
    exact ⟨rfl, tries, register⟩
  | entered | resumed | inward | outward => simp [Instr.tryPush, Instr.setjmp, Instr.entered] at hb

theorem of_setjmp (ht : Trying a x below (.setjmp d p :: .tryPush p :: l) own) :
    own = a.resumes.length ∧
      ((triesAfter x.tries l + 1 = a.resumes.length ∧ a.registers[d]? = some (some (.int 0))) ∨
        (triesAfter x.tries l = a.resumes.length ∧ a.registers[d]? = some (some (.int 1)))) := by
  generalize hb : Instr.setjmp d p :: Instr.tryPush p :: l = before at ht
  cases ht with
  | steady steady =>
    subst hb
    exact steady.elim
  | entered tries register =>
    obtain ⟨hhead, htail⟩ := List.cons.inj hb
    obtain ⟨-, rfl⟩ := List.cons.inj htail
    obtain rfl := Option.some.inj (Instr.call.inj hhead).1
    exact ⟨rfl, .inl ⟨tries, register⟩⟩
  | resumed tries register =>
    obtain ⟨hhead, htail⟩ := List.cons.inj hb
    obtain ⟨-, rfl⟩ := List.cons.inj htail
    obtain rfl := Option.some.inj (Instr.call.inj hhead).1
    exact ⟨rfl, .inr ⟨tries, register⟩⟩
  | opened | inward | outward => simp [Instr.tryPush, Instr.setjmp, Instr.entered] at hb

theorem of_entered (ht : Trying a x below (.entered e d :: .setjmp d p :: .tryPush p :: l) own) :
    own = a.resumes.length ∧
      ((triesAfter x.tries l + 1 = a.resumes.length ∧ a.registers[e]? = some (some (.int 1))) ∨
        (triesAfter x.tries l = a.resumes.length ∧ a.registers[e]? = some (some (.int 0)))) := by
  generalize hb : Instr.entered e d :: Instr.setjmp d p :: Instr.tryPush p :: l = before at ht
  cases ht with
  | steady steady =>
    subst hb
    exact steady.elim
  | inward tries register =>
    obtain ⟨hhead, htail⟩ := List.cons.inj hb
    obtain ⟨-, htail⟩ := List.cons.inj htail
    obtain ⟨-, rfl⟩ := List.cons.inj htail
    obtain rfl := (Instr.compare.inj hhead).1
    exact ⟨rfl, .inl ⟨tries, register⟩⟩
  | outward tries register =>
    obtain ⟨hhead, htail⟩ := List.cons.inj hb
    obtain ⟨-, htail⟩ := List.cons.inj htail
    obtain ⟨-, rfl⟩ := List.cons.inj htail
    obtain rfl := (Instr.compare.inj hhead).1
    exact ⟨rfl, .inr ⟨tries, register⟩⟩
  | opened | entered | resumed => simp [Instr.tryPush, Instr.setjmp, Instr.entered] at hb

end Trying

theorem Ground.withCheckpoints (hg : Ground W h1 h2 spare (.body a :: rest))
    (checkpoints : List Checkpoint) :
    Ground W { h1 with checkpoints } { h2 with checkpoints } spare (.body a :: rest) := by
  refine ⟨?_, hg.bottom, hg.capacity, hg.rooted, hg.tenure⟩
  exact hg.twin.change ⟨rfl, rfl, rfl, rfl⟩ ⟨rfl, rfl, rfl, rfl⟩ hg.twin.slots hg.twin.roots
    hg.twin.stack rfl hg.twin.arguments (fun j hj => (hg.rooted j hj).lt) hg.bottom

theorem Activation.getElem?_put_self (hr : r < a.registers.size) (s : Scalar) :
    (a.put r s).next.registers[r]? = some (some s) := by
  show (a.put r s).registers[r]? = _
  rw [getElem?_put hr, if_pos rfl]

section

variable (hW : W.Sound) (hg : Ground W h1 h2 spare (.body a :: rest))
  (hs : Settled W a x before seg)
  (hp : Posture W h1 h2 a rest x before i roots seg cps a.resumes.length)

include hW hg hs hp

theorem tryPush_together (hi : i = .tryPush d) (hrole : (W.cert a).HasRole d .checkpoint)
    (hS : ∀ m, m.host.checkpoints = ⟨h1.roots.depth, h1.stack.depth⟩ :: h1.checkpoints → S m) :
    StepTogether W S h1 h2 spare a rest := by
  obtain ⟨checkpoints, hcps⟩ : ∃ checkpoints : List Checkpoint,
    checkpoints = ⟨h1.roots.depth, h1.stack.depth⟩ :: h1.checkpoints := ⟨_, rfl⟩
  have hdep : checkpoints.length = cps.length + a.resumes.length + 1 := by
    rw [hcps, hp.checkpoints]
    simp
    omega
  have hlt := hp.frame.lt_size hW hrole
  have hperf : ∀ h : Host, h.roots = h1.roots → h.stack = h1.stack →
      h.checkpoints = h1.checkpoints → perform W.image a i h =
        .ok (.answer (.ptr (.checkpoint checkpoints.length))) { h with checkpoints } := by
    intro h hrts hstk hold
    have hcall : callEntry W.image .tryPush [] h = .ok (.answer (.ptr (.checkpoint
        (h.checkpoints.length + 1)))) { h with checkpoints := ⟨h.roots.depth, h.stack.depth⟩ ::
          h.checkpoints } := rfl
    rw [hi]
    refine (congrFun (perform_call rfl) h).trans (hcall.trans ?_)
    rw [hrts, hstk, hold, ← hcps, hcps]
    rfl
  have hpost : Posture W { h1 with checkpoints } { h2 with checkpoints } a rest x before i roots seg
      cps (a.resumes.length + 1) := by
    refine ⟨hp.below, hp.frame, hp.main, hp.depth, hp.slots, ?_, hp.resumes, hp.standing⟩
    have hrts : h1.roots.depth = (roots ++ seg).length := by
      rw [← hp.slots, Array.length_toList]
      rfl
    show checkpoints = _
    rw [hcps, hrts, hp.depth, hp.checkpoints]
    rfl
  refine perform_together hp.standing (hperf h1 rfl rfl rfl)
    (hperf h2 hg.twin.roots hg.twin.stack hg.twin.checkpoints) ?_
  refine answer_together hW (hg.withCheckpoints checkpoints) hpost (hi ▸ rfl) (d := d) (hi ▸ rfl)
    hrole ⟨_, rfl⟩ nofun nofun ?_ fun m hm => hS m (hm.trans hcps)
  subst hi
  refine .inside hs.block0 hs.block2
    (hs.segment.put (hp.frame.certified hW).opens hlt hrole nofun _) (.opened hs.tries ?_)
    (.of_loud rfl nofun)
  rw [Activation.getElem?_put_self hlt, hdep]
  rfl

theorem tryPop_together (hi : i = .call none .void (.entry .tryPop) [])
    (hopened : 0 < triesAfter x.tries before)
    (hS : ∀ m c, h1.checkpoints = c :: m.host.checkpoints → S m) :
    StepTogether W S h1 h2 spare a rest := by
  have hresm := hp.resumes
  have hold := hp.checkpoints
  have htries := hs.tries
  cases hr : a.resumes with
  | nil =>
    rw [htries, hr] at hopened
    exact absurd hopened (Nat.lt_irrefl 0)
  | cons r older =>
    rw [hr] at hresm hold htries
    obtain ⟨hdep, -, holder⟩ := hresm
    -- all checkpoints of one activation are alike, so that only their number matters
    obtain ⟨c, hc⟩ : ∃ c : Checkpoint, c = ⟨(roots ++ seg).length, a.base + a.routine.layout.words⟩ :=
      ⟨_, rfl⟩
    rw [← hc] at hold
    have hold : h1.checkpoints = c :: (List.replicate older.length c ++ cps) := hold
    obtain ⟨checkpoints, hcps⟩ : ∃ checkpoints, checkpoints = List.replicate older.length c ++ cps :=
      ⟨_, rfl⟩
    rw [← hcps] at hold
    let b : Activation := { a with resumes := older }
    have hfr := hp.frame
    have hstanding := hp.standing
    have hpost : Posture W { h1 with checkpoints } { h2 with checkpoints } b rest x before i roots
        seg cps older.length := by
      refine ⟨hp.below, ⟨hfr.routine, hfr.size, hfr.roles, hfr.values⟩, hp.main,
        hp.depth, hp.slots, ?_, holder.mono rfl fun _ h => h,
        ⟨hstanding.suffix, hstanding.position, hstanding.context, hstanding.known⟩⟩
      show checkpoints = _
      rw [hcps, hc]
    -- what is closed is the innermost region of this activation
    have hclose : a.close (checkpoints.length + 1) = b := by
      have hd : r.depth = checkpoints.length + 1 := by
        rw [hdep, hcps, List.length_append, List.length_replicate]
        omega
      unfold Activation.close
      rw [hr]
      exact if_pos hd
    have hperf : ∀ h : Host, h.checkpoints = h1.checkpoints →
        perform W.image a i h = .ok .closed { h with checkpoints } := by
      intro h hh
      have hcall : callEntry W.image .tryPop [] h =
          .ok .closed { h with checkpoints := h.checkpoints.tail } := rfl
      rw [hi]
      refine (congrFun (perform_call rfl) h).trans (hcall.trans ?_)
      rw [hh, hold]
      rfl
    have happly : ∀ h : Host, apply W.image .closed (destOf i) a rest { h with checkpoints } spare =
        .running ⟨{ h with checkpoints }, spare, .body b.next :: rest⟩ := by
      intro h
      rw [hi]
      simp only [apply, Host.tryDepth, hclose]
      rfl
    refine perform_together hp.standing (hperf h1 rfl) (hperf h2 hg.twin.checkpoints) ?_
    rw [happly h1, happly h2]
    have hplace : Place W (W.view { h1 with checkpoints } { h2 with checkpoints }) b.next x
        (i :: before) cps.length seg older.length := by
      subst hi
      refine .inside hs.block0 hs.block2 hs.segment (.steady trivial ?_) (.of_loud rfl (by simp))
      show triesAfter x.tries before - 1 = older.length
      rw [htries]
      rfl
    exact next_together hW ((hg.withCheckpoints checkpoints).move rfl rfl rfl) hpost (hi ▸ rfl) (hi ▸ rfl) hplace
      fun m hm => hS m c (hold.trans (by rw [hm]))

end

section

variable (hW : W.Sound) (hg : Ground W h1 h2 spare (.body a :: rest)) (hb0 : a.block ≠ 0)
  (hb2 : a.block ≠ 2)
  (hsegment : Points W a (pushes a.routine.function.prologue).reverse seg)
  (hp : Posture W h1 h2 a rest x before i roots seg cps own)
  (ht : Trying a x cps.length before own)
  (hS : ∀ m, m.host.checkpoints = h1.checkpoints → S m)

include hW hg hb0 hb2 hsegment hp ht hS

theorem setjmp_together (hi : i = .setjmp d p) (hbef : before = .tryPush p :: l)
    (hrole : (W.cert a).HasRole d (.int .half)) :
    StepTogether W S h1 h2 spare a rest := by
  subst hbef
  obtain ⟨rfl, htries, hreg⟩ := ht.of_tryPush
  have hperf : ∀ h : Host, perform W.image a i h =
      .ok (.checkpoint (cps.length + a.resumes.length + 1)) h := by
    intro h
    have hss : [Typed.ptr p].mapM (a.typed W.image) =
        .ok [.ptr (.checkpoint (cps.length + a.resumes.length + 1))] := by
      have hopd : a.typed W.image (.ptr p) =
          .ok (.ptr (.checkpoint (cps.length + a.resumes.length + 1))) := typed_reg _ hreg _
      simp only [List.mapM_cons, List.mapM_nil, hopd]
      rfl
    rw [hi]
    exact congrFun (perform_call hss) h
  -- the function with the new resume point
  obtain ⟨point, hpoint⟩ : ∃ point : Resume, point =
    ⟨cps.length + a.resumes.length + 1, a.block, a.position, d⟩ := ⟨_, rfl⟩
  let b : Activation := { a with resumes := point :: a.resumes }
  have hfr := hp.frame
  have hstanding := hp.standing
  have hstanding' : Standing W b x (.tryPush p :: l) i :=
    ⟨hstanding.suffix, hstanding.position, hstanding.context, hstanding.known⟩
  have hresumable : Resumable W b point a.resumes.length := by
    subst hi hpoint
    exact ⟨x, p, l, ⟨hstanding.suffix, hstanding.position, hstanding.context, hstanding.known⟩, hb0, hb2,
      htries⟩
  have hpost : Posture W h1 h2 b rest x (.tryPush p :: l) i roots seg cps (a.resumes.length + 1) := by
    refine ⟨hp.below, ⟨hfr.routine, hfr.size, hfr.roles, hfr.values⟩, hp.main,
      hp.depth, hp.slots, hp.checkpoints, ⟨?_, hresumable, hp.resumes.mono rfl fun _ h => h⟩, hstanding'⟩
    rw [hpoint]
  obtain ⟨j, hnext⟩ := hpost.put hW hg (hi ▸ rfl) (d := d) (hi ▸ rfl) hrole (s := .int 0) ⟨0, rfl⟩ (by simp)
  have hlt := hpost.frame.lt_size hW hrole
  have hplace : Place W (W.view h1 h2) (b.put d (.int 0)).next x (i :: .tryPush p :: l) cps.length seg
      (a.resumes.length + 1) := by
    subst hi
    refine .inside hb0 hb2 (Points.put (a := b) hsegment (hfr.certified hW).opens hlt hrole (by simp) _) ?_
      (.of_loud rfl fun _ h => by cases h)
    exact .entered (a := (b.put d (.int 0)).next) (congrArg (· + 1) htries)
      (Activation.getElem?_put_self hlt _)
  have hrun : ∀ h : Host, h.stack = h1.stack →
      apply W.image (.checkpoint (cps.length + a.resumes.length + 1)) (destOf i) a rest h spare =
        .running ⟨{ h with stack := h1.stack }, spare, .body (b.put d (.int 0)).next :: rest⟩ := by
    intro h hstk
    have hdefine : ({ a with resumes := point :: a.resumes } : Activation).define d (.int 0) h =
        .ok (b.put d (.int 0)) { h with stack := h1.stack } := by
      have hdefine := hpost.frame.define_eq hW hrole (.int 0) (h := h)
        (by rw [hstk]; exact Nat.le_of_eq hpost.depth.symm)
      rw [← hstk]
      exact hdefine
    rw [hi]
    simp only [apply, destOf, Instr.setjmp, ← hpoint, hdefine]
  refine perform_together hp.standing (hperf h1) (hperf h2) ?_
  rw [hrun h1 rfl, hrun h2 hg.twin.stack]
  exact running_together ((hg.move (b := b) rfl rfl rfl).put hlt hrole (s := .int 0) (by simp)) hnext hplace
    hS

theorem entered_together (hi : i = .entered e d) (hbef : before = .setjmp d p :: .tryPush p :: l)
    (hrole : (W.cert a).HasRole e (.int .bit)) :
    StepTogether W S h1 h2 spare a rest := by
  subst hbef
  obtain ⟨rfl, hcases⟩ := ht.of_setjmp
  have hlt := hp.frame.lt_size hW hrole
  have hsegment' : ∀ s, Points W (a.put e s).next (pushes a.routine.function.prologue).reverse seg :=
    fun s => hsegment.put (hp.frame.certified hW).opens hlt hrole (by simp) s
  have hperf : ∀ n, a.registers[d]? = some (some (.int n)) → ∀ h : Host, perform W.image a i h =
      .ok (.answer (.ofBool (n == 0))) h := by
    intro n hn h
    have hl : a.intTyped W.image ⟨.i32, .reg d⟩ = .ok n := by
      unfold Activation.intTyped
      rw [typed_reg _ hn]
      rfl
    rw [hi]
    unfold Instr.entered
    rw [perform, sound_bind hl]
    rfl
  rcases hcases with ⟨htries, hreg⟩ | ⟨htries, hreg⟩
  · refine perform_together hp.standing (hperf 0 hreg h1) (hperf 0 hreg h2) ?_
    refine answer_together hW hg hp (hi ▸ rfl) (d := e) (hi ▸ rfl) hrole ⟨1, rfl⟩
      (fun _ h => by cases h) (fun _ _ h => by cases h) ?_ hS
    subst hi
    exact .inside hb0 hb2 (hsegment' _) (.inward htries (Activation.getElem?_put_self hlt _))
      (.of_loud rfl fun _ h => by cases h)
  · refine perform_together hp.standing (hperf 1 hreg h1) (hperf 1 hreg h2) ?_
    refine answer_together hW hg hp (hi ▸ rfl) (d := e) (hi ▸ rfl) hrole ⟨0, rfl⟩
      (fun _ h => by cases h) (fun _ _ h => by cases h) ?_ hS
    subst hi
    exact .inside hb0 hb2 (hsegment' _) (.outward htries (Activation.getElem?_put_self hlt _))
      (.of_loud rfl fun _ h => by cases h)

end

/-! ## Jumps -/

theorem Inside.nil (hb : a.block ≠ 1) : Inside W v a [] where
  filled _ _ _ _ hfills := filled_of_ne hfills nofun
  pointed _ _ _ _ _ heq _ := nomatch heq
  arguments h _ := absurd h hb
  result _ _ heq _ := nomatch heq
  calm _ _ heq := nomatch heq

theorem destOf_of_isTerminator (hi : i.isTerminator) : destOf i = none := by
  cases i <;> first | rfl | simp [Instr.isTerminator] at hi

theorem exists_first {f : Ir.Function} {I : Interface} {G : List String} {k : Convention}
    {c : Cert} (hf : f.Certified I G k c) (hb : b < f.blocks.size) :
    ∃ i, [i] <:+ trailOf f.blocks b := by
  have hended := hf.ended b hb
  have hne : trailOf f.blocks b ≠ [] := by
    intro hnil
    rw [hnil] at hended
    cases hended
  exact ⟨_, _, List.dropLast_concat_getLast hne⟩

section

variable (hW : W.Sound) (hg : Ground W h1 h2 spare (.body a :: rest))
  (hp : Posture W h1 h2 a rest x before i roots seg cps own)

include hW hp

theorem Posture.defined_of_ended (hb0 : a.block ≠ 0) (hb2 : a.block ≠ 2) (hi : i.isTerminator)
    (hr : Assigns (trailOf a.routine.function.blocks a.block) r) : a.Defined r := by
  have hcert := hp.frame.certified hW
  have hfits := hcert.fits _ x hb0 hb2 (hp.standing.context hb0 hb2).1
  have htrail := Ir.eq_of_suffix_ended hfits (fun _ _ h => h.goes) hp.standing.suffix hi
  rw [← htrail] at hr
  obtain ⟨j, hj, hdest⟩ := hr
  rcases List.mem_cons.mp hj with rfl | hj
  · rw [destOf_of_isTerminator hi] at hdest
    cases hdest
  · exact hp.standing.known r (.inr (.inl ⟨j, hj, hdest⟩))

include hg

theorem jump_together (hb0 : a.block ≠ 0) (hb2 : a.block ≠ 2)
    (hsegment : Points W a (pushes a.routine.function.prologue).reverse seg) (hi : i.isTerminator)
    (hown : own = a.resumes.length)
    (hleads : (W.cert a).Leads (a.block :: x.after) a.resumes.length b)
    (hS : ∀ m, m.host.checkpoints = h1.checkpoints → S m) :
    Together W S (apply W.image (.jump b) (destOf i) a rest h1 spare)
      (apply W.image (.jump b) (destOf i) a rest h2 spare) := by
  obtain ⟨hb, y, hy, htries, hlv, hafter⟩ := hleads
  have hfr := hp.frame
  have hcert := hfr.certified hW
  have hlt : b < a.routine.function.blocks.size := by
    rw [← hcert.contexts]
    exact (List.getElem?_eq_some_iff.mp hy).1
  obtain ⟨j, hfst⟩ := exists_first hcert hlt
  have hknown : ∀ r, Known (W.cert a) b y [] r → a.Defined r := by
    intro r hr
    rcases hr with hr | ⟨j, hj, -⟩ | ⟨-, hr⟩ | ⟨-, -, q, hq, hdef⟩
    · exact hp.standing.known r (.inl hr)
    · exact absurd hj List.not_mem_nil
    · exact hp.standing.known r (.inr (.inr (.inl ⟨hb0, hr⟩)))
    · -- what a block behind has written, this one among them
      rcases List.mem_cons.mp (hafter hq) with rfl | hq
      · exact hp.defined_of_ended hW hb0 hb2 hi (hcert.defs _ _ hdef).2.2
      · exact hp.standing.known r (.inr (.inr (.inr ⟨hb0, hb2, q, hq, hdef⟩)))
  have hpost : Posture W h1 h2 { a with block := b, position := 0 } rest y [] j roots seg cps
      a.resumes.length :=
    ⟨hp.below, ⟨hfr.routine, hfr.size, hfr.roles, hfr.values⟩, hp.main, hp.depth,
      hp.slots, hown ▸ hp.checkpoints, hp.resumes.mono rfl fun _ h => h,
      ⟨hfst, rfl, fun _ _ => ⟨hy, hlv⟩, hknown⟩⟩
  refine running_together (hg.move rfl rfl rfl) hpost ?_ hS
  refine .inside (show b ≠ 0 by omega) (show b ≠ 2 by omega) hsegment (.steady trivial htries)
    (.nil (show b ≠ 1 by omega))

theorem leave_together (hs : Settled W a x before seg)
    (hin : Inside W (W.view h1 h2) a before) (hi : i = .jump 2) (hown : own = a.resumes.length)
    (hclsd : triesAfter x.tries before = 0)
    (hstored : W.kind a ≠ .main → ∃ r l, before = .store (.value r) (.reg 0) :: l)
    (hS : ∀ m, m.host.checkpoints = h1.checkpoints → S m) :
    StepTogether W S h1 h2 spare a rest := by
  have hfr := hp.frame
  have hcert := hfr.certified hW
  -- all protected regions are closed again where the exit block is entered
  have hresm : a.resumes = [] := List.eq_nil_of_length_eq_zero (hs.tries.symm.trans hclsd)
  have hlt : 2 < a.routine.function.blocks.size := by
    by_contra hle
    have hexits := hcert.exits
    rw [Ir.trailOf_of_size_le (Nat.not_lt.mp hle)] at hexits
    cases hexits
  obtain ⟨j, hfst⟩ := exists_first hcert hlt
  have hknown : ∀ r, Known (W.cert a) 2 {} [] r → a.Defined r := by
    intro r hr
    rcases hr with hr | ⟨j, hj, -⟩ | ⟨-, hr⟩ | ⟨-, h, -⟩
    · exact hp.standing.known r (.inl hr)
    · exact absurd hj List.not_mem_nil
    · exact hp.standing.known r (.inr (.inr (.inl ⟨hs.block0, hr⟩)))
    · exact absurd rfl h
  have hpost : Posture W h1 h2 { a with block := 2, position := 0 } rest {} [] j roots seg cps 0 := by
    refine ⟨hp.below, ⟨hfr.routine, hfr.size, hfr.roles, hfr.values⟩, hp.main,
      hp.depth, hp.slots, ?_, hp.resumes.mono rfl fun _ h => h, ⟨hfst, rfl, ?_, hknown⟩⟩
    · rw [hp.checkpoints, hown, hresm]
      rfl
    · exact fun _ h => absurd rfl h
  have hseg : seg.length = (pushes a.routine.function.prologue).length := by
    rw [← List.Forall₂.length_eq hs.segment, List.length_reverse]
  have hres : W.kind a ≠ .main → ResultLive (W.view h1 h2) a := by
    intro hinn
    obtain ⟨r, l, hbef⟩ := hstored hinn
    exact hin.result r l hbef hinn
  have hperf : ∀ h : Host, perform W.image a i h = .ok (.jump 2) h := by
    intro h
    rw [hi]
    rfl
  exact perform_together hp.standing (hperf h1) (hperf h2)
    (running_together (hg.move rfl rfl rfl) hpost (.leaving rfl hresm (fun _ => hseg) (absurd rfl) hres
      ⟨seg, hs.segment.congr fun _ _ => rfl, List.prefix_refl _⟩) hS)

end

section

variable (hW : W.Sound) (hg : Ground W h1 h2 spare (.body a :: rest))
  (hp : Posture W h1 h2 a rest x before i roots seg cps own)
  (hS : ∀ m, m.host.checkpoints = h1.checkpoints → S m)

include hW hg hp hS

theorem choose_together (hb0 : a.block ≠ 0) (hb2 : a.block ≠ 2)
    (hsegment : Points W a (pushes a.routine.function.prologue).reverse seg)
    (ht : Trying a x cps.length before own) (hi : i = .branch (.reg e) pos neg)
    (hbef : before = .entered e d :: .setjmp d p :: .tryPush p :: l)
    (hin : (W.cert a).Leads (a.block :: x.after) (triesAfter x.tries l + 1) pos)
    (houtside : (W.cert a).Leads (a.block :: x.after) (triesAfter x.tries l) neg) :
    StepTogether W S h1 h2 spare a rest := by
  rw [hbef] at ht
  obtain ⟨hown, hcases⟩ := ht.of_entered
  have hperf : ∀ n, a.registers[e]? = some (some (.int n)) → ∀ h : Host, perform W.image a i h =
      .ok (.jump (if n != 0 then pos else neg)) h := by
    intro n hn h
    have hc : a.intOperand W.image (.reg e) = .ok n := by
      unfold Activation.intOperand
      rw [operand_reg hn]
      rfl
    rw [hi, perform, sound_bind hc]
    rfl
  have hterminator : i.isTerminator := hi ▸ rfl
  rcases hcases with ⟨htries, hreg⟩ | ⟨htries, hreg⟩
  · rw [htries] at hin
    exact perform_together hp.standing (hperf 1 hreg h1) (hperf 1 hreg h2)
      (jump_together hW hg hp hb0 hb2 hsegment hterminator hown hin hS)
  · rw [htries] at houtside
    exact perform_together hp.standing (hperf 0 hreg h1) (hperf 0 hreg h2)
      (jump_together hW hg hp hb0 hb2 hsegment hterminator hown houtside hS)

theorem branch_together (hs : Settled W a x before seg) (hown : own = a.resumes.length)
    (hi : i = .branch (.reg r) pos neg) (hcond : Given W a x before ⟨.i1, .reg r⟩ (.int .bit))
    (hpositive : (W.cert a).Leads (a.block :: x.after) (triesAfter x.tries before) pos)
    (hnegative : (W.cert a).Leads (a.block :: x.after) (triesAfter x.tries before) neg) :
    StepTogether W S h1 h2 spare a rest := by
  obtain ⟨s, hgives⟩ := hp.frame.typed hW hcond (hs.knows hp.standing)
  obtain ⟨n, rfl, hn⟩ := (show Frame.Gives W _ a ⟨Ir.Width.bit.ty, .reg r⟩ _ s from hgives).intOperand
  have hperf : ∀ h : Host, perform W.image a i h =
      .ok (.jump (if n != 0 then pos else neg)) h := by
    intro h
    rw [hi, perform, sound_bind hn]
    rfl
  rw [hs.tries] at hpositive hnegative
  refine perform_together hp.standing (hperf h1) (hperf h2) ?_
  refine jump_together hW hg hp hs.block0 hs.block2 hs.segment (hi ▸ rfl) hown ?_ hS
  split
  · exact hpositive
  · exact hnegative

end

end Ember.Machine
