import Ember.Proofs.Lowering.Expr
import Ember.Proofs.Lowering.Nesting

/-!
# Ember — conditionals, loops and protected regions fit a certificate

The blocks of a loop are entered with as many regions open as the loop itself, so `break` and
`continue` drop exactly the checkpoints that were opened inside. A protected body is compiled under
one region more, and its handler with that region closed.

Main results: `surrounds_guarded`, `surrounds_handler`.
-/

namespace Ember

variable {body y : Lowering Unit} {b counter current done lhs r receiver : Nat} {keys : Option Nat}

namespace Lowering

open Ir (Draft Convention Cert Role Typed Operand Interface Assigns)

variable {I : Interface} {k : Convention} {c c' : Cert} {s s' : Session} {α : Type}

/-! ## Blocks -/

/-- A block that is to be entered with as many regions open as are open now. -/
def Reserved (c : Cert) (s : Session) (more : List Nat) (b : Nat) : Prop :=
  c.Reserves more s.body.draft.tryDepth b

section

variable {more : List Nat} {b : Nat}

theorem Reserved.mono (hb : Reserved c s more b) (hf : Session.Follows k c s c' s')
    (hnow : c'.now = c.now) : Reserved c' s' more b := by
  unfold Reserved
  rw [hf.tryDepth]
  exact Cert.Reserves.mono hb hf.le hnow

theorem Reserved.leads (hb : Reserved c s more b) {behind : List Nat} (hmore : more ⊆ behind)
    (hnow : c.now ⊆ behind) : c.Leads behind s.body.draft.tryDepth b :=
  Cert.Reserves.leads hb hmore hnow

theorem Reserved.jump (hb : Reserved c s [] b) :
    c.Leads (s.body.draft.current :: c.now) s.body.draft.tryDepth b :=
  hb.leads (List.nil_subset _) (List.subset_cons_self ..)

theorem Reserved.holds (hb : Reserved c s more b) (hcur : s.body.draft.current = b) {p : Nat}
    {ρ : Role} (hp : p ∈ more) (hdef : (p, r) ∈ c.defs) (hr : c.HasRole r ρ) :
    s.body.draft.Holds c r ρ := by
  refine ⟨hr, _, hcur ▸ hb.2, .inr (.inr (.inr ⟨p, ?_, hdef⟩))⟩
  exact List.mem_append_left _ hp

theorem advances_block (hs : s.Sound I k c) (label : String) (more : List Nat) :
    Advances I k c s (drafting (Draft.block label)) fun b c' s' =>
      Reserved c' s' more b ∧ Draft.Continues c s.body.draft [b] c' s'.body.draft := by
  refine Yields.mono (yields_drafting (Draft.yields_block hs.draft label s.body.draft.tryDepth more)) ?_
  rintro b _ ⟨⟨d, rfl⟩, c', hd, hf, hb⟩
  have hdep : d.tryDepth = s.body.draft.tryDepth := hf.tryDepth
  refine ⟨c', hs.withDraft hf.le (hdep ▸ hd), .of_same ⟨d, rfl⟩ hf.toFollows, ?_, hf⟩
  show c'.Reserves more d.tryDepth b
  rwa [hdep]

theorem advances_jump (hs : s.Sound I k c) {dest : Nat}
    (hdest : c.Leads (s.body.draft.current :: c.now) s.body.draft.tryDepth dest) :
    Advances I k c s (drafting (Draft.jump dest)) fun _ c' s' => Ends c c' s' :=
  advances_leaves hs (Draft.yields_jump hs.draft hdest _)

theorem advances_branch (hs : s.Sound I k c) {condition pos neg : Nat}
    (hcond : s.body.draft.Holds c condition (.int .bit))
    (hpos : c.Leads (s.body.draft.current :: c.now) s.body.draft.tryDepth pos)
    (hneg : c.Leads (s.body.draft.current :: c.now) s.body.draft.tryDepth neg) :
    Advances I k c s (drafting (Draft.branch condition pos neg)) fun _ c' s' => Ends c c' s' :=
  advances_leaves hs (Draft.yields_branch hs.draft hcond hpos hneg _)

theorem advances_moveTo (hs : s.Sound I k c) (hleft : s.body.draft.Left c)
    (hb : Reserved c s more b) :
    Advances I k c s (drafting (Draft.moveTo b)) fun _ c' s' => Reaches c b c' s' := by
  refine Yields.mono (yields_drafting (Draft.yields_moveTo hs.draft hleft hb)) ?_
  rintro _ _ ⟨⟨d, rfl⟩, hd, hf, hcur⟩
  refine ⟨c.settle b, hs.withDraft hf.le (hf.tryDepth ▸ hd), .of_same ⟨d, rfl⟩ hf, rfl,
    fun b' hb' => ?_, hcur⟩
  obtain ⟨hmem, hne⟩ := List.mem_filter.mp hb'
  exact ⟨by simpa using hne, hmem⟩

theorem Reaches.after {c'' : Cert} (h1 : Settles c c') (h2 : Reaches c' b c'' s') :
    Reaches c b c'' s' := by
  refine ⟨h2.now.trans h1.now, fun b' hb' => ?_, h2.current⟩
  obtain ⟨hne, hb'⟩ := h2.owed b' hb'
  exact ⟨hne, (h1.owed b' hb').resolve_left List.not_mem_nil⟩

theorem Advances.turn {y : Lowering Unit} (hy : Advances I k c s y fun _ c' s' => Ends c c' s')
    (hb : Reserved c s more b) {x : Lowering α} {Q : α → Cert → Session → Prop}
    (hx : ∀ c1 s1, s1.Sound I k c1 → Session.Follows k c s c1 s1 → Reaches c b c1 s1 →
      Advances I k c1 s1 x Q) :
    Advances I k c s (do y; drafting (Draft.moveTo b); x) Q := by
  refine hy.bind fun _ c1 s1 hs1 hf1 hends => ?_
  refine (advances_moveTo hs1 hends.left (hb.mono hf1 hends.now)).bind
    fun _ c2 s2 hs2 hf2 hreach => ?_
  exact hx c2 s2 hs2 (hf1.trans hf2) (hreach.after (.of_ends hends))

theorem Advances.onto (hy : Advances I k c s y fun _ c' s' => Ends c c' s')
    (hb : Reserved c s more b) :
    Advances I k c s (do y; drafting (Draft.moveTo b)) fun _ c' s' => Reaches c b c' s' :=
  hy.turn (x := Pure.pure ()) hb fun _ _ hs1 _ hreach => .pure hs1 hreach

end

section

variable (hs : s.Sound I k c)

include hs

theorem emits_storeCell {t : Typed}
    (ht : s.body.draft.Gives I c t (.int .full)) (hr : c.HasRole r .cell) :
    Emits I k c s (drafting (Draft.store t (.reg r))) fun _ _ _ => True :=
  emits_writes hs ((Draft.yields_storeCell hs.draft ht hr).mono fun _ _ hw => ⟨c, _, hw, trivial⟩)

theorem emits_count (hcounter : c.HasRole counter .cell) :
    Emits I k c s (drafting (Draft.count counter)) fun r c' d' =>
      d'.Holds c' r (.int .full) ∧ Assigns d'.trail r :=
  emits_writes hs ((Draft.yields_count hs.draft hcounter).mono fun _ _ ⟨c', hw, hr⟩ =>
    ⟨c', _, hw, hr, hw.assigns (.head _) rfl⟩)

theorem emits_arith (op : Ir.IntOp) {rhs : Nat}
    (hlhs : s.body.draft.Holds c lhs (.int .full)) (hrhs : s.body.draft.Holds c rhs (.int .full)) :
    Emits I k c s (drafting (Draft.arith op lhs (.reg rhs))) fun r c' d' =>
      d'.Holds c' r (.int .full) :=
  emits_writes hs ((Draft.yields_arith hs.draft op hlhs hrhs.gives).mono fun _ _ ⟨c', hw, hr⟩ =>
    ⟨c', _, hw, hr⟩)

theorem emits_compare (predicate : Ir.Predicate) {rhs : Operand}
    {width : Ir.Width} (hlhs : s.body.draft.Holds c lhs (.int width))
    (hrhs : s.body.draft.Gives I c ⟨width.ty, rhs⟩ (.int width)) :
    Emits I k c s (drafting (Draft.compare predicate ⟨width.ty, .reg lhs⟩ rhs)) fun r c' d' =>
      d'.Holds c' r (.int .bit) :=
  emits_writes hs ((Draft.yields_compare hs.draft predicate hlhs.gives hrhs).mono fun _ _ ⟨c', hw, hr⟩ =>
    ⟨c', _, hw, hr⟩)

theorem emits_counter {initial : Operand}
    (hinitial : s.body.draft.Gives I c ⟨.i64, initial⟩ (.int .full)) :
    Emits I k c s (drafting (Draft.counter initial)) fun r c' _ => c'.HasRole r .cell :=
  emits_writes hs (Draft.yields_counter hs.draft hinitial)

theorem emits_advance (hcounter : c.HasRole counter .cell) {amount : Operand}
    (hamount : s.body.draft.Gives I c ⟨.i64, amount⟩ (.int .full)) :
    Emits I k c s (drafting (Draft.advance counter amount)) fun _ _ _ => True :=
  emits_writes hs ((Draft.yields_advance hs.draft hcounter hamount).mono fun _ _ ⟨c', l, hw⟩ =>
    ⟨c', l, hw, trivial⟩)

theorem emits_hiddenSlot :
    Emits I k c s (drafting Draft.hiddenSlot) fun r c' _ => c'.HasRole r .slot :=
  emits_writes hs ((Draft.yields_slot hs.draft none).mono fun _ _ ⟨c', hw, hr, _⟩ => ⟨c', _, hw, hr⟩)

theorem sound_note (hr : Assigns s.body.draft.trail r) :
    s.Sound I k (c.note s.body.draft.current r) :=
  hs.withDraft (c.le_note _ r) (hs.draft.note hr)

/-! ## Conditionals and loops -/

/-- One arm of a conditional, and on with the block `next`. -/
def arm (done next : Nat) (x : Lowering Unit) : Lowering Unit := do
  inScope x
  drafting (Draft.jump done)
  drafting (Draft.moveTo next)

theorem surrounds_arm {next : Nat} (hdone : Reserved c s [] done) (hnext : Reserved c s [] next) :
    Surrounds I k c s (arm done next) 0 True fun c' s' => Reaches c next c' s' :=
  (surrounds_inScope hs).after fun _ _ hs1 hf1 hsettl =>
    ((advances_jump hs1 (hdone.mono hf1 hsettl.now).jump).onto (hnext.mono hf1 hsettl.now)).mono
      fun _ _ _ hreach => hreach.after hsettl

end

/-- The test of a conditional, and on with its first arm. -/
def conditionalTest (condition : Expr) : Lowering (Nat × Nat) := do
  let truth ← truthy (← condition.lower)
  let yes ← drafting (Draft.block "if.then")
  let no ← drafting (Draft.block "if.else")
  let done ← drafting (Draft.block "if.end")
  drafting (Draft.branch truth yes no)
  drafting (Draft.moveTo yes)
  return (no, done)

theorem conditional_eq (condition : Expr) (positive negative : Lowering Unit) :
    conditional condition positive negative = (do
      let p ← conditionalTest condition
      arm p.2 p.1 positive
      arm p.2 p.2 negative) := by
  simp only [conditional, conditionalTest, arm, bind_assoc, pure_bind]

theorem advances_conditionalTest (hs : s.Sound I k c) (condition : Expr) :
    Advances I k c s (conditionalTest condition) fun p c' s' =>
      Reserved c' s' [] p.1 ∧ Reserved c' s' [] p.2 ∧ Owes c [p.1, p.2] c' := by
  refine (emits_lower condition hs).advances.bind ?_
  rintro r c1 s1 hs1 - ⟨hd1, hr⟩
  refine (emits_truthy hs1 hr).advances.bind ?_
  rintro truth c2 s2 hs2 - ⟨hd2, htruth⟩
  refine (advances_block hs2 _ []).bind ?_
  rintro yes c3 s3 hs3 - ⟨hyes, hd3⟩
  refine (advances_block hs3 _ []).bind ?_
  rintro no c4 s4 hs4 hf4 ⟨hno, hd4⟩
  refine (advances_block hs4 _ []).bind ?_
  rintro done c5 s5 hs5 hf5 ⟨hdone, hd5⟩
  have hyes := (hyes.mono hf4 hd4.now).mono hf5 hd5.now
  have hno := hno.mono hf5 hd5.now
  have hd := hd3.trans (hd4.trans hd5)
  have howes : Owes c [done, no, yes] c5 := .of_continues ((hd1.trans hd2).trans hd)
  refine (advances_branch hs5 (htruth.mono hd) hyes.jump hno.jump).turn hyes
    fun c6 s6 hs6 hf6 hreach => ?_
  exact .pure hs6 ⟨hno.mono hf6 hreach.now, hdone.mono hf6 hreach.now,
    howes.reach _ hreach (by simp)⟩

theorem surrounds_positive (hs : s.Sound I k c) (condition : Expr) {negative : Lowering Unit}
    (hnegative : Compiles I negative) :
    Surrounds I k c s (conditional condition · negative) 0 True fun c' _ => Settles c c' := by
  simp only [conditional_eq]
  refine .before (advances_conditionalTest hs condition) ?_
  rintro p c1 s1 hs1 - ⟨hno, hdone, howes⟩
  refine (surrounds_arm hs1 hdone hno).after fun c2 s2 hs2 hf2 hreach => ?_
  have hdone := hdone.mono hf2 hreach.now
  refine ((surrounds_arm hs2 hdone hdone).nest trivial hnegative).mono fun _ _ _ hreach' => ?_
  exact (howes.reach [p.2] hreach (by simp)).reach _ hreach' (by simp)

theorem surrounds_negative (hs : s.Sound I k c) (condition : Expr) {positive : Lowering Unit}
    (hpositive : Compiles I positive) :
    Surrounds I k c s (conditional condition positive) 0 True fun c' _ => Settles c c' := by
  have heq : conditional condition positive = _ := funext (conditional_eq condition positive)
  rw [heq]
  refine .before (advances_conditionalTest hs condition) ?_
  rintro p c1 s1 hs1 - ⟨hno, hdone, howes⟩
  refine .before ((surrounds_arm hs1 hdone hno).nest trivial hpositive)
    fun _ c2 s2 hs2 hf2 hreach => ?_
  have hdone := hdone.mono hf2 hreach.now
  refine (surrounds_arm hs2 hdone hdone).mono fun _ _ hreach' => ?_
  exact (howes.reach [p.2] hreach (by simp)).reach _ hreach' (by simp)

/-- The test of a loop, and on with its body. -/
def whileTest (condition : Expr) : Lowering (Nat × Nat) := do
  let test ← drafting (Draft.block "while.cond")
  let inside ← drafting (Draft.block "while.body")
  let done ← drafting (Draft.block "while.end")
  drafting (Draft.jump test)
  drafting (Draft.moveTo test)
  let truth ← truthy (← condition.lower)
  drafting (Draft.branch truth inside done)
  drafting (Draft.moveTo inside)
  return (test, done)

theorem whileLoop_eq (condition : Expr) (body : Lowering Unit) :
    whileLoop condition body = (do
      let p ← whileTest condition
      inLoop p.2 p.1 (inScope body)
      drafting (Draft.jump p.1)
      drafting (Draft.moveTo p.2)) := by
  simp only [whileLoop, whileTest, bind_assoc, pure_bind]

theorem advances_whileTest (hs : s.Sound I k c) (condition : Expr) :
    Advances I k c s (whileTest condition) fun p c' s' =>
      Reserved c' s' [] p.1 ∧ Reserved c' s' [] p.2 ∧ Owes c [p.2] c' := by
  refine (advances_block hs _ []).bind ?_
  rintro test c1 s1 hs1 - ⟨htest, hd1⟩
  refine (advances_block hs1 _ []).bind ?_
  rintro inside c2 s2 hs2 hf2 ⟨hin, hd2⟩
  refine (advances_block hs2 _ []).bind ?_
  rintro done c3 s3 hs3 hf3 ⟨hdone, hd3⟩
  have htest := (htest.mono hf2 hd2.now).mono hf3 hd3.now
  have hin := hin.mono hf3 hd3.now
  have howes : Owes c [done, inside, test] c3 := .of_continues (hd1.trans (hd2.trans hd3))
  refine (advances_jump hs3 htest.jump).turn htest fun c4 s4 hs4 hf4 hreach => ?_
  refine (emits_lower condition hs4).advances.bind ?_
  rintro r c5 s5 hs5 hf5 ⟨hd5, hr⟩
  refine (emits_truthy hs5 hr).advances.bind ?_
  rintro truth c6 s6 hs6 hf6 ⟨hd6, htruth⟩
  have hf := hf4.trans (hf5.trans hf6)
  have hnow : c6.now = c3.now := (hd5.trans hd6).now.trans hreach.now
  have hin := hin.mono hf hnow
  have hdone := hdone.mono hf hnow
  have htest := htest.mono hf hnow
  have howes : Owes c [done, inside] c6 :=
    (howes.reach [done, inside] hreach (by simp)).trans (.of_continues (hd5.trans hd6))
  refine (advances_branch hs6 htruth hin.jump hdone.jump).turn hin
    fun c7 s7 hs7 hf7 hreach' => ?_
  exact .pure hs7 ⟨htest.mono hf7 hreach'.now, hdone.mono hf7 hreach'.now,
    howes.reach _ hreach' (by simp)⟩

theorem surrounds_whileLoop (hs : s.Sound I k c) (condition : Expr) :
    Surrounds I k c s (whileLoop condition) 0 True fun c' _ => Settles c c' := by
  have heq : whileLoop condition = _ := funext (whileLoop_eq condition)
  rw [heq]
  refine .before (advances_whileTest hs condition) ?_
  rintro p c1 s1 hs1 - ⟨htest, hdone, howes⟩
  have hnil := List.nil_subset c1.now
  refine (surrounds_loopBody hs1 (hdone.leads hnil (List.Subset.refl _))
    (htest.leads hnil (List.Subset.refl _))).after fun c2 s2 hs2 hf2 hsettl => ?_
  refine ((advances_jump hs2 (htest.mono hf2 hsettl.now).jump).onto
    (hdone.mono hf2 hsettl.now)).mono ?_
  exact fun _ _ _ hreach => howes.reach _ (hreach.after hsettl) (by simp)

/-- The test of a loop, and on with the body, which reads once more what the test has counted. -/
theorem advances_test_bind (hs : s.Sound I k c) {test inside done inRange current : Nat}
    (hat : s.body.draft.current = test) (hass : Assigns s.body.draft.trail current)
    (hcur : c.HasRole current (.int .full)) (hinRange : s.body.draft.Holds c inRange (.int .bit))
    (hin : Reserved c s [test] inside) (hdone : c.Leads (test :: c.now) s.body.draft.tryDepth done)
    {x : Lowering α} {Q : α → Cert → Session → Prop}
    (hx : ∀ c1 s1, s1.Sound I k c1 → Session.Follows k c s c1 s1 → Reaches c inside c1 s1 →
      s1.body.draft.Holds c1 current (.int .full) → Advances I k c1 s1 x Q) :
    Advances I k c s (do
      drafting (Draft.branch inRange inside done)
      drafting (Draft.moveTo inside)
      x) Q := by
  -- the test is recorded to write the counter
  have hnote := sound_note hs hass
  rw [hat] at hnote
  have hle := c.le_note test current
  have hf : Session.Follows k c s (c.note test current) s := .of_le k s hle
  have hin : Reserved (c.note test current) s [test] inside := hin.mono hf rfl
  refine Advances.of_le ?_ hle
  refine (advances_branch hnote ⟨hinRange.1.mono hle, hinRange.2.mono hle rfl (List.suffix_refl _)⟩
    (hin.leads (by rw [hat]; simp) (List.subset_cons_self ..))
    (by rw [hat]; exact hdone.mono hle (List.Subset.refl _))).turn hin
    fun c1 s1 hs1 hf1 hreach => ?_
  refine hx c1 s1 hs1 (hf.trans hf1) ⟨hreach.now, hreach.owed, hreach.current⟩ ?_
  exact (hin.mono hf1 hreach.now).holds hreach.current (p := test) (by simp)
    (hf1.le.2.2.2 (.head _)) (hcur.mono (hle.trans hf1.le))

/-- The registers and blocks of a loop over a range. -/
structure RangeParts where
  current : Nat
  index : Nat
  step : Nat
  test : Nat
  next : Nat
  done : Nat

/-- The body of a loop over a range can be written. -/
structure RangeParts.Ready (p : RangeParts) (c : Cert) (c' : Cert) (s' : Session) :
    Prop where
  current : s'.body.draft.Holds c' p.current (.int .full)
  index : c'.HasRole p.index .cell
  step : c'.HasRole p.step .cell
  test : Reserved c' s' [] p.test
  next : Reserved c' s' [] p.next
  done : Reserved c' s' [] p.done
  owes : Owes c [p.next, p.done] c'

/-- The test of a loop over a range, and on with its body. -/
def rangeTest (loc : Location) (start stop : Expr) : Lowering RangeParts := do
  let start ← start.lower
  let stop ← stop.lower
  let start ← invokeAt loc .toInt [.value start]
  let stop ← invokeAt loc .toInt [.value stop]
  let index ← drafting (Draft.counter (.reg start))
  let limit ← drafting (Draft.counter (.reg stop))
  let step ← drafting (Draft.counter (intOperand 1))
  let down ← drafting (Draft.block "for.down")
  let test ← drafting (Draft.block "for.cond")
  let inside ← drafting (Draft.block "for.body")
  let next ← drafting (Draft.block "for.step")
  let done ← drafting (Draft.block "for.end")
  let ascending ← drafting (Draft.compare .sle ⟨.i64, .reg start⟩ (.reg stop))
  drafting (Draft.branch ascending test down)
  drafting (Draft.moveTo down)
  drafting (Draft.store (.i64 (-1)) (.reg step))
  drafting (Draft.jump test)
  drafting (Draft.moveTo test)
  let current ← drafting (Draft.count index)
  let last ← drafting (Draft.count limit)
  let direction ← drafting (Draft.count step)
  let distance ← drafting (Draft.arith .sub current (.reg last))
  let signed ← drafting (Draft.arith .mul distance (.reg direction))
  let inRange ← drafting (Draft.compare .sle ⟨.i64, .reg signed⟩ (intOperand 0))
  drafting (Draft.branch inRange inside done)
  drafting (Draft.moveTo inside)
  return ⟨current, index, step, test, next, done⟩

theorem rangeLoop_eq (loc : Location) (name : String) (start stop : Expr) (body : Lowering Unit) :
    rangeLoop loc name start stop body = (do
      let p ← rangeTest loc start stop
      inScope do
        let _ ← declareVariable name loc (boxInt p.current)
        inLoop p.done p.next (inScope body)
      drafting (Draft.jump p.next)
      drafting (Draft.moveTo p.next)
      let direction ← drafting (Draft.count p.step)
      drafting (Draft.advance p.index (.reg direction))
      drafting (Draft.jump p.test)
      drafting (Draft.moveTo p.done)) := by
  simp only [rangeLoop, rangeTest, bind_assoc, pure_bind]

section

variable (hs : s.Sound I k c) (loc : Location)

include hs

theorem emits_toInt (hr : s.body.draft.Holds c r .value) :
    Makes I k c s (invokeAt loc .toInt [.value r]) (.int .full) :=
  emits_invokeAt hs loc [.value] rfl (by decide) (.cons hr.gives .nil)

theorem advances_rangeTest (start stop : Expr) :
    Advances I k c s (rangeTest loc start stop) fun p c' s' => p.Ready c c' s' := by
  -- the two ends, then a cell each for the index, the limit and the step
  refine (emits_lower start hs).advances.bind ?_
  rintro start c1 s1 hs1 - ⟨hd1, hst⟩
  refine (emits_lower stop hs1).advances.bind ?_
  rintro stop c2 s2 hs2 - ⟨hd2, hstop⟩
  refine (emits_toInt hs2 loc (hst.mono hd2)).advances.bind ?_
  rintro start c3 s3 hs3 - ⟨hd3, hst⟩
  refine (emits_toInt hs3 loc (hstop.mono hd3)).advances.bind ?_
  rintro stop c4 s4 hs4 - ⟨hd4, hstop⟩
  refine (emits_counter hs4 (hst.mono hd4).gives).advances.bind ?_
  rintro index c5 s5 hs5 - ⟨hd5, hidx⟩
  refine (emits_counter hs5 (hstop.mono hd5).gives).advances.bind ?_
  rintro limit c6 s6 hs6 - ⟨hd6, hlimit⟩
  refine (emits_counter hs6 (.int rfl : s6.body.draft.Gives I c6 (.i64 1) (.int .full))).advances.bind ?_
  rintro step c7 s7 hs7 - ⟨hd7, hstp⟩
  have hd : Draft.Continues c s.body.draft [] c7 s7.body.draft :=
    (hd1.trans (hd2.trans hd3)).trans ((hd4.trans hd5).trans (hd6.trans hd7))
  have hst := hst.mono (hd4.trans (hd5.trans (hd6.trans hd7)))
  have hstop := hstop.mono (hd5.trans (hd6.trans hd7))
  have hidx := hidx.mono (hd6.trans hd7).le
  have hlimit := hlimit.mono hd7.le
  -- five blocks are reserved before any of them is written, and they are owed until then
  refine (advances_block hs7 _ []).bind ?_
  rintro down c8 s8 hs8 - ⟨hdown, hd8⟩
  refine (advances_block hs8 _ []).bind ?_
  rintro test c9 s9 hs9 hf9 ⟨htest, hd9⟩
  refine (advances_block hs9 _ [test]).bind ?_
  rintro inside c10 s10 hs10 hf10 ⟨hin, hd10⟩
  refine (advances_block hs10 _ []).bind ?_
  rintro next c11 s11 hs11 hf11 ⟨hnext, hd11⟩
  refine (advances_block hs11 _ []).bind ?_
  rintro done c12 s12 hs12 hf12 ⟨hdone, hd12⟩
  have hblks : Draft.Continues c7 s7.body.draft [done, next, inside, test, down] c12
      s12.body.draft := hd8.trans (hd9.trans (hd10.trans (hd11.trans hd12)))
  have hdown := hdown.mono (hf9.trans (hf10.trans (hf11.trans hf12)))
    (hd9.trans (hd10.trans (hd11.trans hd12))).now
  have htest := htest.mono (hf10.trans (hf11.trans hf12)) (hd10.trans (hd11.trans hd12)).now
  have hin := hin.mono (hf11.trans hf12) (hd11.trans hd12).now
  have hnext := hnext.mono hf12 hd12.now
  -- the step is 1 so far; a range that goes down sets it to -1 on its way to the test
  refine (emits_compare hs12 _ (hst.mono hblks) (hstop.mono hblks).gives).advances.bind ?_
  rintro ascending c13 s13 hs13 hf13 ⟨hd13, hascending⟩
  have howes : Owes c [done, next, inside, test, down] c13 :=
    .of_continues (hd.trans (hblks.trans hd13))
  have hdown := hdown.mono hf13 hd13.now
  refine (advances_branch hs13 hascending (htest.mono hf13 hd13.now).jump hdown.jump).turn hdown
    fun c15 s15 hs15 hf15 hreach => ?_
  have hf : Session.Follows k c12 s12 c15 s15 := hf13.trans hf15
  have hnow : c15.now = c12.now := hreach.now.trans hd13.now
  have howes := howes.reach [done, next, inside, test] hreach (by simp)
  have hle : c7 ≤ c15 := hblks.le.trans hf.le
  refine (emits_storeCell hs15 (.int rfl : s15.body.draft.Gives I c15 (.i64 (-1)) (.int .full))
    (hstp.mono hle)).advances.bind ?_
  rintro - c16 s16 hs16 hf16 ⟨hd16, -⟩
  have hf := hf.trans hf16
  have hnow : c16.now = c12.now := hd16.now.trans hnow
  refine (advances_jump hs16 (htest.mono hf hnow).jump).turn (htest.mono hf hnow)
    fun c17 s17 hs17 hf17 hreach => ?_
  have hf := hf.trans hf17
  have hnow : c17.now = c12.now := hreach.now.trans hnow
  have howes := (howes.trans (.of_continues hd16)).reach [done, next, inside] hreach (by simp)
  have hle : c7 ≤ c17 := hblks.le.trans hf.le
  -- the test `(index - limit) * step ≤ 0` serves both directions
  refine (emits_count hs17 (hidx.mono hle)).advances.bind ?_
  rintro current c18 s18 hs18 hf18 ⟨hd18, hcur, hass⟩
  refine (emits_count hs18 ((hlimit.mono hle).mono hd18.le)).advances.bind ?_
  rintro last c19 s19 hs19 hf19 ⟨hd19, hlast, -⟩
  refine (emits_count hs19 ((hstp.mono hle).mono (hd18.trans hd19).le)).advances.bind ?_
  rintro direction c20 s20 hs20 hf20 ⟨hd20, hdirection, -⟩
  refine (emits_arith hs20 _ (hcur.mono (hd19.trans hd20)) (hlast.mono hd20)).advances.bind ?_
  rintro distance c21 s21 hs21 hf21 ⟨hd21, hdistance⟩
  refine (emits_arith hs21 _ hdistance (hdirection.mono hd21)).advances.bind ?_
  rintro signed c22 s22 hs22 hf22 ⟨hd22, hsigned⟩
  refine (emits_compare hs22 _ hsigned
    (.int rfl : s22.body.draft.Gives I c22 (.i64 0) (.int .full))).advances.bind ?_
  rintro inRange c23 s23 hs23 hf23 ⟨hd23, hinRange⟩
  have hd : Draft.Continues c18 s18.body.draft [] c23 s23.body.draft :=
    (hd19.trans hd20).trans (hd21.trans (hd22.trans hd23))
  have hd17 : Draft.Continues c17 s17.body.draft [] c23 s23.body.draft := hd18.trans hd
  have hat : s23.body.draft.current = test := hd17.current.trans hreach.current
  have hf : Session.Follows k c12 s12 c23 s23 :=
    hf.trans (hf18.trans (hf19.trans (hf20.trans (hf21.trans (hf22.trans hf23)))))
  have hnow : c23.now = c12.now := hd17.now.trans hnow
  have hdone := hdone.mono hf hnow
  refine advances_test_bind hs23 hat (hass.mono hd.trail.subset) (hcur.1.mono hd.le) hinRange
    (hin.mono hf hnow) (hat ▸ hdone.jump) fun c24 s24 hs24 hf24 hreach hcur => ?_
  have hcell := hle.trans (hd17.le.trans hf24.le)
  exact .pure hs24 ⟨hcur, hidx.mono hcell, hstp.mono hcell,
    (htest.mono hf hnow).mono hf24 hreach.now, (hnext.mono hf hnow).mono hf24 hreach.now,
    hdone.mono hf24 hreach.now, (howes.trans (.of_continues hd17)).reach _ hreach (by simp)⟩

theorem surrounds_rangeLoop (name : String) (start stop : Expr) :
    Surrounds I k c s (rangeLoop loc name start stop) 0 True fun c' _ => Settles c c' := by
  have heq : rangeLoop loc name start stop = _ := funext (rangeLoop_eq loc name start stop)
  rw [heq]
  refine .before (advances_rangeTest hs loc start stop) fun p c1 s1 hs1 _ hp => ?_
  refine Surrounds.after (C := fun x => inScope do
    let _ ← declareVariable name loc (boxInt p.current)
    inLoop p.done p.next (inScope x)) (R := fun c' _ => Settles c1 c')
    (surrounds_scoped (P := True) hs1 ?_) fun c2 s2 hs2 hf2 hsettl => ?_
  · refine .before (advances_declareVariable (P := fun _ _ _ => True) (sound_entered hs1) name loc
      fun s2 hs2 hbody => ?_) ?_
    · have hcur : s2.body.draft.Holds c1 p.current (.int .full) := hbody ▸ hp.current
      exact (emits_boxInt hs2 hcur).mono fun _ _ _ h => ⟨h, trivial⟩
    · rintro _ c3 s3 hs3 hf3 ⟨-, hd3, -⟩
      have hnil := List.nil_subset c3.now
      have hdone : Reserved c3 s3 [] p.done := Reserved.mono (s := entered s1) hp.done hf3 hd3.now
      have hnext : Reserved c3 s3 [] p.next := Reserved.mono (s := entered s1) hp.next hf3 hd3.now
      refine (surrounds_loopBody hs3 (hdone.leads hnil (List.Subset.refl _))
        (hnext.leads hnil (List.Subset.refl _))).mono fun c4 _ h => ?_
      exact (Owes.of_continues hd3).trans h
  · have hnext := hp.next.mono hf2 hsettl.now
    refine (advances_jump hs2 hnext.jump).turn hnext fun c3 s3 hs3 hf3 hreach => ?_
    refine (emits_count hs3 (hp.step.mono (hf2.le.trans hf3.le))).advances.bind ?_
    rintro direction c4 s4 hs4 hf4 ⟨hd4, hdirection, -⟩
    refine (emits_advance hs4 (hp.index.mono (hf2.le.trans (hf3.le.trans hf4.le)))
      hdirection.gives).advances.bind ?_
    rintro - c5 s5 hs5 hf5 ⟨hd5, -⟩
    have hf := hf2.trans (hf3.trans (hf4.trans hf5))
    have hd := hd4.trans hd5
    have hnow : c5.now = c1.now := hd.now.trans (hreach.now.trans hsettl.now)
    refine ((advances_jump hs5 (hp.test.mono hf hnow).jump).onto (hp.done.mono hf hnow)).mono ?_
    intro _ c6 s6 hreach'
    have howes := hp.owes.reach [p.done] (hreach.after hsettl) (by simp)
    exact (howes.trans (.of_continues hd)).reach _ hreach' (by simp)

theorem emits_entryAt (hrecv : c.HasRole receiver .slot)
    (hkeys : ∀ r, keys = some r → c.HasRole r .slot) {position : Nat}
    (hposition : s.body.draft.Holds c position .value) :
    Emits I k c s (entryAt loc receiver keys position) fun p c' d' =>
      d'.Holds c' p.1 .value ∧ d'.Holds c' p.2 .value := by
  cases keys with
  | none =>
    refine (emits_load hs (.slot hrecv)).bind fun sequence c1 s1 hs1 hd1 hsequence => ?_
    have hposition := hposition.mono hd1
    refine (emits_elementAt hs1 loc hsequence hposition).bind fun element c2 s2 hs2 hd2 helement => ?_
    exact .pure hs2 ⟨hposition.mono hd2, helement⟩
  | some keys =>
    refine (emits_load hs (.slot (hkeys keys rfl))).bind fun keys c1 s1 hs1 hd1 hkeys => ?_
    refine (emits_elementAt hs1 loc hkeys (hposition.mono hd1)).bind
      fun key c2 s2 hs2 hd2 hkey => ?_
    refine (emits_load hs2 (.slot (hrecv.mono (hd1.trans hd2).le))).bind
      fun receiver c3 s3 hs3 hd3 hrecv => ?_
    have hkey := hkey.mono hd3
    refine (emits_elementAt hs3 loc hrecv hkey).bind fun element c4 s4 hs4 hd4 helement => ?_
    exact .pure hs4 ⟨hkey.mono hd4, helement⟩

end

/-- The blocks of a walk, and the registers of its position. -/
structure WalkParts where
  index : Nat
  current : Nat
  test : Nat
  next : Nat

/-- The test of a walk, and on with its body. -/
def walkTest (loc : Location) (sequence done : Nat) : Lowering WalkParts := do
  let index ← drafting (Draft.counter (intOperand 0))
  let sequence ← drafting (Draft.load .value (.reg sequence))
  let length ← invokeAt loc .length [.value sequence]
  let test ← drafting (Draft.block "foreach.cond")
  let inside ← drafting (Draft.block "foreach.body")
  let next ← drafting (Draft.block "foreach.step")
  drafting (Draft.jump test)
  drafting (Draft.moveTo test)
  let current ← drafting (Draft.count index)
  let inRange ← drafting (Draft.compare .slt ⟨.i64, .reg current⟩ (.reg length))
  drafting (Draft.branch inRange inside done)
  drafting (Draft.moveTo inside)
  return ⟨index, current, test, next⟩

/-- The variables of a walk. -/
def walkVariables (loc : Location) (receiver : Nat) (keys : Option Nat) (key : Option String)
    (value : String) (current : Nat) : Lowering Unit := do
  let position ← boxInt current
  let p ← entryAt loc receiver keys position
  (match key with
    | some name => do
      let _ ← declareVariable name loc (pure p.1)
    | none => pure ())
  let _ ← declareVariable value loc (pure p.2)

theorem walk_eq (loc : Location) (receiver : Nat) (keys : Option Nat) (key : Option String)
    (value : String) (done : Nat) (body : Lowering Unit) :
    walk loc receiver keys key value done body = (do
      let p ← walkTest loc (keys.getD receiver) done
      inScope do
        walkVariables loc receiver keys key value p.current
        inLoop done p.next (inScope body)
      drafting (Draft.jump p.next)
      drafting (Draft.moveTo p.next)
      drafting (Draft.advance p.index (intOperand 1))
      drafting (Draft.jump p.test)) := by
  cases key <;> simp only [walk, walkTest, walkVariables, bind_assoc, pure_bind]

theorem emits_length (hs : s.Sound I k c) (loc : Location) (hr : s.body.draft.Holds c r .value) :
    Emits I k c s (invokeAt loc .length [.value r]) fun r c' d' =>
      d'.Holds c' r (.int .full) ∧ Assigns d'.trail r :=
  Emits.read (yields_site hs loc) fun _ hplace =>
    emits_call (e := .length) hs rfl (by decide) (.cons hr.gives hplace)

/-- The block `b` is behind from here on. -/
def recalling (c : Cert) (b : Nat) : Cert :=
  { c with now := b :: c.now }

theorem le_recalling (c : Cert) (b : Nat) : c ≤ recalling c b :=
  le_refl c

/-- The body of a walk that begins in the block `b` can be written. -/
structure WalkParts.Ready (p : WalkParts) (c : Cert) (b : Nat) (c' : Cert)
    (s' : Session) : Prop where
  current : s'.body.draft.Holds c' p.current (.int .full)
  index : c'.HasRole p.index .cell
  test : Reserved c' s' [] p.test
  next : Reserved c' s' [] p.next
  owes : Owes (recalling c b) [p.next] c'

theorem advances_walkTest (hs : s.Sound I k c) (loc : Location) {sequence : Nat}
    (hsequence : c.HasRole sequence .slot) (hdone : Reserved c s [] done) :
    Advances I k c s (walkTest loc sequence done) fun p c' s' =>
      p.Ready c s.body.draft.current c' s' := by
  refine (emits_counter hs (.int rfl : s.body.draft.Gives I c (.i64 0) (.int .full))).advances.bind ?_
  rintro index c1 s1 hs1 hf1 ⟨hd1, hidx⟩
  refine (emits_load hs1 (.slot (hsequence.mono hd1.le))).advances.bind ?_
  rintro sequence c2 s2 hs2 hf2 ⟨hd2, hsequence⟩
  refine (emits_length hs2 loc hsequence).advances.bind ?_
  rintro length c3 s3 hs3 hf3 ⟨hd3, hlen, hass⟩
  have hd : Draft.Continues c s.body.draft [] c3 s3.body.draft := hd1.trans (hd2.trans hd3)
  have hdone : c3.Leads c.now s3.body.draft.tryDepth done := by
    have hdone := (hdone.mono (hf1.trans (hf2.trans hf3)) hd.now).leads (List.nil_subset _)
      (List.Subset.refl _)
    rwa [hd.now] at hdone
  -- from here on the block that has computed the length is behind
  obtain ⟨c4, hc4⟩ : ∃ c4, c4 = recalling (c3.note s.body.draft.current length) s.body.draft.current :=
    ⟨_, rfl⟩
  have hle4 : c3 ≤ c4 := hc4 ▸ c3.le_note _ _
  have hs4 : s3.Sound I k c4 := by
    rw [hc4, ← hd.current]
    have hnote := sound_note hs3 hass
    exact hnote.withDraft (le_recalling _ _) hnote.draft.remember
  have hnow4 : c4.now = s.body.draft.current :: c.now := by
    rw [hc4]
    exact congrArg _ hd.now
  have howed4 : c4.owed = c.owed := by
    rw [hc4]
    exact hd.owed
  have howes : Owes (recalling c s.body.draft.current) [] c4 :=
    ⟨hnow4, fun _ hb => .inr (howed4 ▸ hb)⟩
  have hdef : (s.body.draft.current, length) ∈ c4.defs := hc4 ▸ List.mem_cons_self
  refine Advances.of_le ?_ hle4
  refine (advances_block hs4 _ []).bind ?_
  rintro test c5 s5 hs5 hf5 ⟨htest, hd5⟩
  refine (advances_block hs5 _ [test]).bind ?_
  rintro inside c6 s6 hs6 hf6 ⟨hin, hd6⟩
  refine (advances_block hs6 _ []).bind ?_
  rintro next c7 s7 hs7 hf7 ⟨hnext, hd7⟩
  have htest := htest.mono (hf6.trans hf7) (hd6.trans hd7).now
  have hin := hin.mono hf7 hd7.now
  have hblks := hd5.trans (hd6.trans hd7)
  have howes : Owes (recalling c s.body.draft.current) [next, inside, test] c7 :=
    howes.trans (.of_continues hblks)
  refine (advances_jump hs7 htest.jump).turn htest fun c8 s8 hs8 hf8 hreach => ?_
  have hle8 : c3 ≤ c8 := hle4.trans (hblks.le.trans hf8.le)
  have howes := howes.reach [next, inside] hreach (by simp)
  have hlen : s8.body.draft.Holds c8 length (.int .full) := by
    refine ⟨hlen.1.mono hle8, hs8.draft.knows (p := s.body.draft.current) ?_ ?_⟩
    · rw [howes.now]
      exact .head _
    · exact (hblks.le.trans hf8.le).2.2.2 hdef
  have hidx := hidx.mono ((hd2.trans hd3).le.trans hle8)
  refine (emits_count hs8 hidx).advances.bind ?_
  rintro current c9 s9 hs9 hf9 ⟨hd9, hcur, hass⟩
  refine (emits_compare hs9 _ hcur (hlen.mono hd9).gives).advances.bind ?_
  rintro inRange c10 s10 hs10 hf10 ⟨hd10, hinRange⟩
  have hd := hd9.trans hd10
  have hat : s10.body.draft.current = test := hd.current.trans hreach.current
  have hf : Session.Follows k c7 s7 c10 s10 := hf8.trans (hf9.trans hf10)
  have hnow : c10.now = c7.now := hd.now.trans hreach.now
  have howes := howes.trans (.of_continues hd)
  have hout : c10.Leads (test :: c10.now) s10.body.draft.tryDepth done := by
    have hdep : s10.body.draft.tryDepth = s3.body.draft.tryDepth :=
      ((hf5.trans (hf6.trans hf7)).trans hf).tryDepth
    rw [hdep]
    refine hdone.mono (hle8.trans hd.le) ?_
    rw [howes.now]
    exact List.Subset.trans (List.subset_cons_self ..) (List.subset_cons_self ..)
  refine advances_test_bind hs10 hat (hass.mono hd10.trail.subset) (hcur.1.mono hd10.le)
    hinRange (hin.mono hf hnow) hout fun c11 s11 hs11 hf11 hreach hcur => ?_
  exact .pure hs11 ⟨hcur, hidx.mono (hd.le.trans hf11.le),
    (htest.mono hf hnow).mono hf11 hreach.now, (hnext.mono hf hnow).mono hf11 hreach.now,
    howes.reach _ hreach (by simp)⟩

theorem advances_declare (hs : s.Sound I k c) (name : String) (loc : Location)
    (hr : s.body.draft.Holds c r .value) :
    Advances I k c s (declareVariable name loc (pure r)) fun _ c' s' =>
      Draft.Continues c s.body.draft [] c' s'.body.draft := by
  refine (advances_declareVariable (P := fun _ _ _ => True) hs name loc fun s1 hs1 hbody => ?_).mono
    fun _ _ _ h => h.2.1
  have hr : s1.body.draft.Holds c r .value := hbody ▸ hr
  exact .pure hs1 ⟨hr, trivial⟩

theorem advances_walkVariables (hs : s.Sound I k c) (loc : Location)
    (hrecv : c.HasRole receiver .slot) (hkeys : ∀ r, keys = some r → c.HasRole r .slot)
    (key : Option String) (value : String) (hcur : s.body.draft.Holds c current (.int .full)) :
    Advances I k c s (walkVariables loc receiver keys key value current) fun _ c' s' =>
      Draft.Continues c s.body.draft [] c' s'.body.draft := by
  refine (emits_boxInt hs hcur).advances.bind ?_
  rintro position c1 s1 hs1 hf1 ⟨hd1, hposition⟩
  refine (emits_entryAt hs1 loc (hrecv.mono hf1.le) (fun r hr => (hkeys r hr).mono hf1.le)
    hposition).advances.bind ?_
  rintro p c2 s2 hs2 - ⟨hd2, hkey, helement⟩
  have hkey : Advances I k c2 s2 (match key with
      | some name => do
        let _ ← declareVariable name loc (pure p.1)
      | none => pure ()) fun _ c' s' => Draft.Continues c2 s2.body.draft [] c' s'.body.draft := by
    cases key with
    | none => exact .pure hs2 (.refl c2 _)
    | some name => exact (advances_declare hs2 name loc hkey).bind fun _ _ _ hs3 _ h => .pure hs3 h
  refine hkey.bind fun _ c3 s3 hs3 _ hd3 => ?_
  exact (advances_declare hs3 value loc (helement.mono hd3)).bind fun _ _ _ hs4 _ hd4 =>
    .pure hs4 ((hd1.trans hd2).trans (hd3.trans hd4))

theorem sound_forget (hs : s.Sound I k c) (hs' : s'.Sound I k c') (hf : Session.Follows k c s c' s')
    (hnow : c'.now = b :: c.now) : s'.Sound I k { c' with now := c.now } := by
  have hdr : s'.body.draft.Sound I s'.globals k s'.body.draft.tryDepth { c' with now := c.now } := by
    refine hs'.draft.forget (by rw [hnow]; exact List.subset_cons_self ..) fun l hl => ?_
    rw [hf.loops] at hl
    rw [hf.tryDepth]
    exact (hs.draft.loops l hl).mono hf.le (List.Subset.refl _)
  exact hs'.withDraft (le_refl c') hdr

theorem surrounds_walk (hs : s.Sound I k c) (loc : Location) (hrecv : c.HasRole receiver .slot)
    (hkeys : ∀ r, keys = some r → c.HasRole r .slot) (key : Option String) (value : String)
    (hdone : Reserved c s [] done) (hb : Reserved c s [] b) :
    Surrounds I k c s (fun x => do
      walk loc receiver keys key value done x
      drafting (Draft.moveTo b)) 0 True fun c' s' => Reaches c b c' s' := by
  simp only [walk_eq, bind_assoc]
  have hsequence : c.HasRole (keys.getD receiver) .slot := by
    cases keys with
    | none => exact hrecv
    | some r => exact hkeys r rfl
  -- the test block decides between the body and `done`; both still have to be reached
  refine .before (advances_walkTest hs loc hsequence hdone) fun p c1 s1 hs1 hf1 hp => ?_
  refine Surrounds.after (C := fun x => inScope do
    walkVariables loc receiver keys key value p.current
    inLoop done p.next (inScope x)) (R := fun c' _ => Settles c1 c')
    (surrounds_scoped (P := True) hs1 ?_) fun c2 s2 hs2 hf2 hsettl => ?_
  · refine .before (advances_walkVariables (sound_entered hs1) loc (hrecv.mono hf1.le)
      (fun r hr => (hkeys r hr).mono hf1.le) key value hp.current) fun _ c3 s3 hs3 hf3 hd3 => ?_
    have hnext : Reserved c3 s3 [] p.next := Reserved.mono (s := entered s1) hp.next hf3 hd3.now
    -- `done` was reserved before the loop, so that leaving passes no region opened in it
    have hleave : c3.Leads c3.now s3.body.draft.tryDepth done := by
      have hdone := hdone.leads (List.nil_subset c.now) (List.Subset.refl _)
      rw [← hf1.tryDepth] at hdone
      have hdep : s3.body.draft.tryDepth = s1.body.draft.tryDepth := hf3.tryDepth
      rw [hdep]
      refine hdone.mono (hf1.le.trans hf3.le) ?_
      rw [hd3.now, hp.owes.now]
      exact List.subset_cons_self ..
    refine (surrounds_loopBody hs3 hleave (hnext.leads (List.nil_subset _) (List.Subset.refl _))).mono
      fun c4 _ h => ?_
    exact (Owes.of_continues hd3).trans h
  · have hnext := hp.next.mono hf2 hsettl.now
    refine (advances_jump hs2 hnext.jump).turn hnext fun c3 s3 hs3 hf3 hreach => ?_
    refine (emits_advance hs3 (hp.index.mono (hf2.le.trans hf3.le))
      (.int rfl : s3.body.draft.Gives I c3 (.i64 1) (.int .full))).advances.bind ?_
    rintro - c4 s4 hs4 hf4 ⟨hd4, -⟩
    have hf := hf2.trans (hf3.trans hf4)
    have hnow : c4.now = c1.now := hd4.now.trans (hreach.now.trans hsettl.now)
    refine (advances_jump hs4 (hp.test.mono hf hnow).jump).bind fun _ c5 s5 hs5 hf5 hends => ?_
    -- back at the test nothing is owed but what was owed before the loop
    have howes : Owes (recalling c s.body.draft.current) [] c5 :=
      ((hp.owes.reach [] (hreach.after hsettl) (by simp)).trans (.of_continues hd4)).trans
        (.of_ends hends)
    have hf := hf1.trans (hf.trans hf5)
    have hle5 : c5 ≤ { c5 with now := c.now } := le_refl c5
    refine Advances.of_le ?_ hle5
    have hs5 := sound_forget hs hs5 hf howes.now
    have hb : Reserved { c5 with now := c.now } s5 [] b :=
      hb.mono (hf.trans (.of_le k s5 (le_refl c5))) rfl
    refine (advances_moveTo hs5 hends.left hb).mono fun _ c6 s6 hreach' => ?_
    have hsettl : Settles c { c5 with now := c.now } := ⟨rfl, howes.owed⟩
    exact hreach'.after hsettl

/-- The slot of the receiver of a loop over elements, and its blocks. -/
structure EachParts where
  receiver : Nat
  dict : Nat
  done : Nat

/-- The choice between the two walks, and on with the one over an array. -/
def eachTest (loc : Location) (iterable : Expr) : Lowering EachParts := do
  let iterable ← iterable.lower
  let receiver ← drafting Draft.hiddenSlot
  drafting (Draft.store (.value iterable) (.reg receiver))
  let tag ← drafting (Draft.register .i32)
  drafting (Draft.push (.extract tag (.reg iterable) 0))
  let array ← drafting (Draft.block "foreach.array")
  let notArray ← drafting (Draft.block "foreach.not_array")
  let dict ← drafting (Draft.block "foreach.dict")
  let invalid ← drafting (Draft.block "foreach.invalid")
  let done ← drafting (Draft.block "foreach.end")
  let isArray ← drafting (Draft.compare .eq ⟨.i32, .reg tag⟩ (tagOperand .array))
  drafting (Draft.branch isArray array notArray)
  drafting (Draft.moveTo notArray)
  let isDict ← drafting (Draft.compare .eq ⟨.i32, .reg tag⟩ (tagOperand .dict))
  drafting (Draft.branch isDict dict invalid)
  drafting (Draft.moveTo invalid)
  raiseValue loc (← string eachMessage loc)
  drafting (Draft.moveTo array)
  return ⟨receiver, dict, done⟩

/-- The keys of a dict, in a slot. -/
def eachKeys (loc : Location) (receiver : Nat) : Lowering Nat := do
  let whole ← drafting (Draft.load .value (.reg receiver))
  let keys ← invokeAt loc .dictKeys [.value whole]
  let keysSlot ← drafting Draft.hiddenSlot
  drafting (Draft.store (.value keys) (.reg keysSlot))
  return keysSlot

/-- A loop over elements whose body is compiled twice, once for each of the two walks. -/
def eachLoopOf (loc : Location) (key : Option String) (value : String) (iterable : Expr)
    (first second : Lowering Unit) : Lowering Unit := do
  let p ← eachTest loc iterable
  (do walk loc p.receiver none key value p.done first
      drafting (Draft.moveTo p.dict))
  let keys ← eachKeys loc p.receiver
  walk loc p.receiver (some keys) key value p.done second
  drafting (Draft.moveTo p.done)

theorem eachLoop_eq (loc : Location) (key : Option String) (value : String) (iterable : Expr)
    (body : Lowering Unit) :
    eachLoop loc key value iterable body = eachLoopOf loc key value iterable body body := by
  simp only [eachLoop, eachLoopOf, eachTest, eachKeys, bind_assoc, pure_bind]

/-- The walk over an array can be written. -/
structure EachParts.Ready (p : EachParts) (c : Cert) (c' : Cert) (s' : Session) :
    Prop where
  receiver : c'.HasRole p.receiver .slot
  dict : Reserved c' s' [] p.dict
  done : Reserved c' s' [] p.done
  owes : Owes c [p.dict, p.done] c'

theorem emits_tag (hs : s.Sound I k c) {value : Nat} (hval : s.body.draft.Holds c value .value) :
    Emits I k c s (drafting (do
      let r ← Draft.register .i32
      Draft.push (.extract r (.reg value) 0)
      return r)) fun r c' d' => d'.Holds c' r (.int .half) ∧ Assigns d'.trail r := by
  refine emits_writes hs ((Draft.yields_int hs.draft (show _ = Ir.Width.half.ty from rfl)
    (fun _ => rfl) (fun _ => rfl) fun r c' hle hr x hx hstdy => ?_).mono
      fun _ _ ⟨c', hw, hr⟩ => ⟨c', _, hw, hr, hw.assigns (.head _) rfl⟩)
  exact .extract hstdy hr (Draft.Gives.at hval.gives hx hle)

theorem advances_eachTest (hs : s.Sound I k c) (loc : Location) (iterable : Expr) :
    Advances I k c s (eachTest loc iterable) fun p c' s' => p.Ready c c' s' := by
  unfold eachTest
  simp only [register_push_bind]
  refine (emits_lower iterable hs).advances.bind ?_
  rintro iterable c1 s1 hs1 - ⟨hd1, hiterable⟩
  refine (emits_hiddenSlot hs1).advances.bind ?_
  rintro receiver c2 s2 hs2 - ⟨hd2, hrecv⟩
  refine (emits_store hs2 (hiterable.mono hd2) (.slot hrecv)).advances.bind ?_
  rintro - c3 s3 hs3 - ⟨hd3, -⟩
  have hiterable := hiterable.mono (hd2.trans hd3)
  refine (emits_tag hs3 hiterable).advances.bind ?_
  rintro tag c4 s4 hs4 - ⟨hd4, htag, hass⟩
  -- the tag is looked at again where the receiver is no array
  obtain ⟨b, hb⟩ : ∃ b, b = s4.body.draft.current := ⟨_, rfl⟩
  have hs5 := sound_note hs4 hass
  rw [← hb] at hs5
  have hle5 := c4.le_note b tag
  refine Advances.of_le ?_ hle5
  have howes := Owes.of_continues ((hd1.trans hd2).trans (hd3.trans hd4))
  have howes : Owes c [] (c4.note b tag) := ⟨howes.now, howes.owed⟩
  have hrecv := hrecv.mono ((hd3.trans hd4).le.trans hle5)
  have htag : s4.body.draft.Holds (c4.note b tag) tag (.int .half) :=
    ⟨htag.1.mono hle5, htag.2.mono hle5 rfl (List.suffix_refl _)⟩
  refine (advances_block hs5 _ []).bind ?_
  rintro array c6 s6 hs6 - ⟨harr, hd6⟩
  refine (advances_block hs6 _ [b]).bind ?_
  rintro notArray c7 s7 hs7 hf7 ⟨hnotArray, hd7⟩
  refine (advances_block hs7 _ []).bind ?_
  rintro dict c8 s8 hs8 hf8 ⟨hdict, hd8⟩
  refine (advances_block hs8 _ []).bind ?_
  rintro invalid c9 s9 hs9 hf9 ⟨hinvalid, hd9⟩
  refine (advances_block hs9 _ []).bind ?_
  rintro done c10 s10 hs10 hf10 ⟨hdone, hd10⟩
  have hblks : Draft.Continues (c4.note b tag) s4.body.draft
      [done, invalid, dict, notArray, array] c10 s10.body.draft :=
    hd6.trans (hd7.trans (hd8.trans (hd9.trans hd10)))
  have harr := harr.mono (hf7.trans (hf8.trans (hf9.trans hf10)))
    (hd7.trans (hd8.trans (hd9.trans hd10))).now
  have hnotArray := hnotArray.mono (hf8.trans (hf9.trans hf10)) (hd8.trans (hd9.trans hd10)).now
  have hdict := hdict.mono (hf9.trans hf10) (hd9.trans hd10).now
  have hinvalid := hinvalid.mono hf10 hd10.now
  have htag := htag.mono hblks
  refine (emits_compare hs10 _ htag (.int rfl : s10.body.draft.Gives I c10
    ⟨.i32, tagOperand .array⟩ (.int .half))).advances.bind ?_
  rintro isArray c11 s11 hs11 hf11 ⟨hd11, hisArray⟩
  have howes : Owes c [done, invalid, dict, notArray, array] c11 :=
    howes.trans (.of_continues (hblks.trans hd11))
  have hnotArray := hnotArray.mono hf11 hd11.now
  have hoth : c11.Leads (s11.body.draft.current :: c11.now) s11.body.draft.tryDepth notArray := by
    refine hnotArray.leads ?_ (List.subset_cons_self ..)
    rw [hd11.current, hblks.current, hb]
    simp
  refine (advances_branch hs11 hisArray (harr.mono hf11 hd11.now).jump hoth).turn hnotArray
    fun c13 s13 hs13 hf13 hreach => ?_
  have hnotArray := hnotArray.mono hf13 hreach.now
  have hle : c10 ≤ c13 := hf11.le.trans hf13.le
  have htag : s13.body.draft.Holds c13 tag (.int .half) :=
    hnotArray.holds hreach.current (p := b) (by simp)
      (hle.2.2.2 (hblks.le.2.2.2 (.head _))) (htag.1.mono hle)
  have howes := howes.reach [done, invalid, dict, array] hreach (by simp)
  refine (emits_compare hs13 _ htag (.int rfl : s13.body.draft.Gives I c13
    ⟨.i32, tagOperand .dict⟩ (.int .half))).advances.bind ?_
  rintro isDict c14 s14 hs14 hf14 ⟨hd14, hisDict⟩
  have hf := hf11.trans (hf13.trans hf14)
  have hnow : c14.now = c10.now := hd14.now.trans (hreach.now.trans hd11.now)
  have hdict := hdict.mono hf hnow
  have hinvalid := hinvalid.mono hf hnow
  have harr := harr.mono hf hnow
  have hdone := hdone.mono hf hnow
  have hrecv := hrecv.mono (hblks.le.trans hf.le)
  refine (advances_branch hs14 hisDict hdict.jump hinvalid.jump).turn hinvalid
    fun c16 s16 hs16 hf16 hreach => ?_
  have howes := (howes.trans (.of_continues hd14)).reach [done, dict, array] hreach (by simp)
  refine (emits_string hs16 _ loc).advances.bind ?_
  rintro text c17 s17 hs17 hf17 ⟨hd17, htext⟩
  have hf := hf16.trans hf17
  have hnow : c17.now = c14.now := hd17.now.trans hreach.now
  refine (advances_raiseValue hs17 loc htext).turn (harr.mono hf hnow)
    fun c19 s19 hs19 hf19 hreach' => ?_
  have hf := hf.trans hf19
  have hnow := hreach'.now.trans hnow
  exact .pure hs19 ⟨hrecv.mono hf.le, hdict.mono hf hnow, hdone.mono hf hnow,
    (howes.trans (.of_continues hd17)).reach _ hreach' (by simp)⟩

theorem emits_eachKeys (hs : s.Sound I k c) (loc : Location) {receiver : Nat}
    (hrecv : c.HasRole receiver .slot) :
    Emits I k c s (eachKeys loc receiver) fun keys c' _ => c'.HasRole keys .slot := by
  refine (emits_load hs (.slot hrecv)).bind fun whole c1 s1 hs1 _ hwhole => ?_
  refine (emits_invokeAt hs1 loc [.value] rfl (by decide) (.cons hwhole.gives .nil)).bind
    fun keys c2 s2 hs2 _ hkeys => ?_
  refine (emits_hiddenSlot hs2).bind fun keysSlot c3 s3 hs3 hd3 hslot => ?_
  refine (emits_store hs3 (hkeys.mono hd3) (.slot hslot)).bind fun _ c4 s4 hs4 hd4 _ => ?_
  exact .pure hs4 (hslot.mono hd4.le)

section

variable (hs : s.Sound I k c) (loc : Location) (key : Option String) (value : String)

include hs

theorem surrounds_dictWalk {p : EachParts} (hrecv : c.HasRole p.receiver .slot)
    (hdone : Reserved c s [] p.done) :
    Surrounds I k c s (fun x => do
      let keys ← eachKeys loc p.receiver
      walk loc p.receiver (some keys) key value p.done x
      drafting (Draft.moveTo p.done)) 0 True fun c' s' => Reaches c p.done c' s' := by
  refine .before (emits_eachKeys hs loc hrecv).advances ?_
  rintro keys c1 s1 hs1 hf1 ⟨hd1, hkeys⟩
  have hdone := hdone.mono hf1 hd1.now
  refine (surrounds_walk hs1 loc (hrecv.mono hf1.le) (fun r hr => Option.some.inj hr ▸ hkeys)
    key value hdone hdone).mono fun _ _ hreach => ?_
  exact hreach.after (.of_continues hd1)

theorem surrounds_eachFirst
    (iterable : Expr) {second : Lowering Unit} (hsecond : Compiles I second) :
    Surrounds I k c s (eachLoopOf loc key value iterable · second) 0 True fun c' _ =>
      Settles c c' := by
  refine .before (advances_eachTest hs loc iterable) fun p c1 s1 hs1 _ hp => ?_
  refine (surrounds_walk hs1 loc hp.receiver (by simp) key value hp.done hp.dict).after
    fun c2 s2 hs2 hf2 hreach => ?_
  refine ((surrounds_dictWalk hs2 loc key value (hp.receiver.mono hf2.le)
    (hp.done.mono hf2 hreach.now)).nest trivial hsecond).mono fun _ _ _ hreach' => ?_
  exact (hp.owes.reach [p.done] hreach (by simp)).reach _ hreach' (by simp)

theorem surrounds_eachSecond (iterable : Expr) {first : Lowering Unit} (hfst : Compiles I first) :
    Surrounds I k c s (eachLoopOf loc key value iterable first) 0 True fun c' _ => Settles c c' := by
  refine .before (advances_eachTest hs loc iterable) fun p c1 s1 hs1 _ hp => ?_
  refine .before ((surrounds_walk hs1 loc hp.receiver (by simp) key value hp.done hp.dict).nest
    trivial hfst) fun _ c2 s2 hs2 hf2 hreach => ?_
  refine (surrounds_dictWalk hs2 loc key value (hp.receiver.mono hf2.le)
    (hp.done.mono hf2 hreach.now)).mono fun _ _ hreach' => ?_
  exact (hp.owes.reach [p.done] hreach (by simp)).reach _ hreach' (by simp)

end

/-! ## Protected regions -/

/-- The end of a region: its checkpoint is dropped, and on with the handler. -/
def closeRegion (caught done : Nat) : Lowering Unit := do
  drafting (do Draft.exitTry; Draft.callVoid (.entry .tryPop) [])
  drafting (Draft.jump done)
  drafting (Draft.moveTo caught)

/-- The handler of a region. -/
def handling (loc : Location) (name : String) (done : Nat) (handler : Lowering Unit) :
    Lowering Unit := do
  let exception ← invoke .currentException []
  let mark ← string loc.catchMark loc
  let decorated ← operate loc .add mark exception
  inScope do
    let _ ← declareVariable name loc (pure decorated)
    handler
  drafting (Draft.jump done)
  drafting (Draft.moveTo done)

theorem protect_eq (loc : Location) (body : Lowering Unit) (name : String) (handler : Lowering Unit) :
    protect loc body name handler = (do
      let p ← drafting Draft.openRegion
      inScope body
      closeRegion p.1 p.2
      handling loc name p.2 handler) := by
  simp only [protect, closeRegion, handling, Draft.openRegion, drafting_bind, drafting_pure, invoke,
    perform, intOperand, bind_assoc, pure_bind]

section

variable (hs : s.Sound I k c)

include hs

theorem yields_closeRegion {n caught : Nat}
    (hdep : s.body.draft.tryDepth = n + 1) (hloops : ∀ l ∈ s.body.draft.loops, l.tryDepth ≤ n)
    (hcaught : c.Reserves [] n caught) (hdone : c.Reserves [] n done) :
    Yields (closeRegion caught done) s fun _ s' => ∃ c', s'.Sound I k c' ∧ s.Same s' ∧
      Draft.Follows c { s.body.draft with tryDepth := n } c' s'.body.draft ∧
      Reaches c caught c' s' := by
  refine Yields.bind (yields_drafting (Draft.yields_closeRegion (hdep ▸ hs.draft) hdep hloops)) ?_
  rintro _ _ ⟨⟨d1, rfl⟩, hd1, hf1⟩
  have hdepth1 : d1.tryDepth = n := hf1.tryDepth
  have hs1 := hs.withDraft hf1.le (hdepth1 ▸ hd1)
  rw [← hdepth1] at hcaught hdone
  refine Yields.bind (yields_drafting (Draft.yields_jump hs1.draft (Cert.Reserves.leads hdone
    (List.nil_subset _) (List.subset_cons_self ..)) d1.tryDepth)) ?_
  rintro _ _ ⟨⟨d2, rfl⟩, c2, h2⟩
  have hdepth2 : d2.tryDepth = d1.tryDepth := h2.follows.tryDepth
  have hs2 := hs1.withDraft h2.follows.le (hdepth2 ▸ h2.sound)
  have hcaught : c2.Reserves [] d2.tryDepth caught :=
    hdepth2 ▸ hcaught.mono h2.follows.le h2.now
  refine Yields.mono (yields_drafting (Draft.yields_moveTo hs2.draft h2.left hcaught)) ?_
  rintro _ _ ⟨⟨d3, rfl⟩, hd3, hf3, hcur⟩
  refine ⟨c2.settle caught, hs2.withDraft hf3.le (hf3.tryDepth ▸ hd3), ⟨d3, rfl⟩,
    hf1.trans (h2.follows.trans hf3), h2.now, fun b hb => ?_, hcur⟩
  obtain ⟨hmem, hne⟩ := List.mem_filter.mp hb
  exact ⟨by simpa using hne, h2.owed ▸ hmem⟩

theorem yields_openRegion :
    Yields (drafting Draft.openRegion) s fun p t => ∃ c1, Enters I k c s c1 t 1 False ∧
      ∀ c2 t', t'.Sound I k c2 → Session.Follows k c1 t c2 t' → Settles c1 c2 →
        Yields (closeRegion p.1 p.2) t' fun _ s' => ∃ c3, s'.Sound I k c3 ∧
          Session.Follows k c s c3 s' ∧ c2 ≤ c3 ∧ Grows t' s' ∧ Reserved c3 s' [] p.2 ∧
            Owes c [p.2] c3 := by
  refine (yields_drafting (Draft.yields_openRegion hs.draft)).mono ?_
  rintro ⟨caught, done⟩ _ ⟨⟨d, rfl⟩, c1, h⟩
  have hdep : d.tryDepth = s.body.draft.tryDepth + 1 := h.tryDepth
  refine ⟨c1, ⟨hs.withDraft h.follows.le (hdep ▸ h.sound), h.follows.le, hdep, fun _ => rfl,
    Nat.le_refl _, False.elim⟩, fun c2 t ht hf2 hsettl => ?_⟩
  have hloops : t.body.draft.loops = s.body.draft.loops := hf2.loops.trans h.follows.loops
  have hdone := h.rest.mono hf2.le hsettl.now
  refine (yields_closeRegion ht (hf2.tryDepth.trans hdep)
    (fun l hl => (hs.draft.loops l (hloops ▸ hl)).depth) (h.handler.mono hf2.le hsettl.now)
    hdone).mono ?_
  rintro _ _ ⟨c3, hs3, ⟨d3, rfl⟩, hf3, hreach⟩
  have hdepth3 : d3.tryDepth = s.body.draft.tryDepth := hf3.tryDepth
  refine ⟨c3, hs3, ⟨⟨h.follows.le.trans (hf2.le.trans hf3.le), ?_, hf3.tryDepth,
    hf3.loops.trans hloops, fun b => ?_⟩, hf2.inner, hf2.finished, hf2.globals, hf2.definition⟩,
    hf3.le, hf3.grows, ?_, ?_⟩
  · exact hf3.symbol.trans (hf2.symbol.trans h.follows.symbol)
  · exact (h.follows.grows b).trans ((hf2.grows b).trans (hf3.grows b))
  · show c3.Reserves [] d3.tryDepth done
    rw [hdepth3]
    exact hdone.mono hf3.le hreach.now
  · have howes : Owes c [caught, done] c1 := ⟨h.now, fun b hb => by simpa [or_assoc] using h.owed b hb⟩
    exact (howes.trans hsettl).reach _ hreach (by simp)

theorem surrounds_region (rest : Nat → Lowering Unit)
    (hrest : ∀ done c1 s1, s1.Sound I k c1 → Reserved c1 s1 [] done →
      Advances I k c1 s1 (rest done) fun _ c' s' => Reaches c1 done c' s') :
    Surrounds I k c s (fun x => do
      let p ← drafting Draft.openRegion
      inScope x
      closeRegion p.1 p.2
      rest p.2) 1 True fun c' _ => Settles c c' := by
  refine Surrounds.weaken (P := False ∨ True) ?_ fun _ => .inr trivial
  show Surrounds I k c s _ (1 + 0) _ _
  refine Surrounds.enclose (x := drafting Draft.openRegion) (C := fun _ => inScope)
    (y := fun p => closeRegion p.1 p.2 >>= fun _ => rest p.2) ((yields_openRegion hs).mono ?_)
  rintro p t ⟨c1, ht, hclose⟩
  refine ⟨c1, ht, surrounds_inScope ht.sound, fun c2 t' ht' hf' hsettl =>
    (hclose c2 t' ht' hf' hsettl).bind ?_⟩
  rintro _ s3 ⟨c3, hs3, hf3, hle3, hgrows3, hdone, howes⟩
  refine Yields.mono (hrest p.2 c3 s3 hs3 hdone) ?_
  rintro _ s' ⟨c4, hs', hf4, hreach⟩
  exact ⟨c4, hs', hf3.trans hf4, hle3.trans hf4.le, hgrows3.trans hf4.grows,
    howes.reach _ hreach (by simp)⟩

/-- The region of a statement. -/
def region (body : Lowering Unit) : Lowering Nat := do
  let p ← drafting Draft.openRegion
  inScope body
  closeRegion p.1 p.2
  return p.2

theorem advances_region (hbody : Compiles I body) :
    Advances I k c s (region body) fun done c' s' => Reserved c' s' [] done ∧ Owes c [done] c' := by
  refine Yields.bind (yields_openRegion hs) ?_
  rintro p t ⟨c1, ht, hclose⟩
  refine Yields.bind ((surrounds_inScope ht.sound).nest trivial hbody) ?_
  rintro _ t' ⟨c2, ht', hf', hsettl⟩
  refine (hclose c2 t' ht' hf' hsettl).bind ?_
  rintro _ s3 ⟨c3, hs3, hf3, -, -, hdone, howes⟩
  exact .pure ⟨c3, hs3, hf3, hdone, howes⟩

theorem surrounds_handling (loc : Location) (name : String) (hdone : Reserved c s [] done) :
    Surrounds I k c s (handling loc name done) 0 True fun c' s' => Reaches c done c' s' := by
  refine .before (emits_invoke (e := .currentException) hs rfl (by decide) .nil).advances ?_
  rintro exception c1 s1 hs1 hf1 ⟨hd1, hexc⟩
  refine .before (emits_string hs1 _ loc).advances ?_
  rintro mark c2 s2 hs2 hf2 ⟨hd2, hmark⟩
  refine .before (emits_operate hs2 loc .add hmark (hexc.mono hd2)).advances ?_
  rintro decorated c3 s3 hs3 hf3 ⟨hd3, hdecorated⟩
  have hd : Draft.Continues c s.body.draft [] c3 s3.body.draft := hd1.trans (hd2.trans hd3)
  have hdone := hdone.mono (hf1.trans (hf2.trans hf3)) hd.now
  refine Surrounds.after (C := fun x => inScope do
    let _ ← declareVariable name loc (pure decorated)
    x) (R := fun c' _ => Settles c3 c') (surrounds_scoped (P := True) hs3 ?_)
    fun c4 s4 hs4 hf4 hsettl => ?_
  · refine .before (advances_declare (sound_entered hs3) name loc hdecorated)
      fun _ c5 s5 hs5 hf5 hd5 => ?_
    refine ((Surrounds.hole hs5).mono fun _ _ h => (Owes.of_continues hd5).trans h).weaken fun _ => ?_
    have hinn := hf5.inner
    intro heq
    rw [heq] at hinn
    cases hinn
  · have hdone := hdone.mono hf4 hsettl.now
    refine ((advances_jump hs4 hdone.jump).onto hdone).mono fun _ _ _ hreach => ?_
    exact hreach.after ((Owes.of_continues hd).trans hsettl)

theorem surrounds_guarded (loc : Location) (name : String)
    {handler : Lowering Unit} (hhandler : Compiles I handler) :
    Surrounds I k c s (fun x => protect loc x name handler) 1 True fun c' _ => Settles c c' := by
  simp only [protect_eq]
  exact surrounds_region hs (handling loc name · handler) fun done c1 s1 hs1 hdone =>
    (surrounds_handling hs1 loc name hdone).nest trivial hhandler

theorem surrounds_handler (loc : Location) (name : String) (hbody : Compiles I body) :
    Surrounds I k c s (protect loc body name) 0 True fun c' _ => Settles c c' := by
  have heq : protect loc body name = fun x => (do
      let done ← region body
      handling loc name done x) := by
    funext x
    simp only [protect_eq, region, bind_assoc, pure_bind]
  rw [heq]
  refine .before (advances_region hs hbody) ?_
  rintro done c1 s1 hs1 - ⟨hdone, howes⟩
  exact (surrounds_handling hs1 loc name hdone).mono fun _ _ hreach =>
    howes.reach _ hreach (by simp)

end

end Lowering

end Ember
