import Ember.Proofs.Machine.Invariant

/-!
# Ember — calls, results and raises, side by side

A call puts a frame on what waits, a result goes to the topmost of it, and a raise takes frames away
down to the one whose checkpoint it took. In each case the machines stay in step.

Main result: `deliver_together`.
-/

namespace Ember.Ir

variable {before : List Instr}

theorem Checked.of_suffix {P : List Instr → Instr → Prop} {l : List Instr} {i : Instr}
    (hl : Checked P l) (hsuf : i :: before <:+ l) : P before i := by
  induction l with
  | nil => cases List.eq_nil_of_suffix_nil hsuf
  | cons j rest ih =>
    rcases List.suffix_cons_iff.mp hsuf with heq | hsuf
    · cases heq
      exact hl.1
    · exact ih hl.2 hsuf

theorem Fits.hasRole_setjmp {I : Interface} {G : List String} {k : Convention} {c : Cert}
    {b d p : Nat} {x : Context} (hi : Fits I G k c b x before (.setjmp d p)) :
    c.HasRole d (.int .half) := by
  generalize heq : Instr.setjmp d p = i at hi
  cases hi with
  | setjmp opened role =>
    obtain ⟨rfl⟩ := Option.some.inj (Instr.call.inj heq).1
    exact role
  | _ => simp [Instr.setjmp, Instr.tryPush, Instr.entered] at heq

end Ember.Ir

namespace Ember.Machine

open Ir (Role Convention Cert Context Interface Instr Operand pushes trailOf Opens Fits
  Fills)

variable {α : Type} {slots : Array Value} {c : Checkpoint} {k k' : Convention} {e : Entry}
  {i : Instr} {before : List Instr} {arguments ss : List Scalar} {stack : Stack}
  {base cells n size : Nat} {ρ : Role} {symbol : String} {x : Value}

variable {W : World} {v : View} {a : Activation} {h1 h2 g1 g2 : Host} {spare : List Nat}
  {control rest : List Entry} {roots seg : List Nat} {depth : Nat} {cps : List Checkpoint}
  {S : Machine → Prop}

theorem Standing.fits {x : Context} (hs : Standing W a x before i)
    (hc : a.routine.function.Certified W.interface W.globals (W.kind a) (W.cert a))
    (hb0 : a.block ≠ 0) (hb2 : a.block ≠ 2) :
    Fits W.interface W.globals (W.kind a) (W.cert a) a.block x before i :=
  (hc.fits _ x hb0 hb2 (hs.context hb0 hb2).1).of_suffix hs.suffix

theorem Points.put {l : List Instr} {slots : List Nat} (hp : Points W a (pushes l).reverse slots)
    (hl : Ir.Checked (Opens W.globals (W.kind a) (W.cert a)) l) {r : Nat}
    (hlt : r < a.registers.size) (hr : (W.cert a).HasRole r ρ) (hρ : ρ ≠ .slot) (s : Scalar) :
    Points W (a.put r s) (pushes l).reverse slots := by
  refine hp.congr fun d hd => ?_
  rw [Activation.getElem?_put hlt, if_neg]
  rintro rfl
  rcases mem_pushes hl (List.mem_reverse.mp hd) with ⟨d', heq, hd'⟩ | ⟨g, -, hg⟩
  · cases heq
    exact hρ (hr.unique hd')
  · cases hg

theorem filled_of_ne {b count : Nat} (hfills : Fills b count before)
    (hne : ∀ r cell rest, before ≠ .store (.value r) (.reg cell) :: rest) : Filled v a b count := by
  cases count with
  | zero => exact fun j hj => absurd hj (Nat.not_lt_zero j)
  | succ k =>
    obtain ⟨r, cell, rest, heq, -⟩ := hfills
    exact absurd heq (hne r cell _)

theorem Inside.of_loud (hi : i.isQuiet = false)
    (hraise : ∀ arguments, i ≠ .call none .void (.entry .raise) arguments) :
    Inside W v a (i :: before) where
  filled b n count _ hfills := filled_of_ne hfills fun r cell rest heq => by
    obtain ⟨rfl, -⟩ := List.cons.inj heq
    cases hi
  pointed d b n k rest heq _ := by
    obtain ⟨rfl, -⟩ := List.cons.inj heq
    cases hi
  arguments _ hq := by
    have := hq i (.head _)
    simp [hi] at this
  result r rest heq _ := by
    obtain ⟨rfl, -⟩ := List.cons.inj heq
    cases hi
  calm arguments rest heq := hraise arguments (List.cons.inj heq).1

/-! ## Raises -/

theorem Tower.checkpoint_le (ht : Tower W v control roots depth cps) (hc : c ∈ cps) :
    c.roots ≤ roots.length ∧ c.stack ≤ depth := by
  induction ht with
  | nil => exact absurd hc List.not_mem_nil
  | body below frame main segment resumes waits ih =>
    rcases List.mem_append.mp hc with hc | hc
    · obtain rfl := List.eq_of_mem_replicate hc
      exact ⟨Nat.le_refl _, Nat.le_refl _⟩
    · have := ih hc
      rw [List.length_append]
      omega
  | method below inner above ih =>
    have := ih hc
    omega
  | field below inner making spilled ih | made below inner making spilled ih =>
    have := ih hc
    omega

/-- Hosts after a raise has taken the checkpoint `c`: both stacks are cut, and what they still hold is
kept. -/
structure Fallen (W : World) (v : View) (g1 g2 : Host) (spare : List Nat) (control : List Entry)
    (roots : List Nat) (c : Checkpoint) (cps : List Checkpoint) : Prop
    extends Ground W g1 g2 spare control where
  keeps : v.Keeps (W.view g1 g2) c.stack
  slots : g1.roots.slots.toList = roots.take c.roots
  depth : g1.stack.depth = c.stack
  checkpoints : g1.checkpoints = cps

namespace Fallen

variable {c : Checkpoint}

theorem cut (hf : Fallen W v g1 g2 spare control roots c cps) (hn : c.stack ≤ n) :
    cutStack g1 n = g1 ∧ cutStack g2 n = g2 := by
  have htruncate : ∀ s : Stack, s.depth ≤ n → s.truncate n = s := by
    intro s hs
    unfold Stack.truncate
    rw [Array.take_eq_extract, Array.extract_eq_self_of_le hs]
  have hdep := hf.depth
  constructor
  · unfold cutStack
    rw [htruncate _ (by omega)]
  · unfold cutStack
    rw [htruncate _ (by rw [hf.twin.stack]; omega)]

theorem give (hf : Fallen W v g1 g2 spare (e :: control) roots c cps) :
    Fallen W v g1 g2 (giveBack e.slots spare) control roots c cps :=
  { hf with tenure := hf.tenure.give }

theorem making (hf : Fallen W v g1 g2 spare (e :: control) roots c cps) (he : e.slots = #[])
    (hbody : ∀ a, e ≠ .body a) : Fallen W v g1 g2 spare control roots c cps :=
  { hf with tenure := (Tenure.making he hbody).mp hf.tenure }

theorem lower (hf : Fallen W v g1 g2 spare control (roots ++ seg) c cps)
    (hc : c.roots ≤ roots.length) : Fallen W v g1 g2 spare control roots c cps := by
  refine { hf with slots := ?_ }
  rw [hf.slots, List.take_append_of_le_length hc]

end Fallen

theorem resume_together (hW : W.Sound) (below : Tower W v rest roots a.base cps) (frame : Frame W v a)
    (main : rest = [] ↔ W.kind a = .main)
    (segment : Points W a (pushes a.routine.function.prologue).reverse seg)
    (resumes : Resumes W a cps.length a.resumes) {r : Resume} {older : List Resume}
    (hr : a.resumes = r :: older) {c : Checkpoint}
    (hc : c = ⟨(roots ++ seg).length, a.base + a.routine.layout.words⟩)
    (hf : Fallen W v g1 g2 spare (.body a :: rest) (roots ++ seg) c
      (List.replicate older.length c ++ cps)) (e : Value)
    (hS : ∀ m, m.host.checkpoints = List.replicate older.length c ++ cps →
      Resumed (.body a :: rest) c m → S m) :
    Together W S (unwind e g1 spare (.body a :: rest)) (unwind e g2 spare (.body a :: rest)) := by
  rw [hr] at resumes
  obtain ⟨hdep, ⟨x, p, before, hstanding, hb0, hb2, htries⟩, holder⟩ := resumes
  have hcertified := frame.certified hW
  have hrole : (W.cert a).HasRole r.dest (.int .half) :=
    (hstanding.fits hcertified hb0 hb2).hasRole_setjmp
  have htry : g1.tryDepth = older.length + cps.length := by
    rw [Host.tryDepth, hf.checkpoints, List.length_append, List.length_replicate]
  have htry2 : g2.tryDepth = g1.tryDepth := by rw [Host.tryDepth, hf.twin.checkpoints, Host.tryDepth]
  have hpoint : resumePoint a (g1.tryDepth + 1) = some (r, older) := by
    unfold resumePoint
    rw [hr]
    exact if_pos (by omega)
  -- the function as it stood when the checkpoint was recorded, with the registers that it has now
  let b : Activation := { a with resumes := older, block := r.block, position := r.position }
  have hpost : Posture W g1 g2 b rest x (.tryPush p :: before) (.setjmp r.dest p) roots seg cps
      older.length := by
    have hfr := hf.keeps.frame hW frame (by rw [hc])
    refine ⟨?_, ⟨hfr.routine, hfr.size, hfr.roles, hfr.values⟩, main, ?_, ?_, ?_,
      holder.mono rfl fun _ hr => hr,
      ⟨hstanding.suffix, hstanding.position, hstanding.context, hstanding.known⟩⟩
    · exact below.mono hW (hf.keeps.mono (by rw [hc]; exact Nat.le_add_right _ _))
    · rw [hf.depth, hc]
    · rw [hf.slots, hc, List.take_length]
    · rw [hf.checkpoints, hc]
  obtain ⟨j, hnext⟩ := hpost.put hW hf.toGround rfl rfl hrole (s := .int 1) ⟨1, rfl⟩ nofun
  have hlt := hpost.frame.lt_size hW hrole
  have hone : (b.put r.dest (.int 1)).next.registers[r.dest]? = some (some (.int 1)) := by
    show (b.put r.dest (.int 1)).registers[r.dest]? = _
    rw [Activation.getElem?_put hlt, if_pos rfl]
  have hplace : Place W (W.view g1 g2) (b.put r.dest (.int 1)).next x
      (.setjmp r.dest p :: .tryPush p :: before) cps.length seg older.length := by
    refine .inside hb0 hb2 ?_ (.resumed htries hone) (.of_loud rfl nofun)
    exact Points.put (a := b) segment hcertified.opens hlt hrole nofun _
  have hrun : ∀ g : Host, g.stack = g1.stack → g.tryDepth = g1.tryDepth →
      unwind e g spare (.body a :: rest) =
        .running ⟨{ g with stack := g1.stack }, spare, .body (b.put r.dest (.int 1)).next :: rest⟩ := by
    intro g hstk hdep
    have hdef : resume a r older g = .ok (b.put r.dest (.int 1)).next { g with stack := g1.stack } := by
      have hle : b.next.base + b.next.routine.layout.words ≤ g.stack.depth := by
        rw [hstk]
        exact Nat.le_of_eq hpost.depth.symm
      have hb := hpost.frame
      rw [← hstk]
      exact Frame.define_eq (a := b.next) ⟨hb.routine, hb.size, hb.roles, hb.values⟩ hW hrole
        (.int 1) hle
    rw [unwind, hdep, hpoint]
    simp only [hdef]
  rw [hrun g1 rfl rfl, hrun g2 hf.twin.stack htry2]
  have htenure := (hf.tenure.move (b := b) rfl rfl rfl).put hlt hrole (s := .int 1) nofun
  refine .running ⟨rfl, rfl, { hf.withStack hf.bottom with tenure := htenure }, _, _, _, _, _, _, _, _, _,
    rfl, hnext, hplace⟩ ?_
  refine hS _ hf.checkpoints ⟨a, r, rest, _, List.suffix_refl _, hr, ?_, rfl, rfl, rfl, rfl, rfl, hone, ?_,
    hf.depth⟩
  · show r.depth = g1.tryDepth + 1
    omega
  · show g1.roots.slots.size = c.roots
    rw [← Array.length_toList, hf.slots, hc, List.take_length]

theorem unwind_skip (rest : List Entry) (hf : Fallen W v g1 g2 spare control roots c cps)
    (hresm : a.resumes = []) (hbase : c.stack ≤ a.base) (e : Value) :
    unwind e g1 spare (.body a :: rest) = unwind e g1 (giveBack a.owned spare) rest ∧
      unwind e g2 spare (.body a :: rest) = unwind e g2 (giveBack a.owned spare) rest := by
  obtain ⟨hcut1, hcut2⟩ := hf.cut hbase
  have hnone : ∀ n, resumePoint a n = none := by
    intro n
    unfold resumePoint
    rw [hresm]
  constructor
  · rw [unwind, hnone, hcut1]
  · rw [unwind, hnone, hcut2]

theorem unwind_tower (hW : W.Sound) (ht : Tower W v control roots depth cps)
    {left : List Checkpoint} (hcps : cps = c :: left)
    (hf : Fallen W v g1 g2 spare control roots c left) (e : Value)
    (hS : ∀ m, m.host.checkpoints = left → Resumed control c m → S m) :
    Together W S (unwind e g1 spare control) (unwind e g2 spare control) := by
  -- entries without a resume point are dropped, in both machines alike
  induction ht generalizing spare with
  | nil => cases hcps
  | @body a rest roots seg cps below frame main segment resumes waits ih =>
    cases hr : a.resumes with
    | nil =>
      rw [hr] at hcps
      have hcps : cps = c :: left := hcps
      have hle := below.checkpoint_le (hcps ▸ List.mem_cons_self)
      obtain ⟨h1, h2⟩ := unwind_skip rest hf hr hle.2 e
      rw [h1, h2]
      refine ih hcps (hf.lower hle.1).give fun m hm hresd => ?_
      exact hS m hm (hresd.mono fun _ _ h => h.trans (List.suffix_cons _ _))
    | cons r older =>
      rw [hr] at hcps
      obtain ⟨hc, hleft⟩ := List.cons.inj hcps
      subst hleft
      subst hc
      exact resume_together hW below frame main segment resumes hr rfl hf e hS
  | @method slots rest roots depth top cps below inner above ih =>
    obtain ⟨h1, h2⟩ := hf.cut (below.checkpoint_le (hcps ▸ List.mem_cons_self)).2
    rw [unwind, h1, unwind, h2]
    exact ih hcps hf.give fun m hm hresd =>
      hS m hm (hresd.mono fun _ _ h => h.trans (List.suffix_cons _ _))
  | field below inner making spilled ih | made below inner making spilled ih =>
    obtain ⟨h1, h2⟩ := hf.cut (below.checkpoint_le (hcps ▸ List.mem_cons_self)).2
    rw [unwind, h1, unwind, h2]
    exact ih hcps (hf.making rfl nofun) fun m hm hresd =>
      hS m hm (hresd.mono fun _ _ h => h.trans (List.suffix_cons _ _))

theorem getElem?_truncate (s : Stack) {i : Nat} (hi : i < n) :
    (s.truncate n).words[i]? = s.words[i]? := by
  unfold Stack.truncate
  rw [← Array.getElem?_toList, ← Array.getElem?_toList]
  simp [hi]

theorem Ground.fallen (hg : Ground W h1 h2 spare control) (hle : ∀ c ∈ h1.checkpoints, c.stack ≤ h1.stack.depth)
    {e : Value} (htwin : Host.Twin W.linkage g1 g2) (hraised : Host.Raised e h1 g1)
    (hkept : Host.Kept h1 h2 g1 g2) :
    ∃ c, h1.checkpoints = c :: g1.checkpoints ∧
      Fallen W (W.view h1 h2) g1 g2 spare control h1.roots.slots.toList c g1.checkpoints := by
  obtain ⟨c, hc, hrts, hstk⟩ := hraised.taken
  have hdep := hle c (hc ▸ List.mem_cons_self)
  have hbot : g1.stack.bottom = 0 := by
    rw [hstk]
    exact hg.bottom
  have hslt : g1.roots.slots.toList = h1.roots.slots.toList.take c.roots := by
    rw [hrts]
    simp [RootStack.truncate]
  -- both stacks are cut to what the checkpoint recorded, and the roots that are left were live
  refine ⟨c, hc, ⟨htwin, hbot, ?_, ?_, ?_⟩, ?_, hslt, ?_, rfl⟩
  · rw [hrts]
    have := hg.capacity
    simp [RootStack.truncate]
    omega
  · intro i hi
    rw [← Array.mem_toList_iff, hslt] at hi
    have hi := Array.mem_toList_iff.mp (List.mem_of_mem_take hi)
    obtain ⟨x, hx, hlv⟩ := hg.rooted i hi
    refine ⟨x, ?_, hkept.live x (Host.anchored_of_root hi hx) hlv⟩
    show g1.slots[i]? = some x
    rw [hraised.slots]
    exact hx
  · rw [hraised.slots]
    exact hg.tenure
  · refine W.keeps hg.twin hkept hg.bottom (fun i hi => ?_) (by rw [hraised.slots])
    rw [hstk]
    exact getElem?_truncate _ hi
  · rw [hstk]
    unfold Stack.depth at hdep ⊢
    simp [Stack.truncate]
    omega

theorem andThen_together_of {α : Type} {x : Act α} {Q : α → Heap → Heap → Prop}
    (hx : Host.Alike W.linkage h1 h2 Q (x h1) (x h2))
    (hraise : ∀ e g1 g2, Host.Twin W.linkage g1 g2 → Host.Raised e h1 g1 → Host.Kept h1 h2 g1 g2 →
      Together W S (unwind e g1 spare control) (unwind e g2 spare control))
    {k : α → Host → Progress} (hk : ∀ y g1 g2, Host.Onward W.linkage h1 h2 g1 g2 →
      Q y g1.heap g2.heap → Together W S (k y g1) (k y g2)) :
    Together W S (andThen x h1 spare control k) (andThen x h2 spare control k) := by
  unfold andThen
  generalize x h1 = r1 at hx
  generalize x h2 = r2 at hx
  cases hx with
  | ok onward post => exact hk _ _ _ onward post
  | raise twin raised kept => exact hraise _ _ _ twin raised kept
  | fatal mirror ended =>
    refine .fatal mirror (fun site message he => ?_) ended.balanced
    obtain ⟨hnil, hloc⟩ := ended.uncaught site message he
    exact ⟨ended.frame.checkpoints.trans hnil, hloc⟩
  | overflow console => exact .overflow console
  | left out =>
    obtain ⟨requested, live, limit, g, rfl, -⟩ := out
    exact .left ⟨g, requested, live, limit, rfl⟩
  | right out =>
    obtain ⟨requested, live, limit, g, rfl, -⟩ := out
    exact .right ⟨g, requested, live, limit, rfl⟩

theorem andThen_together (hW : W.Sound) (hp : Poised W h1 h2 spare control) {α : Type} {x : Act α}
    {Q : α → Heap → Heap → Prop} (hx : Host.Alike W.linkage h1 h2 Q (x h1) (x h2))
    (hS : ∀ m, Proceeds h1.checkpoints control m → S m) {k : α → Host → Progress}
    (hk : ∀ y g1 g2, Host.Onward W.linkage h1 h2 g1 g2 → Q y g1.heap g2.heap →
      Together W S (k y g1) (k y g2)) :
    Together W S (andThen x h1 spare control k) (andThen x h2 spare control k) := by
  refine andThen_together_of hx (fun e g1 g2 htwin hraised hkept => ?_) hk
  have hle : ∀ c ∈ h1.checkpoints, c.stack ≤ h1.stack.depth := fun c hc => (hp.tower.checkpoint_le hc).2
  obtain ⟨c, hc, hf⟩ := hp.toGround.fallen hle htwin hraised hkept
  refine unwind_tower hW hp.tower hc hf e fun m hm hresd => hS m (.inr ⟨c, ?_, hresd⟩)
  rw [hc, hm]

/-! ## Calls -/

theorem Frame.defineAll (hW : W.Sound) {c : Cert} (hcert : W.cert a = c) {rs : List Nat}
    {ρs : List Role} (hrs : List.Forall₂ c.HasRole rs ρs)
    (hss : List.Forall₂ (fun ρ s => Holds W v.slots.size a.base (Layout.cellCount a.routine.function) ρ s ∧ ∀ x, s = .value x → v.live x) ρs ss)
    (ha : Frame W v a) (hwds : v.words = stack.words)
    (hdep : a.base + a.routine.layout.words ≤ stack.depth) :
    ∃ registers stack', (∀ h : Host, h.stack = stack →
        a.defineAll rs ss h = .ok { a with registers } { h with stack := stack' }) ∧
      Frame W { v with words := stack'.words } { a with registers } ∧
      stack'.bottom = stack.bottom ∧ stack'.depth = stack.depth ∧
      (∀ i, i < a.base → stack'.words[i]? = stack.words[i]?) ∧
      (∀ r ∈ rs, Activation.Defined { a with registers } r) ∧
      (∀ r, a.Defined r → Activation.Defined { a with registers } r) ∧
      ∀ (r : Nat) s, registers[r]? = some (some s) → a.registers[r]? = some (some s) ∨
        s ∈ ss ∧ ∃ ρ ∈ ρs, c.HasRole r ρ := by
  -- registers are written one after the other, and each write keeps the frame for the next
  induction hrs generalizing a v stack ss with
  | nil =>
    cases hss
    refine ⟨a.registers, stack, ?_, ?_, rfl, rfl, fun _ _ => rfl, (by simp), fun _ h => h,
      fun _ _ h => .inl h⟩
    · rintro h rfl
      rfl
    · rw [← hwds]
      exact ha
  | @cons r ρ rs ρs hr hrs ih =>
    cases hss with
    | @cons _ s _ ss hs hss =>
      have hr : (W.cert a).HasRole r ρ := hcert ▸ hr
      have hlt := ha.lt_size hW hr
      have hput := ha.put hW hr hs.1 hs.2 hwds hdep
      obtain ⟨registers, stack', hrun, hfr, hbot, hdepth', hbelow, hdefd, hkeep, hmem⟩ :=
        ih (v := { v with words := (a.kept r s stack).words }) (a := a.put r s) hcert hss hput rfl (by rw [Activation.kept_depth]; exact hdep)
      refine ⟨registers, stack', ?_, hfr, hbot.trans (a.kept_bottom r s stack),
        hdepth'.trans (a.kept_depth r s stack), ?_, ?_, fun d hd => hkeep d (hd.put hlt s), ?_⟩
      · rintro h rfl
        rw [Activation.defineAll, Host.bind_ok (ha.define_eq hW hr s hdep)]
        exact hrun _ rfl
      · intro i hi
        rw [hbelow i hi, ha.getElem?_kept_below hW stack hi]
      · intro d hd
        rcases List.mem_cons.mp hd with rfl | hd
        · refine hkeep d ⟨s, ?_⟩
          rw [Activation.getElem?_put hlt, if_pos rfl]
        · exact hdefd d hd
      · intro d t hd
        rcases hmem d t hd with hd | ht
        · rw [Activation.getElem?_put hlt] at hd
          split at hd
          · next heq =>
            cases hd
            exact .inr ⟨.head _, ρ, .head _, by rw [heq, ← hcert]; exact hr⟩
          · exact .inl hd
        · obtain ⟨ht, σ, hσ, hrole⟩ := ht
          exact .inr ⟨.tail _ ht, σ, .tail _ hσ, hrole⟩

theorem World.Sound.holds_roles (hW : W.Sound) (hk : k.Names W.interface symbol)
    (hk' : k'.Names W.interface symbol) {P : Scalar → Prop}
    (hss : List.Forall₂ (fun ρ s => Holds W size base cells ρ s ∧ P s) k.roles ss) :
    List.Forall₂ (fun ρ s => Holds W size base cells ρ s ∧ P s) k'.roles ss := by
  have hmark := hk.mark_eq hk'
  cases k with
  | main => cases k' <;> first | exact hss | cases hmark
  | field => cases k' <;> first | exact hss | cases hmark
  | function n =>
    cases k' with
    | function n' =>
      obtain rfl := hW.arities symbol n n' hk hk'
      exact hss
    | _ => cases hmark
  | method n =>
    cases k' with
    | method n' =>
      -- the number of arguments is told by the symbol only if symbols tell it at all
      cases hss with
      | cons hrecv hss =>
        cases hss with
        | cons hargs hss =>
          obtain ⟨⟨slots, hs, hsize, hbnd⟩, hP⟩ := hargs
          refine .cons hrecv (.cons ⟨⟨slots, hs, fun hlinked => ?_, hbnd⟩, hP⟩ hss)
          rw [hsize hlinked, hlinked symbol n n' hk hk']
    | _ => cases hmark

theorem World.Sound.main_iff (hk : k.Names W.interface symbol) (hk' : k'.Names W.interface symbol) :
    k = .main ↔ k' = .main := by
  have hmark := hk.mark_eq hk'
  cases k <;> cases k' <;> simp_all [Convention.mark]

theorem World.Sound.exists_routine (hW : W.Sound) (hk : k.Names W.interface symbol) :
    ∃ r ∈ W.image.routines, W.image.routine symbol = .ok r ∧
      (W.certificate r.function).1.Names W.interface symbol := by
  obtain ⟨r0, hr0, hsym⟩ := hW.defined k symbol hk
  have hsome : (W.image.routines.find? fun r => r.function.symbol == symbol).isSome := by
    rw [List.find?_isSome]
    exact ⟨r0, hr0, by simp [hsym]⟩
  obtain ⟨r, hr⟩ := Option.isSome_iff_exists.mp hsome
  have hmem := List.mem_of_find?_eq_some hr
  have hname : r.function.symbol = symbol := by
    have := List.find?_some hr
    simpa using this
  refine ⟨r, hmem, ?_, hname ▸ (hW.certified r hmem).named⟩
  unfold Image.routine
  rw [hr]

/-- What a call may be given: arguments of the convention of its symbol, among which values are alive
and slots are those of a method that was just prepared, with live values. -/
structure Supplies (W : World) (v : View) (control : List Entry) (k : Convention)
    (arguments : List Scalar) : Prop where
  holds : ∀ base cells, List.Forall₂ (fun ρ s => Holds W v.slots.size base cells ρ s ∧
    ∀ x, s = .value x → v.live x) k.roles arguments
  slots : ∀ slots offset, .ptr (.values slots offset) ∈ arguments → (∀ i ∈ slots, SlotLive v i) ∧
    ∃ depth below, control = .method slots depth :: below
  globals : k = .main → ∀ s ∈ W.globals, ∃ i, W.image.global s = .ok i ∧ SlotLive v i

/-- A frame that was begun on a machine stack, which is left as `stack'`. -/
structure Begun (W : World) (v : View) (stack : Stack) (symbol : String)
    (arguments : List Scalar) (a : Activation) (stack' : Stack) : Prop where
  begins : ∀ h : Host, h.stack = stack →
    Activation.begin W.image symbol arguments h = .ok a { h with stack := stack' }
  names : (W.kind a).Names W.interface symbol
  frame : Frame W { v with words := stack'.words } a
  base : a.base = stack.depth
  fresh : a.resumes = [] ∧ a.block = 0 ∧ a.position = 0
  bottom : stack'.bottom = stack.bottom
  depth : stack'.depth = a.base + a.routine.layout.words
  below : ∀ i, i < stack.depth → stack'.words[i]? = stack.words[i]?
  inputs : ∀ r ∈ (W.cert a).inputs, a.Defined r
  registers : ∀ (r : Nat) s, a.registers[r]? = some (some s) → s ∈ arguments ∧
    ∃ ρ ∈ (W.kind a).roles, (W.cert a).HasRole r ρ
  owned : a.owned = #[]

theorem exists_begun (hW : W.Sound) (hk : k.Names W.interface symbol)
    (hsupp : Supplies W v control k arguments) (stack : Stack) :
    ∃ a stack', Begun W v stack symbol arguments a stack' := by
  obtain ⟨r, hmem, hrout, hnms⟩ := hW.exists_routine hk
  have hcertified := hW.certified r hmem
  let a : Activation :=
    { routine := r, base := stack.depth, registers := Array.replicate r.function.registers.size none }
  -- no register is written when a function begins, so a frame holds of it trivially
  have hempty : ∀ (d : Nat) s, ¬ a.registers[d]? = some (some s) := by
    intro d s hd
    have := Array.mem_of_getElem? hd
    simp [a] at this
  obtain ⟨ρs, hins, hprefix⟩ := hcertified.inputs
  have hρs : ρs = (W.certificate r.function).1.roles := by
    refine hprefix.eq_of_length ?_
    rw [← hins.length_eq]
    exact hcertified.full
  rw [hρs, ← hcertified.parameters] at hins
  have hfr : Frame W { v with words := (stack.reserve r.layout.words).words } a :=
    ⟨hmem, by simp [a], fun d s _ hd => (hempty d s hd).elim, fun d x hd => (hempty d _ hd).elim⟩
  have hdep : (stack.reserve r.layout.words).depth = stack.depth + r.layout.words := by
    simp [Stack.reserve, Stack.depth]
  -- the arguments are then written into the parameters one by one
  obtain ⟨registers, stack', hrun, hframe', hbot, hdepth', hbelow, hdefd, -, hregs⟩ :=
    Frame.defineAll (v := { v with words := (stack.reserve r.layout.words).words }) hW (a := a) rfl
      hins (hW.holds_roles hk hnms (hsupp.holds _ _)) hfr rfl (Nat.le_of_eq hdep.symm)
  refine ⟨{ a with registers }, stack', ?_, hnms, hframe', rfl, ⟨rfl, rfl, rfl⟩, hbot,
    hdepth'.trans hdep, ?_, ?_, ?_, rfl⟩
  · rintro h rfl
    unfold Activation.begin
    rw [hrout, Host.bind_ok (show Host.sound (.ok r) h = .ok r h from rfl),
      Host.get_bind,
      Host.bind_ok (show Host.onStack (fun s => s.reserve r.layout.words) h =
        .ok () { h with stack := h.stack.reserve r.layout.words } from rfl)]
    exact hrun { h with stack := h.stack.reserve r.layout.words } rfl
  · intro i hi
    rw [hbelow i hi]
    exact Array.getElem?_append_left hi
  · intro d hd
    refine hdefd d ?_
    rw [hcertified.parameters]
    exact hd
  · intro d s hd
    rcases hregs d s hd with hd | hs
    · exact (hempty d s hd).elim
    · exact hs

theorem Begun.exists_standing {stack' : Stack}
    (hb : Begun W v stack symbol arguments a stack') (hW : W.Sound) :
    ∃ i, Standing W a {} [] i := by
  obtain ⟨-, hblk, hpos⟩ := hb.fresh
  have henters := (hb.frame.certified hW).enters
  obtain ⟨i, hfst⟩ : ∃ i, [i] <:+ trailOf a.routine.function.blocks 0 := by
    rw [henters]
    exact ⟨_, _, List.dropLast_concat_getLast (List.cons_ne_nil _ _)⟩
  refine ⟨i, hblk ▸ hfst, hpos, fun h => absurd hblk h, fun d hd => ?_⟩
  rcases hd with hd | ⟨j, hj, -⟩ | ⟨h, -⟩ | ⟨h, -⟩
  · exact hb.inputs d hd
  · exact absurd hj List.not_mem_nil
  · exact absurd hblk h
  · exact absurd hblk h

theorem isPassed_of_holds (hρ : ρ ∈ k.roles) {slots : Array Nat} {offset : Nat}
    (hs : Holds W size base cells ρ (.ptr (.values slots offset))) : ρ.isPassed = true := by
  have hroles : ρ ∈ [.argc, .vector, .value, .int .half] ∨ ∃ n, ρ = .arguments n := by
    cases k <;> simp [Convention.roles] at hρ ⊢ <;> grind
  rcases hroles with hρ | ⟨n, rfl⟩
  · simp only [List.mem_cons, List.not_mem_nil, or_false] at hρ
    rcases hρ with rfl | rfl | rfl | rfl <;> simp [Holds] at hs
  · rfl

section

variable (hW : W.Sound) (hp : Poised W h1 h2 spare control) (hk : k.Names W.interface symbol)
  (hmain : control = [] ↔ k = .main) (hsupp : Supplies W (W.view h1 h2) control k arguments)

include hW hp hk hmain hsupp

theorem enter_running :
    ∃ m1 m2, enter W.image symbol arguments h1 spare control = .running m1 ∧
      enter W.image symbol arguments h2 spare control = .running m2 ∧ Running W m1 m2 ∧
      m1.host.checkpoints = h1.checkpoints := by
  obtain ⟨a, stack', hb⟩ := exists_begun hW hk hsupp h1.stack
  obtain ⟨i, hstanding⟩ := hb.exists_standing hW
  -- both hosts have the same stack, so both calls leave the same frame
  have henter : ∀ h : Host, h.stack = h1.stack → enter W.image symbol arguments h spare control =
      .running ⟨{ h with stack := stack' }, spare, .body a :: control⟩ := by
    intro h hstk
    unfold enter andThen
    rw [hb.begins h hstk]
  have hmain' := World.Sound.main_iff hk hb.names
  have hactive : Active W { h1 with stack := stack' } { h2 with stack := stack' } a control {} [] i
      h1.roots.slots.toList [] h1.checkpoints 0 := by
    refine ⟨⟨?_, hb.frame, hmain.trans hmain', hb.depth, ?_, rfl, ?_, hstanding⟩, ?_⟩
    · rw [hb.base]
      exact hp.tower.mono hW (hp.keeps_withStack hb.below)
    · simp
    · rw [hb.fresh.1]
      trivial
    · refine .opening hb.fresh.2.1 .nil hb.fresh.1 ⟨?_, nofun, nofun, ?_⟩
      · intro d ρ slots offset _ _ hd
        exact (hsupp.slots slots offset (hb.registers d _ hd).1).1
      · exact fun h => hsupp.globals (hmain'.mpr h)
  have htenure : Tenure W h1.slots.size spare (.body a :: control) := by
    refine hp.tenure.enter hb.owned fun r ρ slots hρ hr => ?_
    obtain ⟨offset, hr⟩ := hr
    obtain ⟨hmem, σ, hσ, hrole⟩ := hb.registers r _ hr
    obtain rfl := hrole.unique hρ
    exact .inr ⟨isPassed_of_holds hσ (hb.frame.roles r _ _ hr hρ), (hsupp.slots slots offset hmem).2⟩
  exact ⟨_, _, henter h1 rfl, henter h2 hp.twin.stack, ⟨rfl, rfl,
    { hp.withStack (hb.bottom.trans hp.bottom) with tenure := htenure }, _, _, _, _, _, _, _, _, _, rfl,
    hactive⟩, rfl⟩

theorem enter_together (hS : ∀ m, m.host.checkpoints = h1.checkpoints → S m) :
    Together W S (enter W.image symbol arguments h1 spare control)
      (enter W.image symbol arguments h2 spare control) := by
  obtain ⟨m1, m2, henter1, henter2, hrunning, hcheckpoints⟩ := enter_running hW hp hk hmain hsupp
  rw [henter1, henter2]
  exact .running hrunning (hS m1 hcheckpoints)

end

/-! ## Slots -/

/-- Slots that were changed to hold live values, or added. -/
structure Restocks (live : Value → Prop) (slots slots' : Array Value) : Prop where
  size : slots.size ≤ slots'.size
  live : ∀ (j : Nat) x, slots[j]? = some x → live x → ∃ y, slots'[j]? = some y ∧ live y

namespace Restocks

variable {live : Value → Prop} {slots slots' slots'' : Array Value}

theorem refl (slots : Array Value) : Restocks live slots slots :=
  ⟨Nat.le_refl _, fun _ x hx hlv => ⟨x, hx, hlv⟩⟩

theorem trans (h : Restocks live slots slots') (h' : Restocks live slots' slots'') :
    Restocks live slots slots'' := by
  refine ⟨h.size.trans h'.size, fun j x hx hlv => ?_⟩
  obtain ⟨y, hy, hlv⟩ := h.live j x hx hlv
  exact h'.live j y hy hlv

theorem set (slots : Array Value) (i : Nat) (hx : live x) :
    Restocks live slots (slots.setIfInBounds i x) := by
  refine ⟨by simp, fun j y hy hlv => ?_⟩
  rw [Array.getElem?_setIfInBounds]
  split
  · have hlt := (Array.getElem?_eq_some_iff.mp hy).1
    subst i
    rw [if_pos hlt]
    exact ⟨x, rfl, hx⟩
  · exact ⟨y, hy, hlv⟩

theorem push (slots : Array Value) (x : Value) : Restocks live slots (slots.push x) := by
  refine ⟨by simp, fun j y hy hlv => ⟨y, ?_, hlv⟩⟩
  have hlt := (Array.getElem?_eq_some_iff.mp hy).1
  rw [Array.getElem?_push_lt hlt]
  exact (Array.getElem?_eq_getElem hlt).symm.trans hy

end Restocks

section

variable {live : Value → Prop} {slots : Array Value}

theorem store_eq {i : Nat} (hi : i < slots.size) (x : Value) (h : Host) (hslt : h.slots = slots) :
    Host.store i x h = .ok () { h with slots := slots.setIfInBounds i x } := by
  unfold Host.store
  rw [hslt, if_pos hi]

theorem takeSlot_eq (hdefault : live default) (hspare : ∀ i ∈ spare, i < slots.size) :
    ∃ slot spare' slots', (∀ h : Host, h.slots = slots →
        takeSlot spare h = .ok (slot, spare') { h with slots := slots' }) ∧
      slots'[slot]? = some default ∧ Restocks live slots slots' ∧
      Drawn slots.size slots'.size spare spare' [slot] := by
  cases spare with
  | nil =>
    refine ⟨slots.size, [], slots.push default, ?_, by simp, .push _ _, [slots.size], by simp⟩
    rintro h rfl
    rfl
  | cons i rest =>
    have hi := hspare i (.head _)
    refine ⟨i, rest, slots.setIfInBounds i default, fun h hslt => ?_, ?_, .set _ _ hdefault,
      [], by simp⟩
    · exact Host.bind_ok (store_eq hi default h hslt)
    · rw [Array.getElem?_setIfInBounds_self_of_lt hi]

theorem takeSlots_eq (hdefault : live default) (n : Nat) (taken : Array Nat)
    (hspare : ∀ i ∈ spare, i < slots.size) :
    ∃ added spare' slots', (∀ h : Host, h.slots = slots →
        takeSlots n spare taken h = .ok (taken ++ added, spare') { h with slots := slots' }) ∧
      added.size = n ∧ (∀ i ∈ added, ∃ x, slots'[i]? = some x ∧ live x) ∧
      Restocks live slots slots' ∧ Drawn slots.size slots'.size spare spare' added.toList := by
  induction n generalizing spare taken slots with
  | zero =>
    refine ⟨#[], spare, slots, ?_, rfl, nofun, .refl _, .refl _ _⟩
    rintro h rfl
    rw [Array.append_empty]
    rfl
  | succ n ih =>
    obtain ⟨slot, spare1, slots1, htake, hslot, hrestocks1, hdrawn1⟩ := takeSlot_eq hdefault hspare
    obtain ⟨added, spare2, slots2, hrest, hsize, hlv, hrestocks2, hdrawn2⟩ :=
      ih (taken.push slot) fun i hi => hdrawn1.lt hspare hrestocks1.size (List.mem_append_right _ hi)
    refine ⟨#[slot] ++ added, spare2, slots2, fun h hslt => ?_, by simp [hsize, Nat.add_comm], ?_,
      hrestocks1.trans hrestocks2, by simpa using hdrawn1.trans hdrawn2 hrestocks1.size hrestocks2.size⟩
    · rw [takeSlots, Host.bind_ok (htake h hslt), ← Array.append_assoc, Array.append_singleton]
      exact hrest _ rfl
    · intro i hi
      rcases Array.mem_append.mp hi with hi | hi
      · obtain rfl : i = slot := by simpa using hi
        exact hrestocks2.live i _ hslot hdefault
      · exact hlv i hi

theorem takeValues_eq (hdefault : live default) {vs : List Value} (hvs : ∀ x ∈ vs, live x)
    (taken : Array Nat) (hspare : ∀ i ∈ spare, i < slots.size) :
    ∃ added spare' slots', (∀ h : Host, h.slots = slots →
        takeValues vs spare taken h = .ok (taken ++ added, spare') { h with slots := slots' }) ∧
      added.size = vs.length ∧ (∀ i ∈ added, ∃ x, slots'[i]? = some x ∧ live x) ∧
      Restocks live slots slots' ∧ Drawn slots.size slots'.size spare spare' added.toList := by
  induction vs generalizing spare taken slots with
  | nil =>
    refine ⟨#[], spare, slots, ?_, rfl, nofun, .refl _, .refl _ _⟩
    rintro h rfl
    rw [Array.append_empty]
    rfl
  | cons x vs ih =>
    obtain ⟨slot, spare1, slots1, htake, hslot, hrestocks1, hdrawn1⟩ := takeSlot_eq hdefault hspare
    have hlt := (Array.getElem?_eq_some_iff.mp hslot).1
    have hx := hvs x (.head _)
    have hrestocks2 : Restocks live slots (slots1.setIfInBounds slot x) :=
      hrestocks1.trans (.set _ _ hx)
    rw [← show (slots1.setIfInBounds slot x).size = slots1.size by simp] at hdrawn1
    obtain ⟨added, spare2, slots2, hrest, hsize, hlv, hrestocks3, hdrawn2⟩ :=
      ih (fun y hy => hvs y (.tail _ hy)) (taken.push slot) fun i hi =>
        hdrawn1.lt hspare hrestocks2.size (List.mem_append_right _ hi)
    refine ⟨#[slot] ++ added, spare2, slots2, fun h hslt => ?_, by simp [hsize, Nat.add_comm], ?_,
      hrestocks2.trans hrestocks3, by simpa using hdrawn1.trans hdrawn2 hrestocks2.size hrestocks3.size⟩
    · rw [← Array.append_assoc, Array.append_singleton, takeValues, Host.bind_ok (htake h hslt)]
      exact (Host.bind_ok (store_eq hlt x _ rfl)).trans (hrest _ rfl)
    · intro i hi
      rcases Array.mem_append.mp hi with hi | hi
      · obtain rfl : i = slot := by simpa using hi
        exact hrestocks3.live i x (Array.getElem?_setIfInBounds_self_of_lt hlt) hx
      · exact hlv i hi

end

theorem Ground.withSlots (hg : Ground W h1 h2 spare control)
    (hslt : Restocks (W.view h1 h2).live h1.slots slots) :
    Ground W { h1 with slots } { h2 with slots } spare control := by
  have hrooted : ∀ i ∈ h1.roots.slots, SlotLive (W.view { h1 with slots } { h2 with slots }) i := by
    intro i hi
    obtain ⟨x, hx, hlv⟩ := hg.rooted i hi
    exact hslt.live i x hx hlv
  refine ⟨?_, hg.bottom, hg.capacity, hrooted, hg.tenure.mono hslt.size⟩
  exact hg.twin.change ⟨rfl, rfl, rfl, rfl⟩ ⟨rfl, rfl, rfl, rfl⟩ rfl hg.twin.roots hg.twin.stack
    hg.twin.checkpoints hg.twin.arguments (fun i hi => (hrooted i hi).lt) hg.bottom

theorem Ground.keeps_withSlots (hg : Ground W h1 h2 spare control)
    (hslt : Restocks (W.view h1 h2).live h1.slots slots) (depth : Nat) :
    (W.view h1 h2).Keeps (W.view { h1 with slots } { h2 with slots }) depth :=
  W.keeps hg.twin (.of_heap rfl rfl) hg.bottom (fun _ _ => rfl) hslt.size

/-! ## Methods and constructions -/

theorem live_default (W : World) (h1 h2 : Host) : (W.view h1 h2).live default :=
  ⟨trivial, trivial⟩

theorem invoke_together (hW : W.Sound) (hp : Poised W h1 h2 spare control) (hne : control ≠ [])
    {m : Method} (hm : W.linkage.method m) {target : Value} {arguments : List Value}
    (harity : m.arity = arguments.length) (htgt : (W.view h1 h2).live target)
    (hargs : ∀ x ∈ arguments, (W.view h1 h2).live x)
    (hS : ∀ m, m.host.checkpoints = h1.checkpoints → S m) :
    Together W S (invoke W.image m target arguments h1 spare control)
      (invoke W.image m target arguments h2 spare control) := by
  obtain ⟨n, hmeth, hn⟩ := hm
  obtain ⟨added, spare', slots, htake, hsize, hlv, hrest', hdrawn⟩ :=
    takeValues_eq (live_default W h1 h2) hargs #[] fun _ => hp.tenure.spare_lt
  rw [Array.empty_append] at htake
  obtain ⟨stack, hpush⟩ : ∃ stack, h1.stack.pushValues (target :: arguments) = stack := ⟨_, rfl⟩
  have hbot : stack.bottom = 0 := by
    rw [← hpush, (Host.pushValues_words h1.stack _).2]
    exact hp.bottom
  have hdep : stack.depth = h1.stack.depth + 2 * (added.size + 1) := by
    rw [← hpush, Host.depth_pushValues, hsize, List.length_cons]
  have hwds : ∀ i, i < h1.stack.depth → stack.words[i]? = h1.stack.words[i]? := by
    intro i hi
    rw [← hpush, (Host.pushValues_words h1.stack _).1]
    exact Array.getElem?_append_left hi
  have hgrd : Ground W { h1 with stack, slots } { h2 with stack, slots } spare'
      (.method added h1.stack.depth :: control) :=
    { (hp.toGround.withStack hbot).withSlots hrest' with
      tenure := hp.tenure.take hdrawn hrest'.size _ }
  -- the stack has grown and slots were added, so that what lies below stands as it did
  have htower : Tower W (W.view { h1 with stack, slots } { h2 with stack, slots }) control
      h1.roots.slots.toList h1.stack.depth h1.checkpoints := by
    refine hp.tower.mono hW (W.keeps hp.twin (.of_heap rfl rfl) hp.bottom hwds hrest'.size)
  have hpoised : Poised W { h1 with stack, slots } { h2 with stack, slots } spare'
      (.method added h1.stack.depth :: control) :=
    ⟨hgrd, .method htower hne hdep⟩
  have hinvoke : ∀ h : Host, h.stack = h1.stack → h.slots = h1.slots →
      invoke W.image m target arguments h spare control = enter W.image m.code
        [.value target, .ptr (.values added 0), .int (Int64.ofNat arguments.length)]
        { h with stack, slots } spare' (.method added h1.stack.depth :: control) := by
    intro h hstk hslt
    have htake := htake { h with stack } hslt
    unfold invoke andThen
    simp only [hstk, hpush, htake]
  rw [hinvoke h1 rfl rfl, hinvoke h2 hp.twin.stack hp.twin.slots]
  refine enter_together hW hpoised (k := .method n) hmeth (by simp) ?_ hS
  refine ⟨fun base cells => ?_, fun l offset hl => ?_, nofun⟩
  · refine .cons ⟨⟨target, rfl⟩, ?_⟩ (.cons ⟨⟨added, rfl, fun _ => ?_, fun i hi => ?_⟩, nofun⟩
      (.cons ⟨⟨_, rfl⟩, nofun⟩ .nil))
    · rintro x hx
      cases hx
      exact htgt
    · rw [hsize, ← harity, hn]
    · exact SlotLive.lt (v := W.view { h1 with stack, slots } { h2 with stack, slots }) (hlv i hi)
  · have hl : l = added := by
      simp at hl
      exact hl.1
    subst hl
    exact ⟨hlv, _, _, rfl⟩

theorem Ground.cut (hg : Ground W h1 h2 spare control) (hW : W.Sound)
    (ht : Tower W (W.view h1 h2) control h1.roots.slots.toList depth h1.checkpoints)
    (hdep : depth ≤ h1.stack.depth) :
    Poised W (cutStack h1 depth) (cutStack h2 depth) spare control := by
  have hstk : (h1.stack.truncate depth).depth = depth := by
    unfold Stack.depth at hdep ⊢
    simp [Stack.truncate, hdep]
  unfold cutStack
  rw [hg.twin.stack]
  refine ⟨hg.withStack hg.bottom, ?_⟩
  show Tower W _ control h1.roots.slots.toList (h1.stack.truncate depth).depth h1.checkpoints
  rw [hstk]
  exact ht.mono hW (hg.keeps_withStack fun i hi => getElem?_truncate _ hi)

theorem Proceeds.mono {control' : List Entry} {m : Machine} (hm : Proceeds cps control m)
    (hctl : ∀ a rest, .body a :: rest <:+ control → .body a :: rest <:+ control') :
    Proceeds cps control' m := by
  rcases hm with hm | ⟨c, hc, hm⟩
  · exact .inl hm
  · exact .inr ⟨c, hc, hm.mono hctl⟩

theorem suffix_of_cons (he : ∀ a, e ≠ .body a) (hs : .body a :: rest <:+ e :: control) :
    .body a :: rest <:+ control := by
  rcases List.suffix_cons_iff.mp hs with heq | hs
  · exact absurd (List.cons.inj heq).1.symm (he a)
  · exact hs

theorem Poised.made {c : Host.Construction} (hp : Poised W h1 h2 spare (.made c :: control)) :
    Tower W (W.view h1 h2) control h1.roots.slots.toList c.depth h1.checkpoints ∧ control ≠ [] ∧
      Host.Making W.linkage h1.heap h2.heap c ∧ Spilled (W.view h1 h2) c ∧
      h1.stack.depth = c.depth + 2 * (c.arguments.length + 1) := by
  obtain ⟨hgrd, htower⟩ := hp
  generalize h1.stack.depth = depth at htower
  cases htower with
  | made below inner making spilled => exact ⟨below, inner, making, spilled, rfl⟩

theorem Poised.made_of_field {c : Host.Construction} {f : Field}
    (hp : Poised W h1 h2 spare (.field c f :: control)) : Poised W h1 h2 spare (.made c :: control) := by
  obtain ⟨hgrd, htower⟩ := hp
  refine ⟨Ground.made.mpr (Ground.field.mp hgrd), ?_⟩
  generalize h1.stack.depth = depth at htower ⊢
  cases htower with
  | field below inner making spilled => exact .made below inner making spilled

/-- A construction goes on with its next initializer, with the method `init` or with its result. -/
theorem advance_together (hW : W.Sound) {c : Host.Construction}
    (hp : Poised W h1 h2 spare (.made c :: control))
    (hS : ∀ m, Proceeds h1.checkpoints control m → S m) {k : Value → Host → Progress}
    (hk : ∀ g1 g2, Poised W g1 g2 spare control → (W.view g1 g2).live c.receiver →
      g1.checkpoints = h1.checkpoints → Together W S (k c.receiver g1) (k c.receiver g2)) :
    Together W S (advance W.image c h1 spare control k) (advance W.image c h2 spare control k) := by
  obtain ⟨below, inner, making, spilled, hdep⟩ := hp.made
  unfold advance
  cases hremaining : c.remaining with
  | cons f more =>
    have hfield : W.linkage.field f := making.remaining f (hremaining ▸ List.mem_cons_self)
    have hmk : Host.Making W.linkage h1.heap h2.heap { c with remaining := more } :=
      ⟨making.made, making.arguments, fun g hg =>
        making.remaining g (hremaining ▸ List.mem_cons_of_mem _ hg)⟩
    have hpoised : Poised W h1 h2 spare (.field { c with remaining := more } f :: control) := by
      refine ⟨Ground.field.mpr (Ground.made.mp hp.toGround), ?_⟩
      rw [hdep]
      exact .field (c := { c with remaining := more }) below inner hmk spilled
    refine enter_together hW hpoised (k := .field) hfield (by simp) ?_ fun m hm => hS m (.inl hm)
    refine ⟨fun base cells => .cons ⟨⟨c.receiver, rfl⟩, fun x hx => ?_⟩ .nil, by simp, nofun⟩
    cases hx
    exact making.receiver
  | nil =>
    have hconclude := Host.alike_conclude hp.twin (making.cls hp.twin.heaps) making.receiver
    have hmade : ∀ a, Entry.made c ≠ .body a := nofun
    refine andThen_together hW hp hconclude (fun m hm => hS m (hm.mono fun _ _ => suffix_of_cons hmade))
      fun m g1 g2 honw hm => ?_
    have hp := hp.onward hW honw
    obtain ⟨below, inner, making, spilled, hdep⟩ := hp.made
    have hcheckpoints := honw.frame.checkpoints
    cases m with
    | some m =>
      obtain ⟨hmeth, harity⟩ := hm.1 m rfl
      refine invoke_together hW hp (by simp) hmeth harity making.receiver making.arguments
        fun m hm => hS m (.inl (hm.trans hcheckpoints))
    | none =>
      -- the result is handed on, on the stack as it was before the construction
      exact hk (cutStack g1 c.depth) (cutStack g2 c.depth)
        ((Ground.made.mp hp.toGround).cut hW below (by omega)) making.receiver hcheckpoints

/-! ## Results -/

theorem resume_waiting (hW : W.Sound) (hp : Poised W h1 h2 spare (.body a :: rest))
    (hx : (W.view h1 h2).live x) (hS : ∀ m, m.host.checkpoints = h1.checkpoints → S m) :
    Together W S (deliver W.image (.value x) h1 spare (.body a :: rest))
      (deliver W.image (.value x) h2 spare (.body a :: rest)) := by
  obtain ⟨hgrd, htower⟩ := hp
  generalize hdep : h1.stack.depth = depth at htower
  generalize hslt : h1.roots.slots.toList = slots at htower
  generalize hcps : h1.checkpoints = checkpoints at htower
  cases htower with
  | @body _ _ roots seg cps below frame main segment resumes waits =>
    obtain ⟨y, before, d, ty, callee, arguments, hstanding, hb0, hb2, hstdy, hcalm, htries, hawaits,
      hrole⟩ := waits
    have hpost : Posture W h1 h2 a rest y before (.call (some d) ty callee arguments) roots seg cps
        a.resumes.length :=
      ⟨below, frame, main, hdep, hslt, hcps, resumes, hstanding⟩
    obtain ⟨j, hnext⟩ := hpost.put hW hgrd rfl rfl hrole (s := .value x) ⟨x, rfl⟩ fun y hy =>
      Scalar.value.inj hy ▸ hx
    have hlt := frame.lt_size hW hrole
    have hplace : ∀ v, Place W v (a.put d (.value x)).next y
        (.call (some d) ty callee arguments :: before) cps.length seg a.resumes.length := by
      intro v
      refine .inside hb0 hb2 (segment.put (frame.certified hW).opens hlt hrole (by simp) _)
        (.steady (hstdy.cons hcalm) ?_) (.of_loud rfl (by simp))
      exact (Instr.tries_of_isCalm hcalm _).trans htries
    have hrun : ∀ h : Host, h.stack = h1.stack →
        deliver W.image (.value x) h spare (.body a :: rest) =
          .running ⟨{ h with stack := a.kept d (.value x) h1.stack }, spare,
            .body (a.put d (.value x)).next :: rest⟩ := by
      intro h hstk
      rw [deliver, hawaits, Activation.defineOption,
        frame.define_eq hW hrole _ (by rw [hstk, hdep]), hstk]
    rw [hrun h1 rfl, hrun h2 hgrd.twin.stack]
    refine .running ⟨rfl, rfl, hgrd.put hlt hrole (by simp), ?_⟩ (hS _ rfl)
    exact ⟨_, _, _, _, _, _, _, _, _, rfl, hnext, hplace _⟩

theorem deliver_together (hW : W.Sound) (hp : Poised W h1 h2 spare control) (hne : control ≠ [])
    (hx : (W.view h1 h2).live x) (hS : ∀ m, Proceeds h1.checkpoints control m → S m) :
    Together W S (deliver W.image (.value x) h1 spare control)
      (deliver W.image (.value x) h2 spare control) := by
  -- the value passes through calls and constructions down to the next activation
  induction control generalizing h1 h2 spare x with
  | nil => exact absurd rfl hne
  | cons entry rest ih =>
    cases entry with
    | body a => exact resume_waiting hW hp hx fun m hm => hS m (.inl hm)
    | method slots depth =>
      obtain ⟨hgrd, htower⟩ := hp
      cases htower with
      | method below inner above =>
        refine ih (hgrd.give.cut hW below (by omega)) inner hx fun m hm => ?_
        exact hS m (hm.mono fun _ _ h => h.trans (List.suffix_cons _ _))
    | field c f =>
      have hp : Poised W h1 h2 spare (.made c :: rest) := hp.made_of_field
      obtain ⟨-, inner, making, -, -⟩ := hp.made
      have hassign := Host.alike_assign hp.twin (making.fields hp.twin.heaps) hx f
      have hmade : ∀ a, Entry.made c ≠ .body a := nofun
      have hproc : ∀ m, Proceeds h1.checkpoints rest m → S m := fun m hm =>
        hS m (hm.mono fun _ _ h => h.trans (List.suffix_cons _ _))
      refine andThen_together hW hp hassign
        (fun m hm => hproc m (hm.mono fun _ _ => suffix_of_cons hmade)) fun _ g1 g2 honw _ => ?_
      have hcheckpoints := honw.frame.checkpoints
      refine advance_together hW (hp.onward hW honw) (fun m hm => hproc m (hcheckpoints ▸ hm))
        fun k1 k2 hk hrecv hk1 => ?_
      exact ih hk inner hrecv fun m hm => hproc m (hcheckpoints ▸ hk1 ▸ hm)
    | made c =>
      obtain ⟨below, inner, making, spilled, hdep⟩ := hp.made
      have hgrd := Ground.made.mp hp.toGround
      refine ih (hgrd.cut hW below (by omega)) inner making.receiver fun m hm => ?_
      exact hS m (hm.mono fun _ _ h => h.trans (List.suffix_cons _ _))

end Ember.Machine
