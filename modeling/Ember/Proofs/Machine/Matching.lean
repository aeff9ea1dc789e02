import Ember.Proofs.Machine.Raises
import Ember.Proofs.Machine.Safety

/-!
# Ember — raises and the functions that they resume

Checkpoints belong to functions. Each open checkpoint has its resume point in one of the functions in
progress, and a function has as many of them as protected bodies enclose the statement at which it
stands. So a raise resumes the function that opened the checkpoint it takes.

Main result: `raises_matched`.
-/

namespace Ember.Ir

variable {p : Nat}

variable {I : Interface} {G : List String} {k : Convention} {c : Cert} {b : Nat} {x : Context}
  {before rest : List Instr} {i : Instr}

theorem Fits.before_setjmp {d : Nat} (hi : Fits I G k c b x before (.setjmp d p)) :
    ∃ rest, before = .tryPush p :: rest := by
  generalize heq : Instr.setjmp d p = i at hi
  cases hi with
  | setjmp opened role =>
    obtain ⟨-, -, -, hp⟩ := Instr.call.inj heq
    cases hp
    exact ⟨_, opened⟩
  | _ => simp [Instr.setjmp, Instr.tryPush, Instr.entered] at heq

theorem Fits.setjmp_of_tryPush (hlv : x.live = true)
    (hi : Fits I G k c b x (.tryPush p :: rest) i) : ∃ d, i = .setjmp d p := by
  have hstdy : ¬ Steady (.tryPush p :: rest) := id
  cases hi with
  | setjmp opened =>
    cases opened
    exact ⟨_, rfl⟩
  | loadArgument _ quiet => cases quiet _ (.head _)
  | entered armed => cases armed
  | choose tested => cases tested
  | raised raise => cases raise
  | dead unreached =>
    rw [hlv] at unreached
    cases unreached
  | _ => exact absurd ‹Steady _› hstdy

end Ember.Ir

namespace Ember.Machine

open Ir (Instr Steady)

variable {c : Checkpoint} {g : Host} {i : Instr} {cps left : List Checkpoint} {control : List Entry}
  {roots : List Nat} {m₁ : Machine} {below depth n : Nat} {e : Value} {v : View}

variable {p : Program} {annotate : Bool} {m : Ir.Module} {config : Config} {console : Console}
  {h : Host} {W : World} {a : Activation} {rest : List Entry}

/-! ## Resume points -/

/-- The depths of the resume points of what is in progress, innermost first. -/
def resumeDepths : List Entry → List Nat
  | [] => []
  | .body a :: rest => a.resumes.map Resume.depth ++ resumeDepths rest
  | .method .. :: rest | .field .. :: rest | .made _ :: rest => resumeDepths rest

/-- A function has opened a checkpoint and is about to record its resume point. -/
def Arming (m : Machine) : Prop :=
  ∃ a rest d c, m.control = .body a :: rest ∧ a.instr? = some (.setjmp d c)

theorem Resumes.depths_eq {rs : List Resume} (hrs : Resumes W a below rs) :
    (rs.map Resume.depth).reverse = List.range' (below + 1) rs.length := by
  induction rs with
  | nil => rfl
  | cons r older ih =>
    obtain ⟨hdep, -, holder⟩ := hrs
    rw [List.map_cons, List.reverse_cons, ih holder, List.length_cons, List.range'_1_concat, hdep]
    congr 2
    omega

theorem Tower.resumeDepths_eq (ht : Tower W v control roots depth cps) :
    (resumeDepths control).reverse = List.range' 1 cps.length := by
  induction ht with
  | nil => rfl
  | body below frame main segment resumes waits ih =>
    rw [resumeDepths, List.reverse_append, ih, resumes.depths_eq, Nat.add_comm _ 1,
      List.range'_append_1, List.length_append, List.length_replicate, Nat.add_comm]
  | method below inner above ih => exact ih
  | field below inner making spilled ih => exact ih
  | made below inner making spilled ih => exact ih

/-- A function has a checkpoint without a resume point just where it is about to record one. -/
theorem Active.own_eq {h1 h2 : Host} {x : Ir.Context} {before : List Instr} {seg : List Nat}
    {own : Nat} (ha : Active W h1 h2 a rest x before i roots seg cps own) (hW : W.Sound) :
    (∃ d c, i = .setjmp d c) ∧ own = a.resumes.length + 1 ∨
      (∀ d c, i ≠ .setjmp d c) ∧ own = a.resumes.length := by
  obtain ⟨hp, hplace⟩ := ha
  have hcert := hp.frame.certified hW
  -- between `tryPush` and `setjmp` there is one checkpoint more than there are resume points
  cases hplace with
  | opening block segment resumes =>
    refine .inr ⟨?_, by rw [resumes, List.length_nil]⟩
    rintro d c rfl
    rcases hp.standing.opens hcert block with ⟨hjump, -⟩ | ⟨hopens, -⟩
    · cases hjump
    · cases hopens
  | leaving block resumes =>
    refine .inr ⟨?_, by rw [resumes, List.length_nil]⟩
    rintro d c rfl
    have hmem := hp.standing.suffix.subset (.head _)
    rw [block] at hmem
    rcases cases_of_mem_exit hcert.exits hmem with ⟨_, heq⟩ | ⟨_, heq⟩ | ⟨_, heq⟩
    · cases heq
    · cases heq
    · cases heq
  | inside block0 block2 segment trying inside =>
    have hfits := hp.standing.fits hcert block0 block2
    have hlv := (hp.standing.context block0 block2).2
    cases trying with
    | opened =>
      obtain ⟨d, rfl⟩ := hfits.setjmp_of_tryPush hlv
      exact .inl ⟨⟨d, _, rfl⟩, rfl⟩
    | steady steady tries =>
      refine .inr ⟨?_, rfl⟩
      rintro d c rfl
      obtain ⟨_, rfl⟩ := hfits.before_setjmp
      exact steady
    | entered | resumed | inward | outward =>
      refine .inr ⟨?_, rfl⟩
      rintro d c rfl
      obtain ⟨_, heq⟩ := hfits.before_setjmp
      cases heq

/-- The resume points of what is in progress are those of the open checkpoints, the innermost one apart
where its resume point is about to be recorded. -/
theorem Running.resumeDepths_eq (hW : W.Sound) (hr : Running W m₁ m₁) :
    (Arming m₁ → (resumeDepths m₁.control).reverse ++ [m₁.host.tryDepth] =
      List.range' 1 m₁.host.tryDepth) ∧
    (¬ Arming m₁ → (resumeDepths m₁.control).reverse = List.range' 1 m₁.host.tryDepth) := by
  obtain ⟨a, rest, x, before, i, roots, seg, cps, own, hctl, ha⟩ := hr.active
  have hdepths : (resumeDepths m₁.control).reverse =
      List.range' 1 (cps.length + a.resumes.length) := by
    rw [hctl, resumeDepths, List.reverse_append, ha.below.resumeDepths_eq, ha.resumes.depths_eq,
      Nat.add_comm _ 1, List.range'_append_1]
  have htries : m₁.host.tryDepth = own + cps.length := by
    rw [Host.tryDepth, ha.checkpoints, List.length_append, List.length_replicate]
  have harming : Arming m₁ ↔ ∃ d c, i = .setjmp d c := by
    constructor
    · rintro ⟨b, rest', d, c, hctl', hi⟩
      rw [hctl] at hctl'
      cases hctl'
      exact ⟨d, c, Option.some.inj (ha.standing.instr?.symm.trans hi)⟩
    · rintro ⟨d, c, rfl⟩
      exact ⟨a, rest, d, c, hctl, ha.standing.instr?⟩
  rw [hdepths, harming, htries]
  rcases ha.own_eq hW with ⟨hi, rfl⟩ | ⟨hi, rfl⟩
  · refine ⟨fun _ => ?_, fun hn => absurd hi hn⟩
    rw [show a.resumes.length + 1 + cps.length = cps.length + a.resumes.length + 1 by omega,
      List.range'_1_concat, Nat.add_comm 1]
  · refine ⟨fun h => h.elim fun d h => h.elim fun c heq => absurd heq (hi d c), fun _ => ?_⟩
    rw [Nat.add_comm]

/-! ## Unwinding -/

/-- A host from which the checkpoint `c` was taken, with both stacks as deep as it recorded. -/
structure Dropped (g : Host) (c : Checkpoint) (left : List Checkpoint) : Prop where
  checkpoints : g.checkpoints = left
  roots : g.roots.depth = c.roots
  stack : g.stack.depth = c.stack

theorem Dropped.cut (hg : Dropped g c left) (hn : c.stack ≤ n) : cutStack g n = g := by
  have htruncate : g.stack.truncate n = g.stack := by
    have hle : g.stack.words.size ≤ n := hg.stack.trans_le hn
    unfold Stack.truncate
    rw [Array.take_eq_extract, Array.extract_eq_self_of_le hle]
  unfold cutStack
  rw [htruncate]

theorem unwind_resumes (hW : W.Sound) (frame : Frame W v a) (resumes : Resumes W a below a.resumes)
    {r : Resume} {older : List Resume} (hr : a.resumes = r :: older)
    (hc : c.stack = a.base + a.routine.layout.words) (hg : Dropped g c left)
    (hleft : left.length = older.length + below) (e : Value) (spare : List Nat) :
    ∃ m, unwind e g spare (.body a :: rest) = .running m ∧ m.host.checkpoints = left ∧
      Resumed (.body a :: rest) c m := by
  rw [hr] at resumes
  obtain ⟨hdep, ⟨x, p, before, hstanding, hb0, hb2, -⟩, -⟩ := resumes
  have hrole : (W.cert a).HasRole r.dest (.int .half) :=
    (hstanding.fits (frame.certified hW) hb0 hb2).hasRole_setjmp
  have htry : r.depth = g.tryDepth + 1 := by
    rw [Host.tryDepth, hg.checkpoints, hleft]
    omega
  have hpoint : resumePoint a (g.tryDepth + 1) = some (r, older) := by
    unfold resumePoint
    rw [hr]
    exact if_pos htry
  let b : Activation := { a with resumes := older, block := r.block, position := r.position + 1 }
  have hdef : resume a r older g =
      .ok (b.put r.dest (.int 1)) { g with stack := b.kept r.dest (.int 1) g.stack } :=
    Frame.define_eq (a := b) (v := v)
      ⟨frame.routine, frame.size, frame.roles, frame.values⟩ hW hrole (.int 1)
      (Nat.le_of_eq (hg.stack.trans hc).symm)
  have hone : (b.put r.dest (.int 1)).registers[r.dest]? = some (some (.int 1)) := by
    rw [Activation.getElem?_put (a := b) (frame.lt_size hW hrole), if_pos rfl]
  refine ⟨⟨{ g with stack := b.kept r.dest (.int 1) g.stack }, spare, .body (b.put r.dest (.int 1)) :: rest⟩,
    ?_, hg.checkpoints, a, r, rest, b.put r.dest (.int 1), List.suffix_refl _, hr, htry, rfl, rfl,
    rfl, rfl, rfl, hone, hg.roots, ?_⟩
  · rw [unwind, hpoint]
    simp only [hdef]
  · exact (b.kept_depth r.dest (.int 1) g.stack).trans hg.stack

theorem Tower.unwind_resumes (ht : Tower W v control roots depth cps) (hW : W.Sound)
    (hcps : cps = c :: left) (hg : Dropped g c left) (e : Value) (spare : List Nat) :
    ∃ m, unwind e g spare control = .running m ∧ m.host.checkpoints = left ∧ Resumed control c m := by
  -- the first checkpoint belongs to the innermost activation that has a resume point
  induction ht generalizing spare with
  | nil => cases hcps
  | @body a rest roots seg cps below frame main segment resumes waits ih =>
    cases hr : a.resumes with
    | nil =>
      rw [hr] at hcps
      have hcps : cps = c :: left := hcps
      have hnone : resumePoint a (g.tryDepth + 1) = none := by
        unfold resumePoint
        rw [hr]
      obtain ⟨m, hm, hleft, hresd⟩ := ih hcps (giveBack a.owned spare)
      refine ⟨m, ?_, hleft, hresd.mono fun _ _ h => h.trans (List.suffix_cons _ _)⟩
      rw [unwind, hnone]
      simp only [hg.cut (below.checkpoint_le (hcps ▸ List.mem_cons_self)).2]
      exact hm
    | cons r older =>
      rw [hr] at hcps
      obtain ⟨hc, hleft⟩ := List.cons.inj hcps
      have hleft : List.replicate older.length
        ⟨(roots ++ seg).length, a.base + a.routine.layout.words⟩ ++ cps = left := hleft
      refine Machine.unwind_resumes hW frame resumes hr (hc ▸ rfl) hg ?_ e spare
      rw [← hleft, List.length_append, List.length_replicate]
  | @method slots rest roots depth top cps below inner above ih =>
    obtain ⟨m, hm, hleft, hresd⟩ := ih hcps (giveBack slots spare)
    refine ⟨m, ?_, hleft, hresd.mono fun _ _ h => h.trans (List.suffix_cons _ _)⟩
    rw [unwind, hg.cut (below.checkpoint_le (hcps ▸ List.mem_cons_self)).2]
    exact hm
  | field below inner making spilled ih | made below inner making spilled ih =>
    obtain ⟨m, hm, hleft, hresd⟩ := ih hcps spare
    refine ⟨m, ?_, hleft, hresd.mono fun _ _ h => h.trans (List.suffix_cons _ _)⟩
    rw [unwind, hg.cut (below.checkpoint_le (hcps ▸ List.mem_cons_self)).2]
    exact hm

theorem Running.unwind_resumes (hW : W.Sound) (hr : Running W m₁ m₁) (harming : ¬ Arming m₁)
    (hraised : Host.Raised e m₁.host g) :
    ∃ c m2, m₁.host.checkpoints = c :: m2.host.checkpoints ∧
      unwind e g m₁.spare m₁.control = .running m2 ∧ Resumed m₁.control c m2 := by
  obtain ⟨a, rest, x, before, i, roots, seg, cps, own, hctl, ha⟩ := hr.active
  have hown : own = a.resumes.length := by
    rcases ha.own_eq hW with ⟨⟨d, c, rfl⟩, -⟩ | ⟨-, hown⟩
    · exact absurd ⟨a, rest, d, c, hctl, ha.standing.instr?⟩ harming
    · exact hown
  subst hown
  obtain ⟨c, htaken, hrts, hstk⟩ := hraised.taken
  have hcps := ha.checkpoints
  rw [htaken] at hcps
  have hslt : m₁.host.roots.slots.size = (roots ++ seg).length := by
    rw [← ha.slots, Array.length_toList]
  have hdep : m₁.host.stack.words.size = a.base + a.routine.layout.words := ha.depth
  -- the stacks reach up to what the checkpoint recorded
  have hdropped : c.roots ≤ (roots ++ seg).length → c.stack ≤ a.base + a.routine.layout.words →
      Dropped g c g.checkpoints := by
    intro hle1 hle2
    refine ⟨rfl, ?_, ?_⟩
    · rw [hrts]
      simp only [RootStack.truncate, RootStack.depth, Array.take_eq_extract, Array.size_extract]
      omega
    · rw [hstk]
      simp only [Stack.truncate, Stack.depth, Array.take_eq_extract, Array.size_extract]
      omega
  rw [hctl]
  cases hresm : a.resumes with
  | nil =>
    rw [hresm] at hcps
    have hcps : cps = c :: g.checkpoints := hcps.symm
    obtain ⟨hle1, hle2⟩ := ha.below.checkpoint_le (hcps ▸ List.mem_cons_self)
    have hg := hdropped (by rw [List.length_append]; omega) (by omega)
    have hnone : resumePoint a (g.tryDepth + 1) = none := by
      unfold resumePoint
      rw [hresm]
    obtain ⟨m2, hm2, hleft, hresd⟩ :=
      ha.below.unwind_resumes hW hcps hg e (giveBack a.owned m₁.spare)
    refine ⟨c, m2, by rw [htaken, hleft], ?_, hresd.mono fun _ _ h => h.trans (List.suffix_cons _ _)⟩
    rw [unwind, hnone]
    simp only [hg.cut hle2]
    exact hm2
  | cons r older =>
    rw [hresm] at hcps
    obtain ⟨rfl, hleft⟩ := List.cons.inj hcps
    have hleft : g.checkpoints = List.replicate older.length
      ⟨(roots ++ seg).length, a.base + a.routine.layout.words⟩ ++ cps := hleft
    have hg := hdropped (Nat.le_refl _) (Nat.le_refl _)
    obtain ⟨m2, hm2, hm2', hresd⟩ := Machine.unwind_resumes hW ha.frame ha.resumes hresm rfl hg
      (by rw [hleft, List.length_append, List.length_replicate]) e m₁.spare
    exact ⟨_, m2, by rw [htaken, hm2'], hm2, hresd⟩

/-- An instruction that raises makes the machine go on in the function whose checkpoint was taken. -/
theorem Running.step_of_raise (hW : W.Sound) (hr : Running W m₁ m₁)
    (hctl : m₁.control = .body a :: rest) (hi : a.instr? = some i)
    (hraise : perform W.image a i m₁.host = .error (.raise e) g) :
    ∃ c m2, m₁.host.checkpoints = c :: m2.host.checkpoints ∧ step W.image m₁ = .running m2 ∧
      Resumed m₁.control c m2 := by
  have harming : ¬ Arming m₁ := by
    rintro ⟨b, rest', d, c, hctl', hi'⟩
    rw [hctl] at hctl'
    cases hctl'
    rw [hi] at hi'
    cases hi'
    exact quiet_setjmp _ _ _ _ _ _ _ _ hraise
  obtain ⟨c, m2, htaken, hunwind, hresd⟩ :=
    hr.unwind_resumes hW harming (fair_perform _ _ _ _ _ _ hr.ground.twin.orderly₁ hraise)
  refine ⟨c, m2, htaken, ?_, hresd⟩
  obtain ⟨h1, spare, control⟩ := m₁
  obtain rfl : control = .body a :: rest := hctl
  unfold step
  simp only [hi, hraise]
  exact hunwind

/-! ## Statements -/

theorem eq_of_suffix_length {α : Type} {l l1 l2 : List α} (h1 : l1 <:+ l) (h2 : l2 <:+ l)
    (hlen : l1.length = l2.length) : l1 = l2 :=
  (List.suffix_of_suffix_length_le h1 h2 (Nat.le_of_eq hlen)).eq_of_length hlen

/-- Where a function stands at the first instruction of a statement, it has as many checkpoints open as
the place of the statement tells. -/
theorem Running.resumes_of_placed (hW : W.Sound) (hr : Running W m₁ m₁)
    (hctl : m₁.control = .body a :: rest) {t : Session}
    (hplcd : Lowering.Placed (W.cert a) t n a.routine.function)
    (hblk : a.block = t.body.draft.current) (hpos : a.position = t.body.draft.trail.length) :
    a.resumes.length = n := by
  obtain ⟨x, before, i, roots, seg, cps, own, hp, hplace⟩ := hr.active_of_control hctl
  obtain ⟨⟨hb0, hb2⟩, ⟨y, hy, hstd⟩, hgrows⟩ := hplcd
  rw [← hblk] at hb0 hb2 hy hgrows
  have hsuf : before <:+ Ir.trailOf a.routine.function.blocks a.block :=
    (List.suffix_cons i before).trans hp.standing.suffix
  obtain rfl : before = t.body.draft.trail :=
    eq_of_suffix_length hsuf hgrows (hp.standing.position.symm.trans hpos)
  obtain rfl := hy.unique (hp.standing.context hb0 hb2).1
  have hfits := hp.standing.fits (hp.frame.certified hW) hb0 hb2
  obtain ⟨hstdy, htries⟩ := hstd hfits.goes
  cases hplace with
  | opening block => exact absurd block hb0
  | leaving block => exact absurd block hb2
  | inside block0 block2 segment trying inside =>
    exact (trying.of_steady hstdy).2.symm.trans htries

theorem text_ne_main (loc : Location) : loc.text ≠ "main" := by
  intro heq
  have hlist := congrArg String.toList heq
  have hcolon : ':' ∈ loc.text.toList := by simp [Location.text]
  rw [hlist] at hcolon
  exact absurd hcolon (by decide)

/-! ## Main results -/

/-- In every run of a compiled program the resume points of the functions in progress, outermost first,
have the depths of the open checkpoints. A function at the first instruction of a statement has as many
of them as protected bodies enclose the statement. An instruction opens a checkpoint with the depths of
both stacks, drops the innermost one, or leaves them alone unless a raise takes the innermost one; then
the function that opened it goes on, with both stacks as deep as they were. An exception for which no
checkpoint is open ends the program where it is raised. -/
theorem raises_matched (hlow : p.lower annotate = .ok m)
    (hst : Host.start config console = .ok h) (arguments : List String) :
    ∃ image m₀, start m arguments h = (.ok image, .running m₀) ∧
      (∀ m₁, Reaches image m₀ m₁ →
        (Arming m₁ → (resumeDepths m₁.control).reverse ++ [m₁.host.tryDepth] =
          List.range' 1 m₁.host.tryDepth) ∧
        (¬ Arming m₁ → (resumeDepths m₁.control).reverse = List.range' 1 m₁.host.tryDepth)) ∧
      (∀ l C n, Lowering.Standing p l C n → ∃ t g,
        Lowering.Starts (fun x => do Lowering.prepare p; C x) (Lowering.start annotate) t ∧
        t.output m = some g ∧ ∀ m₁ a rest, Reaches image m₀ m₁ → m₁.control = .body a :: rest →
          a.routine.function = g → a.block = t.body.draft.current →
          a.position = t.body.draft.trail.length → a.resumes.length = n) ∧
      (∀ m₁ m₂ a rest i, Reaches image m₀ m₁ → m₁.control = .body a :: rest → a.instr? = some i →
        step image m₁ = .running m₂ → Moves i m₁.host m₁.control m₂) ∧
      (∀ m₁ a rest i e g, Reaches image m₀ m₁ → m₁.control = .body a :: rest → a.instr? = some i →
        perform image a i m₁.host = .error (.raise e) g →
        ∃ c m₂, m₁.host.checkpoints = c :: m₂.host.checkpoints ∧ step image m₁ = .running m₂ ∧
          Resumed m₁.control c m₂) ∧
      ∀ fuel g site message, run fuel m arguments h = .halted g (.fatal (.uncaught site message)) →
        g.checkpoints = [] ∧ site ≠ "main" ∧ ∃ loc : Location, site = loc.text := by
  obtain ⟨-, κ, hm⟩ := Lowering.certified_of_lower hlow
  obtain ⟨W₀, m₀, -, -, hload, -, -⟩ := start_running hm ⟨rfl, rfl, rfl⟩ hst hst arguments
  obtain ⟨W, hW₀, hloads, hW, hr⟩ := exists_world_of hm hst hload
  refine ⟨W₀.image, m₀, hload, ?_, ?_, ?_, ?_, ?_⟩
  · intro m₁ hreach
    exact (hr m₁ hreach).resumeDepths_eq hW
  · intro l C n hstanding
    obtain ⟨t, k, c, g, hsts, houtput, hg, hplcd⟩ := Lowering.exists_placed hlow hstanding
    refine ⟨t, g, hsts, houtput, ?_⟩
    rintro m₁ a rest hreach hctl rfl hblk hpos
    -- the world in which the function has the certificate that its place is stated with
    classical
    obtain ⟨W', -, hloads', hW', hr'⟩ := exists_world_of (hm.update hg) hst hload
    refine (hr' m₁ hreach).resumes_of_placed hW' hctl ?_ hblk hpos
    rw [World.cert, hloads'.certificate, Function.update_self]
    exact hplcd
  · intro m₁ m₂ a rest i hreach hctl hi hstp
    have htog := step_together hW (hr m₁ hreach) (S := Moves i m₁.host m₁.control)
      fun a' rest' i' m' hctl' hi' hmoves => by
        rw [hctl] at hctl'
        cases hctl'
        rw [hi] at hi'
        cases hi'
        exact hmoves
    rw [hW₀, hstp] at htog
    cases htog with
    | running _ step => exact step
    | left out | right out =>
      obtain ⟨_, _, _, _, heq⟩ := out
      cases heq
  · intro m₁ a rest i e g hreach hctl hi hraise
    rw [← hW₀] at hraise ⊢
    exact (hr m₁ hreach).step_of_raise hW hctl hi hraise
  · intro fuel g site message hrun
    obtain ⟨_, -, -, htog⟩ :=
      compiled_together hlow ⟨rfl, rfl, rfl⟩ hst hst arguments fuel
    rw [hrun] at htog
    cases htog with
    | fatal _ uncaught =>
      obtain ⟨hcheckpoints, loc, rfl⟩ := uncaught site message rfl
      exact ⟨hcheckpoints, text_ne_main loc, loc, rfl⟩
    | left out | right out =>
      obtain ⟨_, _, _, _, heq⟩ := out
      cases heq

theorem raises_matched_sample : sample.lower false = .ok sampleModule ∧
    Host.start {} {} = .ok (Host.new {}) ∧ ∃ image m₀,
      start sampleModule [] (Host.new {}) = (.ok image, .running m₀) ∧
      (∀ m₁, Reaches image m₀ m₁ → ¬ Arming m₁ →
        (resumeDepths m₁.control).reverse = List.range' 1 m₁.host.tryDepth) ∧
      ∃ st C, Lowering.Standing sample [st] C 1 ∧
        ∃ (t : Session) (g : Ir.Function), t.output sampleModule = some g ∧
          ∀ m₁ a rest, Reaches image m₀ m₁ → m₁.control = .body a :: rest →
            a.routine.function = g → a.block = t.body.draft.current →
            a.position = t.body.draft.trail.length → a.resumes.length = 1 := by
  have hst : Host.start {} {} = .ok (Host.new {}) := rfl
  obtain ⟨image, m₀, hload, hdepths, hstatements, -⟩ := raises_matched lower_sample hst []
  refine ⟨lower_sample, hst, image, m₀, hload, fun m₁ hreach => (hdepths m₁ hreach).2, ?_⟩
  -- the statement in the protected body of the function
  have hstanding : Lowering.Standing sample [_] _ 1 :=
    .definition (show sample = [] ++ _ :: _ from rfl) .function (.into .guarded .here)
  obtain ⟨t, g, -, houtput, hopen⟩ := hstatements _ _ _ hstanding
  exact ⟨_, _, hstanding, t, g, houtput, hopen⟩

end Ember.Machine
