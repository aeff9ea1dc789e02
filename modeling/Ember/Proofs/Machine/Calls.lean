import Ember.Proofs.Machine.Block

/-!
# Ember — cells and calls of blocks, side by side

The instructions of blocks that store to cells of the frame, point to cells of buffers, and call: entry
points, functions of the module, methods and constructions. A call that does not answer at once leaves
the function waiting for its value.

Main result: `function_together`.
-/

namespace Ember.Ir

variable {c : Cert} {k : Convention} {f : Function} {I : Interface} {G : List String}

theorem count_eq_length_filter {α : Type} [DecidableEq α] (l : List α) (y : α) :
    l.count y = ((List.range l.length).filter fun r => l[r]? = some y).length := by
  induction l using List.reverseRecOn with
  | nil => rfl
  | append_singleton l z ih =>
    have hold : (List.range l.length).filter (fun r => (l ++ [z])[r]? = some y) =
        (List.range l.length).filter fun r => l[r]? = some y := by
      refine List.filter_congr fun r hr => ?_
      rw [List.getElem?_append_left (List.mem_range.mp hr)]
    rw [List.count_append, ih, List.length_append, List.length_singleton, List.range_succ,
      List.filter_append, hold, List.length_append]
    by_cases hz : z = y <;> simp [hz]

theorem Function.Certified.slots_le (hf : f.Certified I G k c) :
    c.slots ≤ (pushes f.prologue).length := by
  let slots := (List.range c.roles.length).filter fun r => c.roles[r]? = some Role.slot
  have hnd : (slots.map Operand.reg).Nodup :=
    (List.nodup_range.filter _).map fun r r' h => Operand.reg.inj h
  have hsubset : slots.map Operand.reg ⊆ pushes f.prologue := by
    intro o ho
    obtain ⟨r, hr, rfl⟩ := List.mem_map.mp ho
    have hrole : c.roles[r]? = some Role.slot := by simpa using (List.mem_filter.mp hr).2
    exact hf.rooted r hrole
  calc c.slots = slots.length := count_eq_length_filter _ _
    _ = (slots.map Operand.reg).length := (List.length_map _).symm
    _ ≤ (pushes f.prologue).length := (hnd.subperm hsubset).length_le

theorem Function.Certified.passed_of_arguments (hf : f.Certified I G k c) {s n : Nat}
    (hs : c.HasRole s (.arguments n)) (hinput : s ∈ c.inputs) : k.passed = n := by
  obtain ⟨ρs, hins, hprefix⟩ := hf.inputs
  obtain ⟨ρ, hρ, hrole⟩ : ∃ ρ ∈ ρs, c.HasRole s ρ := by
    obtain ⟨j, hj, rfl⟩ := List.mem_iff_getElem.mp hinput
    have hj' : j < ρs.length := hins.length_eq ▸ hj
    exact ⟨ρs[j], List.getElem_mem hj', List.forall₂_iff_get.mp hins |>.2 j hj hj'⟩
  obtain rfl := hs.unique hrole
  have hmem := hprefix.subset hρ
  cases k with
  | main => simp [Convention.roles] at hmem
  | function m => simp [Convention.roles] at hmem
  | method m =>
    simp [Convention.roles] at hmem
    exact hmem.symm
  | field => simp [Convention.roles] at hmem

end Ember.Ir

namespace Ember.Machine

open Ir (Role Convention Cert Context Interface Instr Operand Typed Ty pushes Fills
  EntryPoint)

variable {slots : Array Nat} {effect : Effect} {e : EntryPoint} {image : Image} {callee : Ir.Callee}
  {control : List Entry} {backs fronts ρs : List Role} {ss : List Scalar} {arguments : List Typed}
  {vs : List Value} {b base cells count d index n offset s size : Nat} {dest : Option Nat}
  {symbol : String} {ty : Ty} {cls hidden name t : Typed}

variable {W : World} {v : View} {a : Activation} {h1 h2 g1 g2 : Host} {spare : List Nat}
  {rest : List Entry} {x : Context} {before : List Instr} {i : Instr} {roots seg : List Nat}
  {cps : List Checkpoint} {own : Nat} {S : Machine → Prop}

/-! ## Words of the frame -/

theorem Posture.withWord (hp : Posture W h1 h2 a rest x before i roots seg cps own) (hW : W.Sound)
    (hg : Ground W h1 h2 spare (.body a :: rest)) {w : UInt64} {stack : Stack}
    (hoffset : offset < Layout.cellCount a.routine.function)
    (hstk : stack = { h1.stack with words := h1.stack.words.setIfInBounds (a.base + offset) w }) :
    Posture W { h1 with stack } { h2 with stack } a rest x before i roots seg cps own := by
  have hoth : ∀ j, j ≠ a.base + offset → stack.words[j]? = h1.stack.words[j]? := by
    intro j hj
    rw [hstk]
    exact Array.getElem?_setIfInBounds_ne (Ne.symm hj)
  have hfr := hp.frame
  refine ⟨?_, ⟨hfr.routine, hfr.size, hfr.roles, ?_⟩, hp.main, ?_, hp.slots,
    hp.checkpoints, hp.resumes, hp.standing⟩
  · exact hp.below.mono hW (hg.keeps_withStack fun j hj => hoth j (by omega))
  · intro r y hy
    obtain ⟨hlv, d, hd, hword⟩ := hfr.values r y hy
    have hbounds := hfr.spillWord_bounds hW hd
    exact ⟨hlv, d, hd, (hoth _ (by omega)).trans hword⟩
  · show stack.depth = _
    rw [hstk, ← hp.depth]
    simp [Stack.depth]

theorem Inside.storeCell (ha : Inside W v a before) (ht : t.ty ≠ .value) (dest : Operand) :
    Inside W v a.next (.store t dest :: before) where
  filled b n count _ hfills := filled_of_ne hfills fun r cell rest heq => by
    obtain ⟨rfl, -⟩ := Instr.store.inj (List.cons.inj heq).1
    exact ht rfl
  pointed d b n k rest heq _ := nomatch (List.cons.inj heq).1
  arguments hb hq := ha.arguments hb fun j hj => hq j (.tail _ hj)
  result r rest heq _ := by
    obtain ⟨rfl, -⟩ := Instr.store.inj (List.cons.inj heq).1
    exact absurd rfl ht
  calm arguments rest heq := nomatch (List.cons.inj heq).1

/-! ## Pointers to cells -/

theorem perform_element (index : Nat) (hb : a.registers[b]? = some (some (.ptr (.values slots 0))))
    (h : Host) :
    perform image a (.element d .value (.reg b) (.i64 (Int64.ofNat index))) h =
      .ok (.answer (.ptr (.values slots (index % 0x10000000000000000)))) h := by
  have hidx : a.intTyped image (.i64 (Int64.ofNat index)) = .ok (Int64.ofNat index) := rfl
  have hshift : shift (.values slots 0) (Int64.ofNat index) =
      .ok (.ptr (.values slots (index % 0x10000000000000000))) := by
    have hlt : index % 0x10000000000000000 < 0x10000000000000000 := Nat.mod_lt _ (by decide)
    unfold shift Heap.sum64
    simp only [countOf_ofNat, Nat.zero_add, if_pos hlt]
    rfl
  rw [perform, sound_bind (pointerOperand_reg hb), sound_bind hidx, sound_bind hshift]
  rfl

theorem Filled.put {buffer : Nat} (hf : Filled v a buffer count) (hd : d < a.registers.size)
    (hne : buffer ≠ d) (s : Scalar) : Filled v (a.put d s).next buffer count := by
  intro j hj
  obtain ⟨slots, i, hbuf, hi⟩ := hf j hj
  refine ⟨slots, i, ?_, hi⟩
  show (a.put d s).registers[buffer]? = _
  rw [Activation.getElem?_put hd, if_neg hne]
  exact hbuf

theorem Inside.entry (ha : Inside W v a before) (hd : d < a.registers.size)
    (hrole : (W.cert a).HasRole d .entry) (hbuf : (W.cert a).HasRole b (.buffer n))
    (hslt : a.registers[b]? = some (some (.ptr (.values slots 0)))) :
    Inside W v (a.put d (.ptr (.values slots (index % 0x10000000000000000)))).next
      (.element d .value (.reg b) (.i64 (Int64.ofNat index)) :: before) where
  filled b n count _ hfills := filled_of_ne hfills fun _ _ _ heq => nomatch (List.cons.inj heq).1
  pointed d' b' n' k rest heq hb' := by
    obtain ⟨hhead, rfl⟩ := List.cons.inj heq
    obtain ⟨rfl, -, hreg, hidx⟩ := Instr.element.inj hhead
    cases hreg
    have hne : b ≠ d := by
      rintro rfl
      cases hrole.unique hbuf
    have hcnt : index % 0x10000000000000000 = k % 0x10000000000000000 := by
      have hn : Int64.ofNat index = Int64.ofNat k :=
        Ir.Immediate.int.inj (Operand.imm.inj (Typed.mk.inj hidx).2)
      rw [← countOf_ofNat, ← countOf_ofNat, hn]
    refine ⟨fun hfills => (ha.filled b n' k hb' hfills).put hd hne _, slots, ?_, ?_⟩
    · show (a.put d _).registers[b]? = _
      rw [Activation.getElem?_put hd, if_neg hne]
      exact hslt
    · show (a.put d _).registers[d]? = _
      rw [Activation.getElem?_put hd, if_pos rfl, hcnt]
  arguments hb hq := by
    have hq : ∀ j ∈ before, j.isQuiet := fun j hj => hq j (.tail _ hj)
    refine (ha.arguments hb hq).put hd fun ρ slots offset hρ hargument => ?_
    obtain rfl := hrole.unique hρ
    rcases hargument with h | ⟨n, h⟩ <;> cases h
  result r rest heq _ := nomatch (List.cons.inj heq).1
  calm arguments rest heq := nomatch (List.cons.inj heq).1

theorem Inside.argument (ha : Inside W v a before) (hd : d < a.registers.size)
    (hsrc : (W.cert a).HasRole b (.arguments n))
    (hslt : a.registers[b]? = some (some (.ptr (.values slots 0)))) :
    Inside W v (a.put d (.ptr (.values slots offset))).next
      (.element d .value (.reg b) (.i64 (Int64.ofNat index)) :: before) where
  filled b n count _ hfills := filled_of_ne hfills fun _ _ _ heq => nomatch (List.cons.inj heq).1
  pointed d' b' n' k rest heq hb' := by
    obtain ⟨-, -, hreg, -⟩ := Instr.element.inj (List.cons.inj heq).1
    cases hreg
    cases hsrc.unique hb'
  arguments hb hq := by
    have hq : ∀ j ∈ before, j.isQuiet := fun j hj => hq j (.tail _ hj)
    have hargs := ha.arguments hb hq
    refine hargs.put hd fun ρ slots' offset' _ _ heq => ?_
    obtain ⟨rfl, -⟩ := Pointer.values.inj (Scalar.ptr.inj heq)
    exact hargs b _ slots 0 hsrc (.inr ⟨n, rfl⟩) hslt
  result r rest heq _ := nomatch (List.cons.inj heq).1
  calm arguments rest heq := nomatch (List.cons.inj heq).1

/-- The root stack has room for all slots of the running function, so that they can be counted. -/
theorem Settled.slots_lt (hs : Settled W a x before seg) (hW : W.Sound)
    (hp : Posture W h1 h2 a rest x before i roots seg cps own) (hg : Ground W h1 h2 spare control) :
    (W.cert a).slots < 0x2000000000000000 := by
  have hseg := List.Forall₂.length_eq hs.segment
  rw [List.length_reverse] at hseg
  have hslt := (hp.frame.certified hW).slots_le
  have hsize : (roots ++ seg).length = h1.roots.slots.size := by
    rw [← hp.slots, Array.length_toList]
  have hcap := hg.capacity
  rw [List.length_append] at hsize
  omega

theorem Settled.buffer (hs : Settled W a x before seg)
    (hp : Posture W h1 h2 a rest x before i roots seg cps own)
    (hsrc : (W.cert a).HasRole s (.buffer n)) (hidx : index < n) :
    ∃ slots, a.registers[s]? = some (some (.ptr (.values slots 0))) ∧
      index % 0x10000000000000000 < slots.size ∧ ∀ j ∈ slots, j < h1.slots.size := by
  obtain ⟨t, ht⟩ := hs.knows hp.standing s (.inr (.inl ⟨_, hsrc, rfl⟩))
  obtain ⟨slots, rfl, hsize, hslt⟩ := hp.frame.roles s t _ ht hsrc
  have hmod := Nat.mod_le index 0x10000000000000000
  exact ⟨slots, ht, by omega, hslt⟩

/-- A method was given the arguments that are pointed to, if its symbol tells how many it has. -/
theorem Settled.given (hs : Settled W a x before seg) (hW : W.Sound)
    (hp : Posture W h1 h2 a rest x before i roots seg cps own) (hg : Ground W h1 h2 spare control)
    (hsrc : (W.cert a).HasRole s (.arguments n)) (hinput : s ∈ (W.cert a).inputs)
    (hidx : index < n) :
    ∃ slots, a.registers[s]? = some (some (.ptr (.values slots 0))) ∧
      (W.Linked → index % 0x10000000000000000 < slots.size) ∧ ∀ j ∈ slots, j < h1.slots.size := by
  obtain ⟨t, ht⟩ := hs.knows hp.standing s (.inl hinput)
  obtain ⟨slots, rfl, hsize, hslt⟩ := hp.frame.roles s t _ ht hsrc
  -- a method with more parameters than can be counted would have overrun the root stack
  have hn : n < 0x2000000000000000 := by
    have hcert := hp.frame.certified hW
    have hroom := hcert.room
    rw [hcert.passed_of_arguments hsrc hinput] at hroom
    exact hroom.trans_lt (hs.slots_lt hW hp hg)
  refine ⟨slots, ht, fun hlinked => ?_, hslt⟩
  rw [hsize hlinked, countOf_ofNat, Nat.mod_eq_of_lt (by omega), Nat.mod_eq_of_lt (by omega)]
  exact hidx

section

variable (hW : W.Sound) (hg : Ground W h1 h2 spare (.body a :: rest))
  (hs : Settled W a x before seg)
  (hp : Posture W h1 h2 a rest x before i roots seg cps a.resumes.length)
  (hin : Inside W (W.view h1 h2) a before)
  (hS : ∀ m, Proceeds h1.checkpoints (.body a :: rest) m → S m)

include hW hg hs hp hin hS

theorem storeCell_together (hi : i = .store t (.reg s)) (hval : Given W a x before t (.int .full))
    (hdest : (W.cert a).HasRole s .cell) : StepTogether W S h1 h2 spare a rest := by
  obtain ⟨u, hgives⟩ := hp.frame.typed hW hval (hs.knows hp.standing)
  obtain ⟨n, rfl⟩ := hgives.holds
  obtain ⟨p, hpointer⟩ := hs.knows hp.standing s (.inr (.inl ⟨_, hdest, rfl⟩))
  obtain ⟨offset, rfl, hoffset⟩ := hp.frame.roles s p _ hpointer hdest
  have hlt := hp.cell_lt hW hoffset
  have hty : t.ty ≠ .value := by
    cases hval with
    | reg type => exact type ▸ nofun
    | int type => exact type ▸ nofun
  subst hi
  obtain ⟨stack, hstk⟩ : ∃ stack : Stack, stack =
    { h1.stack with words := h1.stack.words.setIfInBounds (a.base + offset) n.toUInt64 } := ⟨_, rfl⟩
  have hperf : ∀ h : Host, h.stack = h1.stack → perform W.image a (.store t (.reg s)) h =
      .ok .next { h with stack } := by
    intro h hh
    have hstore : storeTo (.int n) (.word (a.base + offset)) h = .ok () { h with stack } := by
      have hdep : a.base + offset < h.stack.depth := hh ▸ hlt
      refine (if_pos hdep).trans ?_
      rw [hstk, ← hh]
    rw [perform, sound_bind hgives.typed, sound_bind (pointerOperand_reg hpointer),
      Host.bind_ok hstore]
    rfl
  have hbot : stack.bottom = 0 := by
    rw [hstk]
    exact hg.bottom
  refine perform_together hp.standing (hperf h1 rfl) (hperf h2 hg.twin.stack) ?_
  exact settled_next hW (hg.withStack hbot) hs (hp.withWord hW hg hoffset hstk) rfl rfl
    ((hin.storeCell hty _).mono fun _ hj => hj.withStack _) fun m hm => hS m (.inl hm)

theorem entry_together (hi : i = .element d .value (.reg s) (.i64 (Int64.ofNat index)))
    (hrole : (W.cert a).HasRole d .entry) (hsrc : (W.cert a).HasRole s (.buffer n))
    (hidx : index < n) : StepTogether W S h1 h2 spare a rest := by
  obtain ⟨slots, ht, hlt, hslt⟩ := hs.buffer hp hsrc hidx
  subst hi
  refine perform_together hp.standing (perform_element index ht h1) (perform_element index ht h2) ?_
  exact settled_answer hW hg hs hp rfl rfl hrole nofun ⟨slots, _, rfl, hlt, hslt⟩ nofun
    (hg.tenure.moved hsrc ⟨0, ht⟩ id) (hin.entry (hp.frame.lt_size hW hrole) hrole hsrc ht) fun m hm => hS m (.inl hm)

theorem argument_together (hi : i = .element d .value (.reg s) (.i64 (Int64.ofNat index)))
    (hrole : (W.cert a).HasRole d .argument) (hsrc : (W.cert a).HasRole s (.arguments n))
    (hinput : s ∈ (W.cert a).inputs) (hidx : index < n) :
    StepTogether W S h1 h2 spare a rest := by
  obtain ⟨slots, ht, hlt, hslt⟩ := hs.given hW hp hg hsrc hinput hidx
  subst hi
  refine perform_together hp.standing (perform_element index ht h1) (perform_element index ht h2) ?_
  exact settled_answer hW hg hs hp rfl rfl hrole nofun ⟨slots, _, rfl, hlt, hslt⟩ nofun
    (hg.tenure.moved hsrc ⟨0, ht⟩ id) (hin.argument (hp.frame.lt_size hW hrole) hsrc ht) fun m hm => hS m (.inl hm)

end

/-! ## Entry points -/

theorem typed_reg (image : Image) {r : Nat} {s : Scalar} (hr : a.registers[r]? = some (some s))
    (ty : Ty) : a.typed image ⟨ty, .reg r⟩ = .ok s := by
  have hread : a.register r = .ok s := by
    unfold Activation.register
    rw [hr]
  unfold Activation.typed
  split <;> first | exact hread | (next h => cases h)

theorem perform_call (hss : arguments.mapM (a.typed image) = .ok ss) :
    perform image a (.call dest ty callee arguments) = performCall image dest callee ss := by
  rw [perform, sound_bind hss]

theorem ordinary_of_signature (he : e.signature? = some ρs) (dest : Option Nat) (ty : Ty)
    (arguments : List Typed) :
    (Instr.call dest ty (.entry e) arguments).isCalm ∧ e.result ≠ .ptr := by
  cases e <;> first | exact ⟨rfl, nofun⟩ | cases he

theorem ordinary_of_around (he : e.around? = some (fronts, backs)) (dest : Option Nat) (ty : Ty)
    (arguments : List Typed) :
    (Instr.call dest ty (.entry e) arguments).isCalm ∧ e.result = .value ∧ e ≠ .raise := by
  cases e <;> first | exact ⟨rfl, rfl, nofun⟩ | cases he

theorem alike_raiseCall {L : Linkage} (ht : Host.Twin L h1 h2)
    (hss : List.Forall₂ (Passed W h1 h2 size base cells) (.value :: Ir.siteRoles) ss) :
    Host.Alike L h1 h2 (fun _ _ _ => False) (callEntry W.image .raise ss h1)
      (callEntry W.image .raise ss h2) := by
  obtain _ | ⟨⟨⟨y, rfl⟩, hy⟩, hss⟩ := hss
  exact alike_sited rfl [.value y] hss (fun _ _ => rfl) (fun _ _ _ h => h.elim) fun site =>
    Host.alike_raise ht (hy y rfl) site

theorem passed_values
    (hss : List.Forall₂ (Passed W h1 h2 size base cells) (List.replicate n .value) ss) :
    ∃ vs : List Value, ss = vs.map Scalar.value ∧ vs.length = n ∧ ∀ y ∈ vs, (W.view h1 h2).live y := by
  induction n generalizing ss with
  | zero =>
    obtain _ | _ := hss
    exact ⟨[], rfl, rfl, nofun⟩
  | succ n ih =>
    obtain _ | ⟨⟨⟨y, rfl⟩, hy⟩, hss⟩ := hss
    obtain ⟨vs, rfl, hlen, hvs⟩ := ih hss
    exact ⟨y :: vs, rfl, by simp [hlen], List.forall_mem_cons.mpr ⟨hy y rfl, hvs⟩⟩

theorem supplies_values (hvs : ∀ y ∈ vs, v.live y) :
    Supplies W v control (.function vs.length) (vs.map Scalar.value) := by
  refine ⟨fun base cells => ?_, fun slots offset hmem => ?_, nofun⟩
  · show List.Forall₂ _ (List.replicate vs.length Role.value) _
    induction vs with
    | nil => exact .nil
    | cons y vs ih =>
      obtain ⟨hy, hvs⟩ := List.forall_mem_cons.mp hvs
      exact .cons ⟨⟨y, rfl⟩, fun z hz => Scalar.value.inj hz ▸ hy⟩ (ih hvs)
  · obtain ⟨y, -, hy⟩ := List.mem_map.mp hmem
    cases hy

theorem Settled.member (hs : Settled W a x before seg) (hW : W.Sound)
    (hp : Posture W h1 h2 a rest x before i roots seg cps own)
    (hgvn : List.Forall₂ (Given W a x before) [cls, name, hidden] [.value, .text, .int .bit]) :
    ∃ s1 s2 s3, a.typed W.image cls = .ok s1 ∧ a.typed W.image name = .ok s2 ∧
      a.typed W.image hidden = .ok s3 ∧ List.Forall₂ (Passed W h1 h2 h1.slots.size a.base
        (Layout.cellCount a.routine.function)) [.value, .text, .int .bit] [s1, s2, s3] := by
  obtain _ | ⟨hcls, _ | ⟨hname, _ | ⟨hhidden, _ | _⟩⟩⟩ := hgvn
  obtain ⟨s1, hs1⟩ := hp.frame.typed hW hcls (hs.knows hp.standing)
  obtain ⟨s2, hs2⟩ := hp.frame.typed hW hname (hs.knows hp.standing)
  obtain ⟨s3, hs3⟩ := hp.frame.typed hW hhidden (hs.knows hp.standing)
  exact ⟨s1, s2, s3, hs1.typed, hs2.typed, hs3.typed, .cons ⟨hs1.holds, hs1.live⟩
    (.cons ⟨hs2.holds, hs2.live⟩ (.cons ⟨hs3.holds, hs3.live⟩ .nil))⟩

section

variable (hW : W.Sound) (hg : Ground W h1 h2 spare (.body a :: rest))
  (hs : Settled W a x before seg)
  (hp : Posture W h1 h2 a rest x before i roots seg cps a.resumes.length)

include hW hg hs hp

theorem settled_answers (hi : i = .call dest e.result (.entry e) arguments) (hcalm : i.isCalm)
    (hptr : e.result ≠ .ptr) (hraise : e ≠ .raise) (hreceives : (W.cert a).Receives dest e.result)
    (hanswers : Answers e effect h1.heap h2.heap)
    (hS : ∀ m, m.host.checkpoints = h1.checkpoints → S m) :
    Together W S (apply W.image effect (destOf i) a rest h1 spare)
      (apply W.image effect (destOf i) a rest h2 spare) := by
  obtain ⟨s, rfl, htype, hlv⟩ := hanswers
  subst hi
  have hloud : ∀ a' : Activation, Inside W (W.view h1 h2) a'
      (.call dest e.result (.entry e) arguments :: before) := by
    intro a'
    refine .of_loud rfl fun arguments' heq => hraise ?_
    exact Ir.Callee.entry.inj (Instr.call.inj heq).2.2.1
  cases dest with
  | none => exact settled_next hW hg hs hp hcalm rfl (hloud _) hS
  | some d =>
    obtain ⟨hvoid, hrole⟩ := hreceives
    have hslot : e.result.role ≠ .slot := by cases e.result <;> exact nofun
    exact settled_answer hW hg hs hp hcalm rfl hrole hslot (holds_of_hasType htype hptr hvoid) hlv
      (fun _ _ heq => absurd heq (ne_ptr_of_hasType htype hptr _)) (hloud _) hS

omit hW in
theorem poised_waiting (hi : i = .call (some d) ty callee arguments) (hcalm : i.isCalm)
    (hrole : (W.cert a).HasRole d .value) :
    Poised W h1 h2 spare (.body { a with awaits := some d } :: rest) := by
  have hfr := hp.frame
  have hstanding := hp.standing
  subst hi
  refine ⟨hg.move rfl rfl rfl, ?_⟩
  rw [hp.slots, hp.depth, hp.checkpoints]
  refine .body (a := { a with awaits := some d }) hp.below
    ⟨hfr.routine, hfr.size, hfr.roles, hfr.values⟩ hp.main hs.segment
    (hp.resumes.mono rfl fun _ hr => hr) ?_
  exact ⟨x, before, d, ty, callee, arguments,
    ⟨hstanding.suffix, hstanding.position, hstanding.context, hstanding.known⟩, hs.block0, hs.block2,
    hs.steady, hcalm, hs.tries, rfl, hrole⟩

variable (hS : ∀ m, Proceeds h1.checkpoints (.body a :: rest) m → S m)

include hS

theorem ordinary_together (hi : i = .call dest e.result (.entry e) arguments)
    (hsig : e.signature? = some ρs) (hgvn : List.Forall₂ (Given W a x before) arguments ρs)
    (hreceives : (W.cert a).Receives dest e.result) : StepTogether W S h1 h2 spare a rest := by
  obtain ⟨ss, hss, hpassed⟩ := hp.frame.mapM_typed hW hgvn (hs.knows hp.standing)
  obtain ⟨hcalm, hptr⟩ := ordinary_of_signature hsig dest e.result arguments
  subst hi
  rw [stepTogether_iff hp.standing, perform_call hss]
  by_cases hraise : e = .raise
  · subst hraise
    cases hsig
    exact andThen_together_of (alike_raiseCall hg.twin hpassed)
      (fun _ _ _ => settled_raise hW hg hs hp hS) fun _ _ _ _ h => h.elim
  · refine andThen_together_of (alike_ordinary hg.twin hsig hpassed)
      (fun _ _ _ => settled_raise hW hg hs hp hS) fun effect g1 g2 honw hanswers => ?_
    exact settled_answers hW (hg.onward honw) hs (hp.onward hW hg honw) rfl hcalm hptr hraise
      hreceives hanswers fun m hm => hS m (.inl (hm.trans honw.frame.checkpoints))

theorem member_together {e : EntryPoint} {arguments : List Typed} {ss : List Scalar}
    (hi : i = .call none .void (.entry e) arguments) (hcalm : i.isCalm) (hvoid : e.result = .void)
    (hraise : e ≠ .raise) (hss : arguments.mapM (a.typed W.image) = .ok ss)
    (halike : Host.Alike W.linkage h1 h2 (Answers e) (callEntry W.image e ss h1)
      (callEntry W.image e ss h2)) :
    StepTogether W S h1 h2 spare a rest := by
  rw [← hvoid] at hi
  rw [stepTogether_iff hp.standing]
  have hperf : perform W.image a i = callEntry W.image e ss := by
    rw [hi]
    exact perform_call hss
  rw [hperf]
  refine andThen_together_of halike (fun _ _ _ => settled_raise hW hg hs hp hS)
    fun effect g1 g2 honw hanswers => ?_
  exact settled_answers hW (hg.onward honw) hs (hp.onward hW hg honw) hi hcalm (hvoid ▸ nofun)
    hraise hvoid hanswers fun m hm => hS m (.inl (hm.trans honw.frame.checkpoints))

theorem addField_together
    (hi : i = .call none .void (.entry .classAddField) [cls, name, ⟨.ptr, .global (.function symbol)⟩, hidden])
    (hgvn : List.Forall₂ (Given W a x before) [cls, name, hidden] [.value, .text, .int .bit])
    (hnmd : W.interface.HasField symbol) : StepTogether W S h1 h2 spare a rest := by
  obtain ⟨s1, s2, s3, hs1, hs2, hs3, hpassed⟩ := hs.member hW hp hgvn
  have hss : [cls, name, ⟨.ptr, .global (.function symbol)⟩, hidden].mapM (a.typed W.image) =
      .ok [s1, s2, .ptr (.function symbol), s3] := by
    simp only [List.mapM_cons, List.mapM_nil, hs1, hs2, hs3]
    rfl
  refine member_together hW hg hs hp hS hi (hi ▸ rfl) rfl nofun hss ?_
  exact alike_addFieldCall hg.twin hnmd hpassed

theorem addMethod_together {arity : Nat}
    (hi : i = .call none .void (.entry .classAddMethod) [cls, name, ⟨.ptr, .global (.function symbol)⟩, .i32 arity, hidden])
    (hgvn : List.Forall₂ (Given W a x before) [cls, name, hidden] [.value, .text, .int .bit])
    (hnmd : W.interface.HasMethod symbol arity) : StepTogether W S h1 h2 spare a rest := by
  obtain ⟨s1, s2, s3, hs1, hs2, hs3, hpassed⟩ := hs.member hW hp hgvn
  have hss : [cls, name, ⟨.ptr, .global (.function symbol)⟩, .i32 arity, hidden].mapM
      (a.typed W.image) =
      .ok [s1, s2, .ptr (.function symbol), .int (Int64.ofNat arity), s3] := by
    simp only [List.mapM_cons, List.mapM_nil, hs1, hs2, hs3]
    rfl
  refine member_together hW hg hs hp hS hi (hi ▸ rfl) rfl nofun hss ?_
  exact alike_addMethodCall hg.twin hnmd hpassed

theorem math_together {op : Ir.MathOp} (hi : i = .call (some d) .f64 (.intrinsic (.math op)) [t])
    (hrole : (W.cert a).HasRole d .float) (hgvn : Given W a x before t .float) :
    StepTogether W S h1 h2 spare a rest := by
  obtain ⟨s, hgives⟩ := hp.frame.typed hW hgvn (hs.knows hp.standing)
  obtain ⟨y, rfl⟩ := hgives.holds
  have hss : [t].mapM (a.typed W.image) = .ok [.float y] := by
    simp only [List.mapM_cons, List.mapM_nil, hgives.typed]
    rfl
  subst hi
  have hperf : ∀ h : Host, perform W.image a (.call (some d) .f64 (.intrinsic (.math op)) [t]) h =
      .ok (.answer (.float (op.apply y))) h := by
    intro h
    rw [perform_call hss]
    rfl
  refine perform_together hp.standing (hperf h1) (hperf h2) ?_
  exact settled_answer hW hg hs hp rfl rfl hrole nofun ⟨_, rfl⟩ nofun nofun (.of_loud rfl nofun)
    fun m hm => hS m (.inl hm)

theorem function_together {d : Nat} {symbol : String} {rs : List Nat}
    (hi : i = .call (some d) .value (.function symbol) (rs.map .value))
    (hnmd : W.interface.HasFunction symbol rs.length)
    (hvals : ∀ r ∈ rs, Given W a x before (.value r) .value)
    (hrole : (W.cert a).HasRole d .value) :
    StepTogether W S h1 h2 spare a rest := by
  have hgvn : List.Forall₂ (Given W a x before)
      (rs.map .value) (List.replicate rs.length .value) := by
    clear hi hnmd
    induction rs with
    | nil => exact .nil
    | cons r rs ih =>
      exact .cons (hvals r (.head _)) (ih fun r hr => hvals r (.tail _ hr))
  obtain ⟨ss, hss, hpassed⟩ := hp.frame.mapM_typed hW hgvn (hs.knows hp.standing)
  obtain ⟨vs, rfl, hlen, hvs⟩ := passed_values hpassed
  have hpoised := poised_waiting hg hs hp hi (hi ▸ rfl) hrole
  subst hi
  rw [stepTogether_iff hp.standing, perform_call hss]
  rw [← hlen] at hnmd
  exact enter_together hW hpoised (k := .function vs.length) hnmd (by simp) (supplies_values hvs)
    fun m hm => hS m (.inl hm)

end

/-! ## Buffers -/

theorem exists_word_pushValues (s : Stack) {y : Value} (hy : y ∈ vs) :
    ∃ j, s.depth ≤ j ∧ j < s.depth + 2 * vs.length ∧ (s.pushValues vs).words[j]? = some y.word := by
  have hmem : y.word ∈ vs.flatMap fun v => [v.tagWord, v.word] :=
    List.mem_flatMap.mpr ⟨y, hy, by simp⟩
  obtain ⟨j, hj, hget⟩ := List.mem_iff_getElem.mp hmem
  have hlen : (vs.flatMap fun v => [v.tagWord, v.word]).length = 2 * vs.length := by
    simp [Nat.mul_comm]
  refine ⟨s.depth + j, Nat.le_add_right _ _, by omega, ?_⟩
  rw [(Host.pushValues_words s vs).1]
  unfold Stack.depth
  rw [Array.getElem?_append_right (Nat.le_add_right _ _), Nat.add_sub_cancel_left]
  simp [List.getElem?_eq_getElem hj, hget]

theorem Poised.construct (hp : Poised W h1 h2 spare control) (hW : W.Sound) (hne : control ≠ [])
    {c : Host.Construction} (hmk : Host.Making W.linkage h1.heap h2.heap c)
    (hdep : c.depth = h1.stack.depth) :
    Poised W (h1.spilled (c.arguments ++ [c.receiver])) (h2.spilled (c.arguments ++ [c.receiver])) spare
      (.made c :: control) := by
  obtain ⟨stack, hstk⟩ : ∃ stack, stack = h1.stack.pushValues (c.arguments ++ [c.receiver]) :=
    ⟨_, rfl⟩
  have hwds : ∀ j, j < h1.stack.depth → stack.words[j]? = h1.stack.words[j]? := by
    intro j hj
    rw [hstk, (Host.pushValues_words h1.stack _).1]
    exact Array.getElem?_append_left hj
  have htop : stack.depth = c.depth + 2 * (c.arguments.length + 1) := by
    rw [hstk, Host.depth_pushValues, hdep]
    simp
  have hbot : stack.bottom = 0 := by
    rw [hstk, (Host.pushValues_words h1.stack _).2]
    exact hp.bottom
  unfold Host.spilled
  rw [hp.twin.stack, ← hstk]
  refine ⟨Ground.made.mpr (hp.toGround.withStack hbot), ?_⟩
  show Tower W _ _ h1.roots.slots.toList stack.depth h1.checkpoints
  rw [htop]
  refine .made ?_ hne hmk ?_
  · rw [hdep]
    exact hp.tower.mono hW (hp.keeps_withStack hwds)
  · intro y hy
    obtain ⟨j, hlow, hhigh, hword⟩ := exists_word_pushValues h1.stack hy
    rw [List.length_append, List.length_singleton] at hhigh
    exact ⟨j, by omega, by omega, hstk ▸ hword⟩

theorem Filled.stocked {buffer : Nat} (hf : Filled (W.view h1 h2) a buffer count)
    (hslt : a.registers[buffer]? = some (some (.ptr (.values slots 0)))) :
    Stocked (Heap.Live h1.heap h2.heap) h1.slots slots count := by
  intro j hj
  rw [countOf_ofNat] at hj
  have hle := Nat.mod_le count 0x10000000000000000
  have hlt := Nat.mod_lt count (show 0x10000000000000000 > 0 by decide)
  obtain ⟨slots', i, hbuf, hi, y, hy, hlv⟩ := hf j (by omega)
  obtain ⟨rfl, -⟩ := Pointer.values.inj (Scalar.ptr.inj
    (Option.some.inj (Option.some.inj (hslt.symm.trans hbuf))))
  rw [Nat.mod_eq_of_lt (by omega)] at hi
  exact ⟨i, y, hi, hy, hlv⟩

theorem Proceeds.awaiting {d : Option Nat} {m : Machine}
    (hm : Proceeds cps (.body { a with awaits := d } :: rest) m) : Proceeds cps (.body a :: rest) m := by
  rcases hm with hm | ⟨c, hc, b, r, rest', b', hsuf, hb⟩
  · exact .inl hm
  · rcases List.suffix_cons_iff.mp hsuf with heq | hsuf
    · obtain ⟨hentry, rfl⟩ := List.cons.inj heq
      cases hentry
      exact .inr ⟨c, hc, a, r, rest', b', List.suffix_refl _, hb⟩
    · exact .inr ⟨c, hc, b, r, rest', b', hsuf.trans (List.suffix_cons _ _), hb⟩

section

variable (hW : W.Sound) (hg : Ground W h1 h2 spare (.body a :: rest))
  (hs : Settled W a x before seg)
  (hp : Posture W h1 h2 a rest x before i roots seg cps a.resumes.length)
  (hS : ∀ m, Proceeds h1.checkpoints (.body a :: rest) m → S m)

include hW hg hs hp hS

/-- What follows a call that was passed a buffer: its answer is written, or its method is run. -/
theorem settled_yields (hi : i = .call (some d) e.result (.entry e) arguments) (hcalm : i.isCalm)
    (hval : e.result = .value) (hraise : e ≠ .raise) (hrole : (W.cert a).HasRole d .value)
    (hyields : Yields W.linkage e effect h1.heap h2.heap) :
    Together W S (apply W.image effect (destOf i) a rest h1 spare)
      (apply W.image effect (destOf i) a rest h2 spare) := by
  rcases hyields with hanswers | ⟨m, t, vs, rfl, hm, harity, ht, hvs⟩
  · have hreceives : (W.cert a).Receives (some d) e.result := by
      rw [hval]
      exact ⟨nofun, hrole⟩
    exact settled_answers hW hg hs hp hi hcalm (hval ▸ nofun) hraise hreceives hanswers
      fun m hm => hS m (.inl hm)
  · have hpoised := poised_waiting hg hs hp hi hcalm hrole
    subst hi
    exact invoke_together hW hpoised (by simp) hm harity ht hvs fun m hm => hS m (.inl hm)

theorem instantiate_together {d : Nat} {ty : Ty} {arguments : List Typed}
    (hi : i = .call (some d) ty (.entry .instantiate) arguments)
    (hrole : (W.cert a).HasRole d .value) {cls : Value} (hcls : (W.view h1 h2).live cls)
    {size base cells count : Nat} {bs : List Scalar} {slots : Array Nat}
    (hbs : List.Forall₂ (Passed W h1 h2 size base cells) Ir.siteRoles bs)
    (hslt : Stocked (Heap.Live h1.heap h2.heap) h1.slots slots count)
    (hss : arguments.mapM (a.typed W.image) =
      .ok (.value cls :: .ptr (.values slots 0) :: .int (Int64.ofNat count) :: bs)) :
    StepTogether W S h1 h2 spare a rest := by
  have hperf : perform W.image a i = callEntry W.image .instantiate
      (.value cls :: .ptr (.values slots 0) :: .int (Int64.ofNat count) :: bs) := by
    rw [hi]
    exact perform_call hss
  rcases begin_instantiate hg.twin hcls hbs hslt rfl with
    ⟨c, g1, g2, hcall1, hcall2, honw, hmk, hdep⟩ | halike
  · rw [← hperf] at hcall1 hcall2
    refine perform_together hp.standing hcall1 hcall2 ?_
    have hgrd := hg.onward honw
    have hpost := hp.onward hW hg honw
    have hpoised := poised_waiting hgrd hs hpost hi (hi ▸ rfl) hrole
    have hdest : destOf i = some d := by rw [hi]; rfl
    have hcps := honw.frame.checkpoints
    rw [hdest]
    refine advance_together hW (hpoised.construct hW (by simp) hmk ?_)
      (fun m hm => hS m (Proceeds.awaiting (d := some d) ?_)) fun k1 k2 hk hrecv hk1 => ?_
    · rw [honw.frame.stack]
      exact hdep
    · rw [← hcps]
      exact hm
    · refine deliver_together hW hk (by simp) hrecv fun m hm =>
        hS m (Proceeds.awaiting (d := some d) ?_)
      rw [← hcps]
      exact hk1 ▸ hm
  · rw [stepTogether_iff hp.standing, hperf]
    exact andThen_together_of halike (fun _ _ _ => settled_raise hW hg hs hp hS) fun _ _ _ _ h => h.elim

variable (hin : Inside W (W.view h1 h2) a before)

include hin

theorem buffered_together {front back : List Typed} {buffer : Nat}
    (hi : i = .call dest e.result (.entry e) (front ++ .ptr buffer :: .i32 count :: back))
    (haround : e.around? = some (fronts, backs))
    (hahead : List.Forall₂ (Given W a x before) front fronts)
    (hbeh : List.Forall₂ (Given W a x before) back backs)
    (hsrc : (W.cert a).HasRole buffer (.buffer n)) (hfills : Fills buffer count before)
    (hreceives : (W.cert a).Receives dest e.result) : StepTogether W S h1 h2 spare a rest := by
  obtain ⟨fs, hfs, hfronts⟩ := hp.frame.mapM_typed hW hahead (hs.knows hp.standing)
  obtain ⟨bs, hbs, hbacks⟩ := hp.frame.mapM_typed hW hbeh (hs.knows hp.standing)
  obtain ⟨t, ht⟩ := hs.knows hp.standing buffer (.inr (.inl ⟨_, hsrc, rfl⟩))
  obtain ⟨slots, rfl, -, -⟩ := hp.frame.roles buffer t _ ht hsrc
  -- the buffer was filled by the stores right before the call
  have hstocked := (hin.filled buffer n count hsrc hfills).stocked ht
  obtain ⟨hcalm, hval, hraise⟩ := ordinary_of_around haround dest e.result
    (front ++ .ptr buffer :: .i32 count :: back)
  obtain ⟨d, rfl, hrole⟩ : ∃ d, dest = some d ∧ (W.cert a).HasRole d .value := by
    rw [hval] at hreceives
    cases dest with
    | none => cases hreceives
    | some d => exact ⟨d, rfl, hreceives.2⟩
  have hss : (front ++ .ptr buffer :: .i32 count :: back).mapM (a.typed W.image) =
      .ok (fs ++ .ptr (.values slots 0) :: .int (Int64.ofNat count) :: bs) := by
    have hbuf : a.typed W.image (.ptr buffer) = .ok (.ptr (.values slots 0)) := typed_reg _ ht _
    have hcnt : a.typed W.image (.i32 count) = .ok (.int (Int64.ofNat count)) := rfl
    rw [List.mapM_append, hfs, List.mapM_cons, hbuf, List.mapM_cons, hcnt, hbs]
    rfl
  -- only an instantiation goes on in compiled code
  by_cases he : e = .instantiate
  · subst he
    cases haround
    obtain _ | ⟨⟨⟨cls, rfl⟩, hcls⟩, _ | _⟩ := hfronts
    exact instantiate_together hW hg hs hp hS hi hrole (hcls cls rfl) hbacks hstocked hss
  · have hperf : perform W.image a i = callEntry W.image e
        (fs ++ .ptr (.values slots 0) :: .int (Int64.ofNat count) :: bs) := by
      rw [hi]
      exact perform_call hss
    rw [stepTogether_iff hp.standing, hperf]
    refine andThen_together_of (alike_buffered hg.twin haround he hfronts hbacks hstocked)
      (fun _ _ _ => settled_raise hW hg hs hp hS) fun effect g1 g2 honw hyields => ?_
    refine settled_yields hW (hg.onward honw) hs (hp.onward hW hg honw) (fun m hm => hS m ?_) hi
      (hi ▸ hcalm) hval hraise hrole hyields
    rw [← honw.frame.checkpoints]
    exact hm

end

end Ember.Machine
