import Ember.Proofs.Lowering.Session

/-!
# Ember — expressions fit a certificate

The code of an expression leaves its value in a register for values, in the block in which it began.
The arguments of a call stand in the cells of its buffer, in order, right before the call.

Main result: `emits_lower`.
-/

namespace Ember

variable {values : List Nat}

namespace Lowering

open Ir (Draft Convention Cert Role Typed Fills Instr Interface Callee)

variable {I : Interface} {k : Convention} {c c' : Cert} {s s' : Session} {α : Type}

/-! ## Operations -/

theorem emits_constantValue (hs : s.Sound I k c) (loc : Location) (l : Literal) :
    Makes I k c s (constantValue loc l) .value := by
  cases l with
  | int n => exact emits_invoke hs rfl (by decide) (.cons (.int rfl) .nil)
  | float x => exact emits_invoke hs rfl (by decide) (.cons .float .nil)
  | bool b => exact emits_invoke hs rfl (by decide) (.cons .bool .nil)
  | str text => exact emits_string hs text loc
  | null => exact emits_null hs

theorem register_push_bind (ty : Ir.Ty) (make : Nat → Instr) (f : Nat → Lowering α) :
    (do
      let r ← drafting (Draft.register ty)
      drafting (Draft.push (make r))
      f r) =
    drafting (do let r ← Draft.register ty; Draft.push (make r); return r) >>= f := by
  simp only [drafting_bind, drafting_pure, bind_assoc, pure_bind]

section

variable (hs : s.Sound I k c)

include hs

theorem emits_invert {truth : Nat} (htruth : s.body.draft.Holds c truth (.int .bit)) :
    Makes I k c s (invert truth) .value := by
  unfold invert
  rw [register_push_bind]
  refine Emits.bind (emits_writes (P := fun r c' d' => d'.Holds c' r (.int .bit)) hs
    ((Draft.yields_int hs.draft (show _ = Ir.Width.bit.ty from rfl) (fun _ => rfl) (fun _ => rfl)
      fun r c' hle hr x hx hstdy => ?_).mono fun _ _ ⟨c', hw, hr⟩ => ⟨c', _, hw, hr⟩)) ?_
  · exact .arith hstdy hr (Draft.Gives.at htruth.gives hx hle) .bool
  · exact fun r c1 s1 hs1 _ hr => emits_invoke hs1 rfl (by decide) (.cons hr.gives .nil)

theorem emits_contains (loc : Location) {container item : Nat}
    (hcont : s.body.draft.Holds c container .value) (hitem : s.body.draft.Holds c item .value) :
    Makes I k c s (contains loc container item) .value :=
  emits_invokeAt hs loc [.value, .value] rfl (by decide)
    (.cons hcont.gives (.cons hitem.gives .nil))

theorem emits_binaryOp (loc : Location) (op : BinaryOp) {lhs rhs : Nat}
    (hlhs : s.body.draft.Holds c lhs .value) (hrhs : s.body.draft.Holds c rhs .value) :
    Makes I k c s (binaryOp loc op lhs rhs) .value := by
  cases op with
  | apply op => exact emits_operate hs loc op hlhs hrhs
  | isIn => exact emits_contains hs loc hrhs hlhs
  | notIn =>
    refine (emits_contains hs loc hrhs hlhs).bind fun found c1 s1 hs1 _ hfound => ?_
    exact (emits_truthy hs1 hfound).bind fun truth c2 s2 hs2 _ htruth => emits_invert hs2 htruth

theorem emits_unaryOp (loc : Location) (op : UnaryOp) {operand : Nat}
    (hopd : s.body.draft.Holds c operand .value) :
    Makes I k c s (unaryOp loc op operand) .value := by
  cases op with
  | not =>
    exact (emits_truthy hs hopd).bind fun truth c1 s1 hs1 _ htruth => emits_invert hs1 htruth
  | negate =>
    exact (emits_invoke (e := .int) hs rfl (by decide) (.cons (.int rfl) .nil)).bind
      fun origin c1 s1 hs1 hd1 horigin => emits_operate hs1 loc .subtract horigin (hopd.mono hd1)

theorem emits_math (loc : Location) (op : Ir.MathOp) {r : Nat}
    (hr : s.body.draft.Holds c r .value) :
    Makes I k c s (math loc op r) .value := by
  refine (emits_invokeAt hs loc [.value] rfl (by decide) (.cons hr.gives .nil)).bind ?_
  intro x c1 s1 hs1 _ hx
  have hcal : (Callee.intrinsic (.math op)).result ≠ .void := nofun
  refine Emits.bind (emits_writes (P := fun y c' d' => d'.Holds c' y .float) hs1
    ((Draft.yields_callFor hs1.draft hcal (fun _ => rfl) fun y c' hle hy z hz hstdy _ => ?_).mono
      fun _ _ ⟨c', hw, hy⟩ => ⟨c', _, hw, hy⟩)) ?_
  · exact .math hstdy hy (Draft.Gives.at hx.gives hz hle)
  · exact fun y c2 s2 hs2 _ hy => emits_invoke hs2 rfl (by decide) (.cons hy.gives .nil)

/-! ## Arguments -/

theorem emits_fill {buffer size : Nat} (hbuf : c.HasRole buffer (.buffer size)) (i : Nat)
    (hvals : ∀ r ∈ values, s.body.draft.Holds c r .value) (hroom : i + values.length ≤ size)
    (hfilled : Fills buffer i s.body.draft.trail) :
    Emits I k c s (fill buffer i values) fun _ _ d' => Fills buffer (i + values.length) d'.trail := by
  induction values generalizing c s i with
  | nil => exact .pure hs hfilled
  | cons r rest ih =>
    rw [List.length_cons] at hroom
    refine Emits.bind (emits_writes (P := fun cell c' d' => d'.Holds c' cell .entry ∧
      d'.trail = .element cell .value (.reg buffer) (.i64 (Int64.ofNat i)) :: s.body.draft.trail) hs
      ((Draft.yields_elementOfBuffer hs.draft hbuf (show i < size by omega)).mono
        fun _ _ ⟨c', hw, hcell⟩ => ⟨c', _, hw, hcell, hw.trail⟩)) ?_
    rintro cell c1 s1 hs1 hd1 ⟨hcell, htrail1⟩
    have hr := (hvals r (.head _)).mono hd1
    refine Emits.bind (emits_writes (P := fun _ _ d' =>
      d'.trail = .store (.value r) (.reg cell) :: s1.body.draft.trail) hs1
      ((Draft.yields_storeEntry hs1.draft hr hcell).mono fun _ _ hw => ⟨c1, _, hw, hw.trail⟩)) ?_
    intro _ c2 s2 hs2 hd2 htrail2
    have hd := hd1.trans hd2
    have hfilled2 : Fills buffer (i + 1) s2.body.draft.trail := by
      refine ⟨r, cell, s.body.draft.trail, ?_, hfilled⟩
      rw [htrail2, htrail1]
    refine (ih hs2 (hbuf.mono hd.le) (i + 1)
      (fun r' hr' => (hvals r' (.tail _ hr')).mono hd) (by omega) hfilled2).mono ?_
    intro _ _ d' h
    rw [List.length_cons, Nat.add_comm rest.length, ← Nat.add_assoc]
    exact h

/-- The operands for a buffer that is filled. -/
def Marshalled (count : Nat) (ts : List Typed) (c : Cert) (d : Draft) : Prop :=
  ∃ buffer size, ts = [.ptr buffer, .i32 count] ∧ c.HasRole buffer (.buffer size) ∧ count ≤ size ∧
    Fills buffer count d.trail

theorem emits_marshal (hvals : ∀ r ∈ values, s.body.draft.Holds c r .value) :
    Emits I k c s (marshal values) (Marshalled values.length) := by
  refine Emits.bind (emits_writes hs ((Draft.yields_cells hs.draft _).mono
    fun _ _ ⟨c', hw, hr⟩ => ⟨c', _, hw, hr⟩)) ?_
  intro buffer c1 s1 hs1 hd1 hbuf
  refine (emits_fill hs1 hbuf 0 (fun r hr => (hvals r hr).mono hd1) (by omega) trivial).bind ?_
  intro _ c2 s2 hs2 hd2 hfilled
  refine .pure hs2 ⟨buffer, _, rfl, hbuf.mono hd2.le, Nat.le_max_left .., ?_⟩
  rwa [Nat.zero_add] at hfilled

theorem emits_buffered {e : Ir.EntryPoint} {front back ts : List Typed}
    {fronts backs : List Role} {count : Nat} (hres : e.result ≠ .void)
    (haround : e.around? = some (fronts, backs))
    (hfront : List.Forall₂ (s.body.draft.Gives I c) front fronts)
    (hback : List.Forall₂ (s.body.draft.Gives I c) back backs)
    (hts : Marshalled count ts c s.body.draft) :
    Makes I k c s (invoke e (front ++ ts ++ back)) e.result.role := by
  obtain ⟨buffer, size, rfl, hbuf, hcnt, hfilled⟩ := hts
  have hcal : (Callee.entry e).result ≠ .void := hres
  have hcalm : ∀ dest ts, (Instr.call dest e.result (.entry e) ts).isCalm := by
    intro dest ts
    cases e <;> first | rfl | cases haround
  refine emits_writes hs ((Draft.yields_callFor hs.draft hcal (fun _ => hcalm _ _)
    fun r c' hle hr x hx hstdy _ => ?_).mono fun _ _ ⟨c', hw, hr⟩ => ⟨c', _, hw, hr⟩)
  rw [List.append_assoc]
  exact .buffered hstdy haround (hfront.imp fun _ _ ht => ht.at hx hle)
    (hback.imp fun _ _ ht => ht.at hx hle) (hbuf.mono hle) hcnt hfilled ⟨hres, hr⟩

/-- A function of the program takes as many values as it is called with. -/
def Target.Accepts (I : Interface) (count : Nat) : Target → Prop
  | .function name => I.HasFunction (functionSymbol name) count
  | _ => True

theorem yields_target (loc : Location) (name : String) (supplied : Nat) :
    Yields (target loc name supplied) s fun t s' => s = s' ∧ t.Accepts I supplied := by
  unfold target
  split
  · split
    · exact .pure ⟨rfl, trivial⟩
    · exact .throw
  · split
    · split
      · exact .pure ⟨rfl, trivial⟩
      · exact .throw
    · exact .pure ⟨rfl, trivial⟩
  · refine .get_bind (yields_check.bind ?_)
    rintro f _ ⟨rfl, hcall⟩
    refine .pure ⟨rfl, name, ?_, rfl⟩
    unfold Functions.checkCall at hcall
    split at hcall
    · cases hcall
    · next g hg =>
      split at hcall
      · next harity =>
        have hname : g.name = name := by simpa using List.find?_some hg
        rw [← hname, ← harity]
        exact hs.calls g (List.mem_of_find?_eq_some hg)
      · cases hcall

theorem emits_callTarget (loc : Location) {target : Target} {rs : List Nat}
    (htgt : target.Accepts I rs.length) (hrs : ∀ r ∈ rs, s.body.draft.Holds c r .value) :
    Makes I k c s (callTarget loc target rs) .value := by
  unfold callTarget
  split
  · exact emits_math hs loc _ (hrs _ (.head _))
  · exact .throw
  · next b =>
    refine (emits_marshal hs hrs).bind fun ts c1 s1 hs1 _ hts => ?_
    refine Emits.read (yields_site hs1 loc) fun place hplace => ?_
    have hnone : List.Forall₂ (s1.body.draft.Gives I c1) [] [] := .nil
    have hcall := emits_buffered (e := .builtin b) hs1 nofun rfl hnone hplace hts
    exact hcall
  · next name =>
    have hcal : (Callee.function (functionSymbol name)).result ≠ .void := nofun
    refine emits_writes hs ((Draft.yields_callFor hs.draft hcal (fun _ => rfl)
      fun r c' hle hr x hx hstdy _ => ?_).mono fun _ _ ⟨c', hw, hr⟩ => ⟨c', _, hw, hr⟩)
    exact .function hstdy htgt (fun r' hr' => Draft.Gives.at (hrs r' hr').gives hx hle) hr

end

theorem yields_checkConstruction (s : Session) (loc : Location) (cls : Expr) (supplied : Nat) :
    Yields (checkConstruction loc cls supplied) s fun _ s' => s = s' ∧ True := by
  unfold checkConstruction
  split
  · refine .get_bind ?_
    split
    · refine yields_sound.bind ?_
      rintro binding _ ⟨rfl, -⟩
      split
      · split
        · exact .pure ⟨rfl, trivial⟩
        · dsimp only
          split
          · exact .pure ⟨rfl, trivial⟩
          · exact .throw
      · exact .pure ⟨rfl, trivial⟩
    · exact .pure ⟨rfl, trivial⟩
  · exact .pure ⟨rfl, trivial⟩

/-! ## Expressions -/

mutual

theorem emits_lower (e : Expr) {k : Convention} {c : Cert} {s : Session}
    (hs : s.Sound I k c) : Makes I k c s e.lower .value :=
  match e with
  | .literal loc l => by
    rw [Expr.lower]
    exact emits_constantValue hs loc l
  | .ident loc name => by
    rw [Expr.lower]
    refine Emits.read (yields_resolve hs name loc) fun o ho => ?_
    exact emits_load hs ho
  | .this loc => by
    rw [Expr.lower]
    refine Yields.get_bind ?_
    split
    · next r hr =>
      obtain ⟨hrole, hinput⟩ := hs.receiver r hr
      obtain ⟨x, hx, -⟩ := hs.draft.stands
      -- the receiver is a parameter, so that it is known in every block
      have hknown : s.body.draft.Holds c r .value := ⟨hrole, x, hx, .inl hinput⟩
      exact Emits.pure (P := fun r c' d' => d'.Holds c' r .value) hs hknown
    · exact .throw
  | .array _ elements => by
    rw [Expr.lower]
    refine (emits_lowerAll elements hs).bind fun rs c1 s1 hs1 _ hrs => ?_
    refine (emits_marshal hs1 hrs.2).bind fun ts c2 s2 hs2 _ hts => ?_
    have hnone : List.Forall₂ (s2.body.draft.Gives I c2) [] [] := .nil
    have hcall := emits_buffered (e := .arrayNew) hs2 (by decide) rfl hnone hnone hts
    rwa [List.nil_append, List.append_nil] at hcall
  | .dict loc entries => by
    rw [Expr.lower]
    refine (emits_invoke hs rfl (by decide) .nil).bind fun dict c1 s1 hs1 _ hdict => ?_
    refine (emits_lowerEntries loc entries hs1 hdict).bind fun _ c2 s2 hs2 hd2 _ => ?_
    exact .pure hs2 (hdict.mono hd2)
  | .binary loc op lhs rhs => by
    rw [Expr.lower]
    refine (emits_lower lhs hs).bind fun l c1 s1 hs1 _ hl => ?_
    refine (emits_lower rhs hs1).bind fun r c2 s2 hs2 hd2 hr => ?_
    exact emits_binaryOp hs2 loc op (hl.mono hd2) hr
  | .unary loc op operand => by
    rw [Expr.lower]
    exact (emits_lower operand hs).bind fun r c1 s1 hs1 _ hr => emits_unaryOp hs1 loc op hr
  | .index loc target position => by
    rw [Expr.lower]
    refine (emits_lower target hs).bind fun t c1 s1 hs1 _ ht => ?_
    refine (emits_lower position hs1).bind fun p c2 s2 hs2 hd2 hp => ?_
    exact emits_elementAt hs2 loc (ht.mono hd2) hp
  | .slice loc target start stop => by
    rw [Expr.lower]
    refine (emits_lower target hs).bind fun t c1 s1 hs1 _ ht => ?_
    refine (emits_lowerOption start hs1).bind fun a c2 s2 hs2 hd2 ha => ?_
    refine (emits_lowerOption stop hs2).bind fun b c3 s3 hs3 hd3 hb => ?_
    exact emits_invokeAt hs3 loc [.value, .value, .value] rfl (by decide)
      (.cons (ht.mono (hd2.trans hd3)).gives (.cons (ha.mono hd3).gives (.cons hb.gives .nil)))
  | .member loc target name => by
    rw [Expr.lower]
    refine (emits_lower target hs).bind fun t c1 s1 hs1 _ ht => ?_
    refine Emits.read (yields_constant hs1 name loc) fun text htext => ?_
    exact emits_invokeAt hs1 loc [.value, .text, .int .bit] rfl (by decide)
      (.cons ht.gives (.cons htext.gives (.cons .bool .nil)))
  | .call loc name arguments => by
    rw [Expr.lower]
    refine Emits.read (yields_target hs loc name arguments.length) fun t ht => ?_
    refine (emits_lowerAll arguments hs).bind fun rs c1 s1 hs1 _ hrs => ?_
    exact emits_callTarget hs1 loc (hrs.1 ▸ ht) hrs.2
  | .methodCall loc target name arguments => by
    rw [Expr.lower]
    refine (emits_lower target hs).bind fun t c1 s1 hs1 _ ht => ?_
    refine (emits_lowerAll arguments hs1).bind fun rs c2 s2 hs2 hd2 hrs => ?_
    refine (emits_marshal hs2 hrs.2).bind fun ts c3 s3 hs3 hd3 hts => ?_
    refine Emits.read (yields_constant hs3 name loc) fun text htext => ?_
    refine Emits.read (yields_site hs3 loc) fun place hplace => ?_
    rw [List.append_assoc]
    exact emits_buffered (e := .callMethod) hs3 (by decide) rfl
      (.cons (ht.mono (hd2.trans hd3)).gives (.cons htext.gives .nil)) (.cons .bool hplace) hts
  | .construct loc cls arguments => by
    rw [Expr.lower]
    refine Emits.read (yields_checkConstruction s loc cls arguments.length) fun _ _ => ?_
    refine (emits_lower cls hs).bind fun t c1 s1 hs1 _ ht => ?_
    refine (emits_lowerAll arguments hs1).bind fun rs c2 s2 hs2 hd2 hrs => ?_
    refine (emits_marshal hs2 hrs.2).bind fun ts c3 s3 hs3 hd3 hts => ?_
    refine Emits.read (yields_site hs3 loc) fun place hplace => ?_
    have hcls : List.Forall₂ (s3.body.draft.Gives I c3) [.value t] [.value] :=
      .cons (ht.mono (hd2.trans hd3)).gives .nil
    have hcall := emits_buffered (e := .instantiate) hs3 (by decide) rfl hcls hplace hts
    exact hcall

theorem emits_lowerAll (es : List Expr) {k : Convention} {c : Cert} {s : Session}
    (hs : s.Sound I k c) : Emits I k c s (Expr.lowerAll es) fun rs c' d' =>
      es.length = rs.length ∧ ∀ r ∈ rs, d'.Holds c' r .value :=
  match es with
  | [] => by
    rw [Expr.lowerAll]
    exact .pure hs ⟨rfl, nofun⟩
  | e :: rest => by
    rw [Expr.lowerAll]
    refine (emits_lower e hs).bind fun r c1 s1 hs1 _ hr => ?_
    refine (emits_lowerAll rest hs1).bind fun rs c2 s2 hs2 hd2 hrs => ?_
    exact .pure hs2 ⟨congrArg Nat.succ hrs.1, List.forall_mem_cons.mpr ⟨hr.mono hd2, hrs.2⟩⟩

theorem emits_lowerEntries (loc : Location) {dict : Nat} (entries : List (Expr × Expr))
    {k : Convention} {c : Cert} {s : Session} (hs : s.Sound I k c)
    (hdict : s.body.draft.Holds c dict .value) :
    Emits I k c s (Expr.lowerEntries loc dict entries) fun _ _ _ => True :=
  match entries with
  | [] => by
    rw [Expr.lowerEntries]
    exact .pure hs trivial
  | (key, value) :: rest => by
    rw [Expr.lowerEntries]
    refine (emits_lower key hs).bind fun k c1 s1 hs1 hd1 hk => ?_
    refine (emits_lower value hs1).bind fun v c2 s2 hs2 hd2 hv => ?_
    have hdict := hdict.mono (hd1.trans hd2)
    refine (emits_performAt hs2 loc [.value, .value, .value] rfl rfl
      (.cons hdict.gives (.cons (hk.mono hd2).gives (.cons hv.gives .nil)))).bind
      fun _ c3 s3 hs3 hd3 _ => ?_
    exact emits_lowerEntries loc rest hs3 (hdict.mono hd3)

theorem emits_lowerOption (e : Option Expr) {k : Convention} {c : Cert} {s : Session}
    (hs : s.Sound I k c) :
    Makes I k c s (Expr.lowerOption e) .value :=
  match e with
  | none => by
    rw [Expr.lowerOption]
    exact emits_null hs
  | some e => by
    rw [Expr.lowerOption]
    exact emits_lower e hs

end

end Lowering

end Ember
