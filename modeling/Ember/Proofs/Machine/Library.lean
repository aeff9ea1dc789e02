import Ember.Proofs.Machine.Frame

/-!
# Ember — calls of entry points, side by side

A certified call passes an entry point arguments of the roles that it asks for. Then the arguments fit
its declaration, the operation behind it treats twin hosts alike, and its answer fits the declaration
again.

Main results: `alike_addFieldCall`, `alike_addMethodCall`.
-/

namespace Ember.Machine

open Ir (Role EntryPoint)
open Host (Matched Alike Twin Alive Any)
open Heap (Live)

variable {slots : Array Nat} {values : Array Value} {Q : Effect → Heap → Heap → Prop}
  {e : EntryPoint} {ρs : List Role} {bs ss : List Scalar} {count id : Nat}
  {cls hidden name : Scalar} {symbol : String} {live : Value → Prop}

variable {W : World} {L : Linkage} {h1 h2 : Host} {image : Image} {size base cells : Nat}

/-- What is passed for a role: it is of the right kind, and alive if it is a value. -/
def Passed (W : World) (h1 h2 : Host) (size base cells : Nat) (ρ : Role) (s : Scalar) : Prop :=
  Holds W size base cells ρ s ∧ ∀ x, s = .value x → Live h1.heap h2.heap x

theorem live_of {k1 k2 : Heap} {v : Value} (hv : Live k1 k2 v) (x : Value)
    (hx : Scalar.value v = .value x) : Live k1 k2 x :=
  Scalar.value.inj hx ▸ hv

/-- An answer of the declared type, alive if it is a value. -/
def Answers (e : EntryPoint) (effect : Effect) (k1 k2 : Heap) : Prop :=
  ∃ s, effect = .answer s ∧ s.hasType e.result = true ∧ ∀ x, s = .value x → Live k1 k2 x

/-! ## The shape of a call -/

theorem textAt_eq (hid : id < image.texts.size) : ∃ t, textAt image (.ptr (.text id)) = .ok t := by
  refine ⟨image.texts.entries[id], ?_⟩
  show image.texts.get id = _
  unfold Table.get Table.get?
  rw [Array.getElem?_eq_getElem hid]

theorem alike_callEntry (haccepts : accepts e ss = true)
    (hbody : Matched L h1 h2 Q (callBody image e ss))
    (hQ : ∀ s k1 k2, Q (.answer s) k1 k2 → s.hasType e.result = true) :
    Matched L h1 h2 Q (callEntry image e ss) := by
  unfold callEntry
  rw [if_pos haccepts]
  refine hbody.bind fun effect g1 g2 hg heffect => ?_
  cases effect with
  | answer s =>
    have hanswered : answered e (.answer s) = pure (.answer s) := if_pos (hQ s _ _ heffect)
    rw [hanswered]
    exact .pure hg.twin heffect
  | _ => exact .pure hg.twin heffect

theorem callBody_sited (he : e.reportsSite = true) (own : List Scalar) (line : Int64)
    (hid : id < image.texts.size) :
    ∃ site, callBody image e (own ++ [.int line, .ptr (.text id)]) =
      callSited e own (textAt image) site := by
  obtain ⟨file, hfile⟩ := textAt_eq hid
  refine ⟨⟨file, countOf line % 0x100000000⟩, ?_⟩
  have hsite : siteAt image line (.ptr (.text id)) = .ok ⟨file, countOf line % 0x100000000⟩ := by
    unfold siteAt
    rw [hfile]
    rfl
  unfold callBody
  rw [if_pos he, List.reverse_append]
  simp only [List.reverse_cons, List.reverse_nil, List.nil_append, List.cons_append,
    List.reverse_reverse, hsite]
  rfl

theorem passed_site (hss : List.Forall₂ (Passed W h1 h2 size base cells) Ir.siteRoles ss) :
    ∃ line id, ss = [.int line, .ptr (.text id)] ∧ id < W.image.texts.size := by
  obtain _ | ⟨⟨⟨line, rfl⟩, -⟩, _ | ⟨⟨⟨id, rfl, hid⟩, -⟩, _ | _⟩⟩ := hss
  exact ⟨line, id, rfl, hid⟩

theorem alike_sited (he : e.reportsSite = true) (own : List Scalar)
    (hss : List.Forall₂ (Passed W h1 h2 size base cells) Ir.siteRoles ss)
    (haccepts : ∀ line id, accepts e (own ++ [.int line, .ptr (.text id)]) = true)
    (hQ : ∀ s k1 k2, Q (.answer s) k1 k2 → s.hasType e.result = true)
    (hbody : ∀ site, Matched L h1 h2 Q (callSited e own (textAt W.image) site)) :
    Matched L h1 h2 Q (callEntry W.image e (own ++ ss)) := by
  obtain ⟨line, id, rfl, hid⟩ := passed_site hss
  obtain ⟨site, hsite⟩ := callBody_sited he own line hid
  refine alike_callEntry (haccepts line id) ?_ hQ
  rw [hsite]
  exact hbody site

theorem Answers.hasType (s : Scalar) (k1 k2 : Heap) (hs : Answers e (.answer s) k1 k2) :
    s.hasType e.result = true := by
  obtain ⟨t, ht, htype, -⟩ := hs
  cases ht
  exact htype

theorem alike_answerValue (he : e.result = .value) {x : Act Value}
    (hx : Matched L h1 h2 Alive x) :
    Matched L h1 h2 (Answers e) (answerValue x) := by
  refine hx.bind fun v g1 g2 hg hv => .pure hg.twin ⟨.value v, rfl, ?_, live_of hv⟩
  rw [he]
  rfl

theorem alike_answerVoid (he : e.result = .void) {x : Act Unit}
    (hx : Matched L h1 h2 Any x) :
    Matched L h1 h2 (Answers e) (answerVoid x) := by
  refine hx.bind fun _ g1 g2 hg _ => .pure hg.twin ⟨.void, rfl, ?_, nofun⟩
  rw [he]
  rfl

theorem alike_answerNumber {α : Type} {x : Act α} {f : α → Scalar}
    (hx : Matched L h1 h2 Any x) (hf : ∀ y, (f y).hasType e.result = true)
    (hne : ∀ y v, f y ≠ .value v) :
    Matched L h1 h2 (Answers e) (do return .answer (f (← x)) : Act Effect) :=
  hx.bind fun y _ _ hg _ => .pure hg.twin ⟨f y, rfl, hf y, fun v hv => (hne y v hv).elim⟩

theorem alike_answer (ht : Twin L h1 h2) {s : Scalar} (hs : s.hasType e.result = true)
    (hlv : ∀ x, s = .value x → Live h1.heap h2.heap x) :
    Matched L h1 h2 (Answers e) (pure (.answer s) : Act Effect) :=
  .pure ht ⟨s, rfl, hs, hlv⟩

theorem ofCode?_code (op : Operator) : Operator.ofCode? (Int64.ofNat op.code).toInt = some op := by
  cases op <;> decide

theorem alike_textAt (hid : id < image.texts.size) {f : String → Act Effect}
    (hf : ∀ t, Matched L h1 h2 Q (f t)) :
    Matched L h1 h2 Q (Host.sound (textAt image (.ptr (.text id))) >>= f) := by
  obtain ⟨t, htext⟩ := textAt_eq hid
  rw [htext]
  exact hf t

/-! ## Ordinary entry points -/

theorem alike_plain (ht : Twin L h1 h2) (he : e.reportsSite = false)
    (hsig : e.signature? = some ρs)
    (hss : List.Forall₂ (Passed W h1 h2 size base cells) ρs ss) :
    Matched L h1 h2 (Answers e) (callEntry W.image e ss) := by
  cases e with
  | int | bool | float =>
    cases hsig
    obtain _ | ⟨⟨⟨_, rfl⟩, -⟩, _ | _⟩ := hss
    exact alike_callEntry rfl (alike_answer ht rfl (live_of ⟨trivial, trivial⟩)) Answers.hasType
  | null =>
    cases hsig
    obtain _ | _ := hss
    exact alike_callEntry rfl (alike_answer ht rfl (live_of ⟨trivial, trivial⟩)) Answers.hasType
  | string =>
    cases hsig
    obtain _ | ⟨⟨⟨id, rfl, hid⟩, -⟩, _ | _⟩ := hss
    exact alike_callEntry rfl (alike_textAt hid fun t => alike_answerValue rfl (Host.alike_string ht t))
      Answers.hasType
  | classNew =>
    cases hsig
    obtain _ | ⟨⟨⟨id, rfl, hid⟩, -⟩, _ | _⟩ := hss
    exact alike_callEntry rfl (alike_textAt hid fun t => alike_answerValue rfl (Host.alike_newClass ht t))
      Answers.hasType
  | dictNew =>
    cases hsig
    obtain _ | _ := hss
    exact alike_callEntry rfl (alike_answerValue rfl (Host.alike_newDict ht)) Answers.hasType
  | currentException =>
    cases hsig
    obtain _ | _ := hss
    have hsame : h2.currentException = h1.currentException := by
      rw [Host.currentException, ht.exception, Host.currentException]
    have hlv : Live h1.heap h2.heap h1.currentException := by
      unfold Host.currentException
      cases hexc : h1.exception with
      | none => exact ⟨trivial, trivial⟩
      | some v => exact ht.caught v hexc
    refine alike_callEntry rfl ?_ Answers.hasType
    show Alike L h1 h2 _ ((pure (.answer (.value h1.currentException)) : Act Effect) h1)
      ((pure (.answer (.value h2.currentException)) : Act Effect) h2)
    rw [hsame]
    exact alike_answer ht rfl (live_of hlv)
  | truthy =>
    cases hsig
    obtain _ | ⟨⟨⟨v, rfl⟩, hv⟩, _ | _⟩ := hss
    refine alike_callEntry rfl ?_ Answers.hasType
    exact alike_answerNumber (Host.Alike.inspect ht (Host.reads_truthy ht.heaps (hv v rfl))
      fun _ _ => trivial) (fun _ => rfl) (fun _ _ => nofun)
  | _ => first | (cases hsig; done) | cases he

theorem alike_reporting (ht : Twin L h1 h2) (he : e.reportsSite = true)
    (hsig : e.signature? = some ρs)
    (hss : List.Forall₂ (Passed W h1 h2 size base cells) ρs ss) :
    Matched L h1 h2 (Answers e) (callEntry W.image e ss) := by
  cases e with
  | toInt =>
    cases hsig
    obtain _ | ⟨⟨⟨v, rfl⟩, -⟩, hss⟩ := hss
    exact alike_sited he [.value v] hss (fun _ _ => rfl) Answers.hasType fun site =>
      alike_answerNumber (Host.alike_toInt ht v site) (fun _ => rfl) (fun _ _ => nofun)
  | toFloat =>
    cases hsig
    obtain _ | ⟨⟨⟨v, rfl⟩, -⟩, hss⟩ := hss
    exact alike_sited he [.value v] hss (fun _ _ => rfl) Answers.hasType fun site =>
      alike_answerNumber (Host.alike_toFloat ht v site) (fun _ => rfl) (fun _ _ => nofun)
  | length =>
    cases hsig
    obtain _ | ⟨⟨⟨v, rfl⟩, hv⟩, hss⟩ := hss
    exact alike_sited he [.value v] hss (fun _ _ => rfl) Answers.hasType fun site =>
      alike_answerNumber (Host.alike_length ht (hv v rfl) site) (fun _ => rfl) (fun _ _ => nofun)
  | dictKeys =>
    cases hsig
    obtain _ | ⟨⟨⟨v, rfl⟩, hv⟩, hss⟩ := hss
    exact alike_sited he [.value v] hss (fun _ _ => rfl) Answers.hasType fun site =>
      alike_answerValue rfl (Host.alike_dictKeys ht (hv v rfl) site)
  | raise =>
    cases hsig
    obtain _ | ⟨⟨⟨v, rfl⟩, hv⟩, hss⟩ := hss
    exact alike_sited he [.value v] hss (fun _ _ => rfl) Answers.hasType fun site =>
      Host.alike_raise ht (hv v rfl) site
  | binary =>
    cases hsig
    obtain _ | ⟨⟨⟨op, rfl⟩, -⟩, _ | ⟨⟨⟨v, rfl⟩, hv⟩, _ | ⟨⟨⟨w, rfl⟩, hw⟩, hss⟩⟩⟩ := hss
    refine alike_sited he [.int (Int64.ofNat op.code), .value v, .value w] hss (fun _ _ => rfl)
      Answers.hasType fun site => ?_
    unfold callSited
    simp only [ofCode?_code]
    exact alike_answerValue rfl (Host.alike_operate ht op (hv v rfl) (hw w rfl) site)
  | contains =>
    cases hsig
    obtain _ | ⟨⟨⟨v, rfl⟩, hv⟩, _ | ⟨⟨⟨w, rfl⟩, hw⟩, hss⟩⟩ := hss
    exact alike_sited he [.value v, .value w] hss (fun _ _ => rfl) Answers.hasType fun site =>
      alike_answerValue rfl (Host.alike_contains ht (hv v rfl) (hw w rfl) site)
  | indexGet =>
    cases hsig
    obtain _ | ⟨⟨⟨v, rfl⟩, hv⟩, _ | ⟨⟨⟨w, rfl⟩, hw⟩, hss⟩⟩ := hss
    exact alike_sited he [.value v, .value w] hss (fun _ _ => rfl) Answers.hasType fun site =>
      alike_answerValue rfl (Host.alike_indexGet ht (hv v rfl) (hw w rfl) site)
  | indexSet =>
    cases hsig
    obtain _ | ⟨⟨⟨v, rfl⟩, hv⟩, _ | ⟨⟨⟨w, rfl⟩, hw⟩, _ | ⟨⟨⟨y, rfl⟩, hy⟩, hss⟩⟩⟩ := hss
    exact alike_sited he [.value v, .value w, .value y] hss (fun _ _ => rfl) Answers.hasType fun site =>
      alike_answerVoid rfl (Host.alike_indexSet ht (hv v rfl) (hw w rfl) (hy y rfl) site)
  | slice =>
    cases hsig
    obtain _ | ⟨⟨⟨v, rfl⟩, hv⟩, _ | ⟨⟨⟨w, rfl⟩, -⟩, _ | ⟨⟨⟨y, rfl⟩, -⟩, hss⟩⟩⟩ := hss
    exact alike_sited he [.value v, .value w, .value y] hss (fun _ _ => rfl) Answers.hasType fun site =>
      alike_answerValue rfl (Host.alike_slice ht (hv v rfl) w y site)
  | memberGet =>
    cases hsig
    obtain _ | ⟨⟨⟨v, rfl⟩, hv⟩, _ | ⟨⟨⟨name, rfl, hname⟩, -⟩, _ | ⟨⟨⟨n, rfl⟩, -⟩, hss⟩⟩⟩ := hss
    exact alike_sited he [.value v, .ptr (.text name), .int n] hss (fun _ _ => rfl) Answers.hasType fun site =>
      alike_textAt hname fun t => alike_answerValue rfl (Host.alike_memberGet ht (hv v rfl) t (n != 0) site)
  | memberSet =>
    cases hsig
    obtain _ | ⟨⟨⟨v, rfl⟩, hv⟩, _ | ⟨⟨⟨name, rfl, hname⟩, -⟩, _ | ⟨⟨⟨w, rfl⟩, hw⟩, _ | ⟨⟨⟨n, rfl⟩, -⟩, hss⟩⟩⟩⟩ := hss
    exact alike_sited he [.value v, .ptr (.text name), .value w, .int n] hss (fun _ _ => rfl) Answers.hasType fun site =>
      alike_textAt hname fun t => alike_answerVoid rfl (Host.alike_memberSet ht (hv v rfl) (hw w rfl) t (n != 0) site)
  | _ => first | (cases hsig; done) | cases he

theorem alike_ordinary (ht : Twin L h1 h2) (hsig : e.signature? = some ρs)
    (hss : List.Forall₂ (Passed W h1 h2 size base cells) ρs ss) :
    Matched L h1 h2 (Answers e) (callEntry W.image e ss) := by
  cases he : e.reportsSite with
  | false => exact alike_plain ht he hsig hss
  | true => exact alike_reporting ht he hsig hss

/-! ## Buffers -/

theorem countOf_ofNat (n : Nat) : countOf (Int64.ofNat n) = n % 0x10000000000000000 := by
  simp [countOf]

/-- The first cells of a run of slots hold live values. -/
def Stocked (live : Value → Prop) (values : Array Value) (slots : Array Nat) (count : Nat) : Prop :=
  ∀ j, j < countOf (Int64.ofNat count) → ∃ i x, slots[j]? = some i ∧ values[i]? = some x ∧ live x

theorem mapM_load {slots : List Nat} (hslt : ∀ i ∈ slots, ∃ x, values[i]? = some x ∧ live x) :
    ∃ vs, (∀ h : Host, h.slots = values → slots.mapM Host.load h = .ok vs h) ∧
      vs.length = slots.length ∧ ∀ x ∈ vs, live x := by
  induction slots with
  | nil => exact ⟨[], fun _ _ => rfl, rfl, nofun⟩
  | cons i slots ih =>
    obtain ⟨x, hx, hlv⟩ := hslt i (.head _)
    obtain ⟨vs, hrun, hlen, hvs⟩ := ih fun j hj => hslt j (.tail _ hj)
    refine ⟨x :: vs, fun h hh => ?_, by simp [hlen], ?_⟩
    · have hload : Host.load i h = .ok x h := by
        subst hh
        unfold Host.load
        rw [Host.get_bind, hx]
        rfl
      rw [List.mapM_cons, Host.bind_ok hload, Host.bind_ok (hrun h hh)]
      rfl
    · intro y hy
      rcases List.mem_cons.mp hy with rfl | hy
      · exact hlv
      · exact hvs y hy

theorem valuesAt_eq (hslt : Stocked live values slots count) :
    ∃ vs, (∀ h : Host, h.slots = values →
        valuesAt (.values slots 0) (Int64.ofNat count) h = .ok vs h) ∧ ∀ x ∈ vs, live x := by
  have hle : countOf (Int64.ofNat count) ≤ slots.size := by
    by_contra hlt
    obtain ⟨i, -, hi, -⟩ := hslt slots.size (by omega)
    simp at hi
  have hstocked : ∀ i ∈ (slots.extract 0 (countOf (Int64.ofNat count))).toList,
      ∃ x, values[i]? = some x ∧ live x := by
    intro i hi
    obtain ⟨j, hj, hget⟩ := List.mem_iff_getElem.mp hi
    have hj' : j < countOf (Int64.ofNat count) := by
      simp at hj
      omega
    obtain ⟨i', x, hi', hx⟩ := hslt j hj'
    have heq : i' = i := by
      have hlt : j < slots.size := by omega
      rw [Array.getElem?_eq_getElem hlt] at hi'
      simp at hget
      exact (Option.some.inj hi').symm.trans hget
    exact ⟨x, heq ▸ hx⟩
  obtain ⟨vs, hrun, -, hvs⟩ := mapM_load hstocked
  refine ⟨vs, fun h hh => ?_, hvs⟩
  unfold valuesAt
  simp only [Nat.zero_add]
  rw [if_pos hle]
  exact hrun h hh

/-- What a call that is passed a buffer asks for: an answer, or a method to be run. -/
def Yields (L : Linkage) (e : EntryPoint) (effect : Effect) (k1 k2 : Heap) : Prop :=
  Answers e effect k1 k2 ∨ ∃ m t vs, effect = .invoke m t vs ∧ L.method m ∧ m.arity = vs.length ∧
    Live k1 k2 t ∧ ∀ x ∈ vs, Live k1 k2 x

theorem Yields.hasType (s : Scalar) (k1 k2 : Heap) (hs : Yields L e (.answer s) k1 k2) :
    s.hasType e.result = true := by
  rcases hs with hs | ⟨m, t, vs, heq, -⟩
  · exact hs.hasType s k1 k2
  · cases heq

theorem Alike.valuesAt_bind (ht : Twin L h1 h2)
    (hslt : Stocked (Live h1.heap h2.heap) h1.slots slots count) {f : List Value → Act Effect}
    (hf : ∀ vs, (∀ x ∈ vs, Live h1.heap h2.heap x) → Matched L h1 h2 Q (f vs)) :
    Matched L h1 h2 Q (valuesAt (.values slots 0) (Int64.ofNat count) >>= f) := by
  obtain ⟨vs, hrun, hvs⟩ := valuesAt_eq hslt
  rw [Matched, Host.bind_ok (hrun h1 rfl), Host.bind_ok (hrun h2 ht.slots)]
  exact hf vs hvs

theorem alike_buffered (ht : Twin L h1 h2) {fronts backs : List Role}
    (haround : e.around? = some (fronts, backs)) (he : e ≠ .instantiate) {fs : List Scalar}
    (hfs : List.Forall₂ (Passed W h1 h2 size base cells) fronts fs)
    (hbs : List.Forall₂ (Passed W h1 h2 size base cells) backs bs)
    (hslt : Stocked (Live h1.heap h2.heap) h1.slots slots count) :
    Matched L h1 h2 (Yields L e)
      (callEntry W.image e (fs ++ .ptr (.values slots 0) :: .int (Int64.ofNat count) :: bs)) := by
  have hanswers : ∀ effect k1 k2, Answers e effect k1 k2 → Yields L e effect k1 k2 :=
    fun _ _ _ h => .inl h
  cases e with
  | arrayNew =>
    cases haround
    obtain _ | _ := hfs
    obtain _ | _ := hbs
    refine alike_callEntry rfl (Alike.valuesAt_bind ht hslt fun vs hvs => ?_) Yields.hasType
    refine (alike_answerValue rfl (Host.alike_newArray ht fun x hx => ?_)).mono hanswers
    exact hvs x (by simpa using hx)
  | builtin b =>
    cases haround
    obtain _ | _ := hfs
    refine alike_sited rfl [.ptr (.values slots 0), .int (Int64.ofNat count)] hbs (fun _ _ => rfl)
      Yields.hasType fun site => ?_
    refine Alike.valuesAt_bind ht hslt fun vs hvs => ?_
    exact (alike_answerValue rfl (Host.alike_builtin ht b hvs site)).mono hanswers
  | callMethod =>
    cases haround
    obtain _ | ⟨⟨⟨t, rfl⟩, htgt⟩, _ | ⟨⟨⟨name, rfl, hname⟩, -⟩, _ | _⟩⟩ := hfs
    obtain _ | ⟨⟨⟨inside, rfl⟩, -⟩, hbs⟩ := hbs
    obtain ⟨text, htext⟩ := textAt_eq hname
    refine alike_sited rfl [.value t, .ptr (.text name), .ptr (.values slots 0),
      .int (Int64.ofNat count), .int inside] hbs (fun _ _ => rfl) Yields.hasType fun site => ?_
    refine .sound_bind ht ?_ fun text _ => ?_
    · rw [htext]
      exact nofun
    · refine Alike.valuesAt_bind ht hslt fun vs hvs => ?_
      refine (Host.alike_methodFor ht (htgt t rfl) text vs.length (inside != 0) site).bind
        fun m g1 g2 hg hm => .pure hg.twin ?_
      obtain ⟨hmeth, harity, hkeeping⟩ := hm
      exact .inr ⟨m, t, vs, rfl, hmeth, harity, hkeeping t (htgt t rfl),
        fun x hx => hkeeping x (hvs x hx)⟩
  | instantiate => exact absurd rfl he
  | _ => cases haround

/-- The making of an instance begins: its arguments and the instance are on the machine stack. -/
theorem begin_instantiate (ht : Twin L h1 h2) {cls : Value} (hcls : Live h1.heap h2.heap cls)
    (hbs : List.Forall₂ (Passed W h1 h2 size base cells) Ir.siteRoles bs)
    (hslt : Stocked (Live h1.heap h2.heap) h1.slots slots count)
    (hss : ss = .value cls :: .ptr (.values slots 0) :: .int (Int64.ofNat count) :: bs) :
    (∃ c g1 g2,
      callEntry W.image .instantiate ss h1 =
        .ok (.construct c) (g1.spilled (c.arguments ++ [c.receiver])) ∧
      callEntry W.image .instantiate ss h2 =
        .ok (.construct c) (g2.spilled (c.arguments ++ [c.receiver])) ∧
      Host.Onward L h1 h2 g1 g2 ∧ Host.Making L g1.heap g2.heap c ∧ c.depth = h1.stack.depth) ∨
    Matched L h1 h2 (fun _ _ _ => False) (callEntry W.image .instantiate ss) := by
  obtain ⟨line, id, rfl, hid⟩ := passed_site hbs
  obtain ⟨vs, hrun, hvs⟩ := valuesAt_eq hslt
  obtain ⟨site, hsite⟩ := callBody_sited (e := .instantiate) rfl
    [.value cls, .ptr (.values slots 0), .int (Int64.ofNat count)] line hid
  have hcall : ∀ h : Host, h.slots = h1.slots → callEntry W.image .instantiate ss h =
      (Host.begin cls vs site >>= fun c => pure (.construct c)) h := by
    intro h hh
    have hbody : callBody W.image .instantiate ss h =
        (Host.begin cls vs site >>= fun c => pure (.construct c)) h := by
      rw [hss]
      exact (congrFun hsite h).trans (Host.bind_ok (hrun h hh))
    have haccepts : accepts .instantiate ss = true := by
      rw [hss]
      rfl
    unfold callEntry
    rw [if_pos haccepts]
    rw [Host.bind_apply, hbody, ← Host.bind_apply, bind_assoc]
    rfl
  rw [Matched, hcall h1 rfl, hcall h2 ht.slots]
  rcases Host.alike_begin ht hcls hvs site with ⟨c, g1, g2, h1', h2', hg, hmk, hdep, -⟩ | halike
  · refine .inl ⟨c, g1, g2, ?_, ?_, hg, hmk, hdep⟩
    · rw [Host.bind_ok h1']
      rfl
    · rw [Host.bind_ok h2']
      rfl
  · exact .inr (halike.bind fun c _ _ _ h => h.elim)

/-! ## Members of classes -/

theorem alike_addFieldCall (ht : Twin W.linkage h1 h2) {symbol : String}
    (hsym : W.interface.HasField symbol) {cls name hidden : Scalar}
    (hss : List.Forall₂ (Passed W h1 h2 size base cells) [.value, .text, .int .bit] [cls, name, hidden]) :
    Matched W.linkage h1 h2 (Answers .classAddField)
      (callEntry W.image .classAddField [cls, name, .ptr (.function symbol), hidden]) := by
  obtain _ | ⟨⟨⟨v, rfl⟩, hv⟩, _ | ⟨⟨⟨id, rfl, hid⟩, -⟩, _ | ⟨⟨⟨n, rfl⟩, -⟩, _ | _⟩⟩⟩ := hss
  exact alike_callEntry rfl (alike_textAt hid fun _ => alike_answerVoid rfl
    (Host.alike_addField ht (hv v rfl) hsym)) Answers.hasType

theorem alike_addMethodCall (ht : Twin W.linkage h1 h2) {symbol : String} {arity : Nat}
    (hsym : W.interface.HasMethod symbol arity) {cls name hidden : Scalar}
    (hss : List.Forall₂ (Passed W h1 h2 size base cells) [.value, .text, .int .bit] [cls, name, hidden]) :
    Matched W.linkage h1 h2 (Answers .classAddMethod)
      (callEntry W.image .classAddMethod [cls, name, .ptr (.function symbol), .int (Int64.ofNat arity), hidden]) := by
  obtain _ | ⟨⟨⟨v, rfl⟩, hv⟩, _ | ⟨⟨⟨id, rfl, hid⟩, -⟩, _ | ⟨⟨⟨n, rfl⟩, -⟩, _ | _⟩⟩⟩ := hss
  exact alike_callEntry rfl (alike_textAt hid fun _ => alike_answerVoid rfl
    (Host.alike_addMethod ht (hv v rfl) ⟨arity, hsym, rfl⟩)) Answers.hasType

end Ember.Machine
