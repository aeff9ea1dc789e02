import Ember.Ir.Listing
import Ember.Proofs.Ir.Drafting

/-!
# Ember — names inside a function

The registers and the blocks of a function share one space of names. A register has a name of its
own, made for a parameter, for a variable of the source program or for one of a few fixed uses, or it
is named by its number; a block is named by its label and its number. Two things of a function never
have one name, and this is kept while the function is written.

Main results: `Function.Named.registerName_inj`, `Function.Named.blockName_inj`, `Function.Named.registerName_ne`.
-/

namespace Ember

/-- Names of the source program: not empty, without a dot, and not beginning with a digit. -/
def Identifier (name : String) : Prop :=
  name ≠ "" ∧ '.' ∉ name.toList ∧ name.toList.head?.any Char.isDigit = false

instance (name : String) : Decidable (Identifier name) :=
  inferInstanceAs (Decidable (_ ∧ _ ∧ _))

end Ember

namespace Ember.Ir

variable {ν : Naming} {limit limit' r : Nat} {reg : Register} {label name : String}
  {blocks : Table Block} {registers : Table Register}

/-! ## Spelling -/

/-- The names of registers that do not depend on the source program. -/
def fixedNames : List String :=
  ["result", "this", "args", "argc", "argv", "stack.bottom"]

/-- The labels of blocks. -/
def labels : List String :=
  ["entry", "body", "exit", "dead", "if.then", "if.else", "if.end", "while.cond", "while.body",
   "while.end", "for.down", "for.cond", "for.body", "for.step", "for.end", "foreach.array",
   "foreach.not_array", "foreach.dict", "foreach.invalid", "foreach.cond", "foreach.body",
   "foreach.step", "foreach.end", "try.body", "try.catch", "try.end", "assert.fail", "assert.pass"]

/-- What a name inside a function stands for. -/
inductive Naming
  /-- A register that is named by its number. -/
  | temporary (register : Nat)
  | fixed (word : String)
  | argument (parameter : String)
  /-- The storage of a variable. -/
  | slot (name : String) (ordinal : Nat)
  | block (label : String) (number : Nat)

namespace Naming

/-- The spelling of a name. -/
def text : Naming → String
  | temporary r => "t" ++ toString r
  | fixed word => word
  | argument p => "arg." ++ p
  | slot name n => name ++ "." ++ toString n
  | block label b => label ++ toString b

/-- Names that are made of identifiers, fixed names and labels. -/
def Valid : Naming → Prop
  | temporary _ => True
  | fixed word => word ∈ fixedNames
  | argument p => Identifier p
  | slot name _ => Identifier name
  | block label _ => label ∈ labels

/-- The names that registers have of their own, with the ordinals of variables below a limit. -/
def Own (limit : Nat) : Naming → Prop
  | fixed word => word ∈ fixedNames
  | argument p => Identifier p
  | slot name n => Identifier name ∧ n < limit
  | _ => False

theorem Own.valid (h : ν.Own limit) : ν.Valid := by
  cases ν with
  | temporary r => exact h.elim
  | fixed word => exact h
  | argument p => exact h
  | slot name n => exact h.1
  | block label b => exact h.elim

theorem Own.mono (h : ν.Own limit) (hle : limit ≤ limit') : ν.Own limit' := by
  cases ν with
  | slot name n => exact ⟨h.1, Nat.lt_of_lt_of_le h.2 hle⟩
  | temporary r | fixed word | argument p | block label b => exact h

/-- The kinds of names. -/
inductive Kind
  | temporary | fixed | argument | slot | block
deriving DecidableEq

/-- The kind of a name. -/
def kind : Naming → Kind
  | temporary _ => .temporary
  | fixed _ => .fixed
  | argument _ => .argument
  | slot .. => .slot
  | block .. => .block

/-- What precedes the digits at the end of a spelling. -/
def stem (l : List Char) : List Char :=
  l.rdropWhile Char.isDigit

/-- The digits at the end of a spelling. -/
def digits (l : List Char) : List Char :=
  l.rtakeWhile Char.isDigit

theorem toList_toString (n : Nat) : (toString n).toList = Nat.toDigits 10 n :=
  Nat.toList_repr

theorem isDigit_toDigits (n : Nat) : ∀ c ∈ Nat.toDigits 10 n, c.isDigit = true :=
  fun _ hc => Nat.isDigit_of_mem_toDigits (by decide) (by decide) hc

theorem stem_append {l d : List Char} (hl : l.getLast?.any Char.isDigit = false)
    (hd : ∀ c ∈ d, c.isDigit = true) : stem (l ++ d) = l ∧ digits (l ++ d) = d := by
  induction d using List.reverseRecOn with
  | nil =>
    rw [List.append_nil]
    cases l using List.reverseRecOn with
    | nil => exact ⟨rfl, rfl⟩
    | append_singleton l c =>
      have hc : ¬c.isDigit = true := by simpa using hl
      rw [stem, digits, List.rdropWhile_concat, List.rtakeWhile_concat, if_neg hc, if_neg hc]
      exact ⟨rfl, rfl⟩
  | append_singleton d c ih =>
    obtain ⟨hstem, hdigits⟩ := ih fun x hx => hd x (List.mem_append_left _ hx)
    have hc : c.isDigit = true := hd c (by simp)
    rw [← List.append_assoc, stem, digits, List.rdropWhile_concat, List.rtakeWhile_concat, if_pos hc,
      if_pos hc]
    exact ⟨hstem, congrArg (· ++ [c]) hdigits⟩

/-- The kind that a spelling tells. -/
def kindOf (l : List Char) : Kind :=
  if (stem l).getLast? = some '.' then .slot
  else if "arg.".toList.isPrefixOf (stem l) then .argument
  else if digits l = [] then .fixed
  else if stem l = ['t'] then .temporary
  else .block

theorem digits_label : ∀ label ∈ labels, label.toList.getLast?.any Char.isDigit = false ∧
    label.toList.getLast? ≠ some '.' ∧ "arg.".toList.isPrefixOf label.toList = false ∧
    label.toList ≠ ['t'] := by
  decide +kernel

theorem kindOf_fixed : ∀ word ∈ fixedNames, kindOf word.toList = .fixed := by
  decide +kernel

theorem stem_argument {p : String} (hp : Identifier p) :
    (stem (text (.argument p)).toList).getLast? ≠ some '.' ∧
      "arg.".toList.isPrefixOf (stem (text (.argument p)).toList) = true := by
  obtain ⟨hempty, hdot, hinitial⟩ := hp
  rw [text, String.toList_append]
  have hstem : stem p.toList ≠ [] := by
    intro hnil
    -- An identifier of digits only would begin with one.
    have hall := List.rdropWhile_eq_nil_iff.mp hnil
    cases hlist : p.toList with
    | nil => exact hempty (String.ext hlist)
    | cons c rest =>
      rw [hlist] at hinitial
      have hc : c.isDigit = true := hall c (by rw [hlist]; exact .head _)
      simp [hc] at hinitial
  have happend : stem ("arg.".toList ++ p.toList) = "arg.".toList ++ stem p.toList := by
    have hsplit : p.toList = stem p.toList ++ digits p.toList :=
      (List.rdropWhile_append_rtakeWhile ..).symm
    conv_lhs => rw [hsplit, ← List.append_assoc]
    refine (stem_append ?_ fun c hc => List.mem_rtakeWhile_imp hc).1
    rw [List.getLast?_append_of_ne_nil _ hstem]
    have hlast := List.rdropWhile_last_not Char.isDigit p.toList hstem
    rw [List.getLast?_eq_getLast_of_ne_nil hstem]
    exact Bool.eq_false_iff.mpr hlast
  rw [happend]
  refine ⟨fun hlast => ?_, List.isPrefixOf_iff_prefix.mpr (List.prefix_append ..)⟩
  rw [List.getLast?_append_of_ne_nil _ hstem] at hlast
  exact hdot ((List.rdropWhile_prefix Char.isDigit p.toList).subset (List.mem_of_getLast? hlast))

theorem stem_temporary (r : Nat) : stem (text (.temporary r)).toList = ['t'] ∧
    digits (text (.temporary r)).toList = Nat.toDigits 10 r := by
  rw [text, String.toList_append, toList_toString]
  exact stem_append rfl (isDigit_toDigits r)

theorem stem_slot (name : String) (n : Nat) :
    stem (text (.slot name n)).toList = name.toList ++ ['.'] ∧
      digits (text (.slot name n)).toList = Nat.toDigits 10 n := by
  rw [text, String.toList_append, String.toList_append, toList_toString]
  exact stem_append (by simp) (isDigit_toDigits n)

theorem stem_block (hlab : label ∈ labels) (b : Nat) :
    stem (text (.block label b)).toList = label.toList ∧
      digits (text (.block label b)).toList = Nat.toDigits 10 b := by
  rw [text, String.toList_append, toList_toString]
  exact stem_append (digits_label label hlab).1 (isDigit_toDigits b)

theorem kindOf_text (hν : ν.Valid) : kindOf ν.text.toList = ν.kind := by
  cases ν with
  | temporary r =>
    obtain ⟨hstem, hdigits⟩ := stem_temporary r
    simp [kindOf, hstem, hdigits, kind]
  | fixed word => exact kindOf_fixed word hν
  | argument p =>
    obtain ⟨hdot, hargument⟩ := stem_argument hν
    rw [kindOf, if_neg hdot, if_pos hargument, kind]
  | slot name n =>
    obtain ⟨hstem, -⟩ := stem_slot name n
    simp [kindOf, hstem, kind]
  | block label b =>
    obtain ⟨hstem, hdigits⟩ := stem_block hν b
    obtain ⟨-, hdot, hargument, ht⟩ := digits_label label hν
    simp only [kindOf, hstem, hdigits, if_neg hdot, hargument, Bool.false_eq_true, if_false,
      if_neg Nat.toDigits_ne_nil, if_neg ht, kind]

theorem toDigits_inj {m n : Nat} (h : Nat.toDigits 10 m = Nat.toDigits 10 n) : m = n := by
  refine Nat.repr_injective (String.ext ?_)
  rw [Nat.toList_repr, Nat.toList_repr, h]

theorem text_inj {μ : Naming} (hν : ν.Valid) (hμ : μ.Valid) (h : ν.text = μ.text) : ν = μ := by
  have hlist : ν.text.toList = μ.text.toList := congrArg String.toList h
  have hkind : ν.kind = μ.kind := by rw [← kindOf_text hν, ← kindOf_text hμ, hlist]
  have hstem : stem ν.text.toList = stem μ.text.toList := congrArg stem hlist
  have hdigits : digits ν.text.toList = digits μ.text.toList := congrArg digits hlist
  -- the kind can be read off the text, so that only names of one kind are compared
  cases ν with
  | temporary r =>
    cases μ with
    | temporary r' =>
      rw [(stem_temporary r).2, (stem_temporary r').2] at hdigits
      rw [toDigits_inj hdigits]
    | _ => cases hkind
  | fixed word =>
    cases μ with
    | fixed word' => exact congrArg fixed h
    | _ => cases hkind
  | argument p =>
    cases μ with
    | argument p' =>
      simp only [text, String.toList_append] at hlist
      exact congrArg argument (String.ext (List.append_cancel_left hlist))
    | _ => cases hkind
  | slot name n =>
    cases μ with
    | slot name' n' =>
      rw [(stem_slot name n).1, (stem_slot name' n').1] at hstem
      rw [(stem_slot name n).2, (stem_slot name' n').2] at hdigits
      rw [toDigits_inj hdigits, String.ext (List.append_cancel_right hstem)]
    | _ => cases hkind
  | block label b =>
    cases μ with
    | block label' b' =>
      rw [(stem_block hν b).1, (stem_block hμ b').1] at hstem
      rw [(stem_block hν b).2, (stem_block hμ b').2] at hdigits
      rw [toDigits_inj hdigits, String.ext hstem]
    | _ => cases hkind

end Naming

/-! ## Registers and blocks -/

/-- The names that registers have of their own. -/
def ownNames (registers : Table Register) : List String :=
  registers.toList.filterMap Register.name

/-- Registers and blocks whose names are spelled so, no two registers with one name. The ordinals of
variables are below a limit. -/
structure Named (limit : Nat) (registers : Table Register) (blocks : Table Block) : Prop where
  distinct : (ownNames registers).Nodup
  spelled : ∀ name ∈ ownNames registers, ∃ ν : Naming, ν.Own limit ∧ ν.text = name
  labelled : ∀ b ∈ blocks.toList, b.label ∈ labels

/-- A function whose registers and blocks are named so. -/
def Function.Named (f : Function) : Prop :=
  ∃ limit, Ir.Named limit f.registers f.blocks

theorem mem_ownNames (hr : registers.get? r = some reg) (hname : reg.name = some name) :
    name ∈ ownNames registers :=
  List.mem_filterMap.mpr ⟨reg, Array.mem_toList_iff.mpr (Array.mem_of_getElem? hr), hname⟩

theorem Named.mono (h : Named limit registers blocks) (hle : limit ≤ limit') :
    Named limit' registers blocks where
  distinct := h.distinct
  spelled name hname := by
    obtain ⟨ν, hν, htext⟩ := h.spelled name hname
    exact ⟨ν, hν.mono hle, htext⟩
  labelled := h.labelled

theorem Named.slot_not_mem (h : Named limit registers blocks) (hname : Identifier name) :
    (Naming.slot name limit).text ∉ ownNames registers := by
  intro hmem
  obtain ⟨ν, hν, htext⟩ := h.spelled _ hmem
  obtain rfl := Naming.text_inj (μ := .slot name limit) hν.valid hname htext
  exact Nat.lt_irrefl limit hν.2

theorem eq_of_ownNames (hdist : (ownNames registers).Nodup) {r' : Nat} {reg' : Register}
    (hr : registers.get? r = some reg) (hr' : registers.get? r' = some reg')
    (hname : reg.name = some name) (hname' : reg'.name = some name) : r = r' := by
  have hpairs := List.pairwise_iff_getElem.mp (List.pairwise_filterMap.mp hdist)
  obtain ⟨hlt, hat⟩ := Array.getElem?_eq_some_iff.mp hr
  obtain ⟨hlt', hat'⟩ := Array.getElem?_eq_some_iff.mp hr'
  have hne : ∀ i j (hi : i < registers.entries.size) (hj : j < registers.entries.size), i < j →
      registers.entries[i].name = some name → registers.entries[j].name ≠ some name :=
    fun i j hi hj hij hi' hj' => hpairs i j hi hj hij name hi' name hj' rfl
  rcases Nat.lt_trichotomy r r' with h | h | h
  · exact absurd (hat' ▸ hname') (hne r r' hlt hlt' h (hat ▸ hname))
  · exact h
  · exact absurd (hat ▸ hname) (hne r' r hlt' hlt h (hat' ▸ hname'))

namespace Function

variable {f : Function} {r r' b b' : Nat} {name : String}

theorem registerName_eq_ok (h : f.registerName r = .ok name) :
    ∃ reg, f.registers.get? r = some reg ∧
      (reg.name = some name ∨ name = (Naming.temporary r).text) := by
  unfold registerName Table.get at h
  cases hr : f.registers.get? r with
  | none =>
    rw [hr] at h
    cases h
  | some reg =>
    rw [hr] at h
    refine ⟨reg, rfl, ?_⟩
    have h := Except.ok.inj h
    cases hname : reg.name with
    | none =>
      rw [hname] at h
      exact .inr h.symm
    | some own =>
      rw [hname] at h
      exact .inl (congrArg some h)

theorem blockName_eq_ok (h : f.blockName b = .ok name) :
    ∃ blk, f.blocks.get? b = some blk ∧ name = (Naming.block blk.label b).text := by
  unfold blockName Table.get at h
  cases hb : f.blocks.get? b with
  | none =>
    rw [hb] at h
    cases h
  | some blk =>
    rw [hb] at h
    exact ⟨blk, rfl, (Except.ok.inj h).symm⟩

theorem Named.naming (hf : f.Named) (h : f.registerName r = .ok name) :
    ∃ ν : Naming, ν.Valid ∧ ν.text = name ∧ ν.kind ≠ .block ∧
      (ν = .temporary r ∨ ν.kind ≠ .temporary ∧
        ∃ reg, f.registers.get? r = some reg ∧ reg.name = some name) := by
  obtain ⟨limit, hf⟩ := hf
  obtain ⟨reg, hr, hname | rfl⟩ := registerName_eq_ok h
  · obtain ⟨ν, hν, htext⟩ := hf.spelled name (mem_ownNames hr hname)
    refine ⟨ν, hν.valid, htext, ?_, .inr ⟨?_, reg, hr, hname⟩⟩
    · rintro hkind
      cases ν with
      | block label b => exact hν
      | _ => cases hkind
    · rintro hkind
      cases ν with
      | temporary r => exact hν
      | _ => cases hkind
  · exact ⟨.temporary r, trivial, rfl, nofun, .inl rfl⟩

theorem Named.block (hf : f.Named) (h : f.blockName b = .ok name) :
    ∃ label, (Naming.block label b).Valid ∧ (Naming.block label b).text = name := by
  obtain ⟨limit, hf⟩ := hf
  obtain ⟨blk, hb, rfl⟩ := blockName_eq_ok h
  exact ⟨blk.label, hf.labelled blk (Array.mem_toList_iff.mpr (Array.mem_of_getElem? hb)), rfl⟩

theorem Named.registerName_inj (hf : f.Named) (h : f.registerName r = .ok name)
    (h' : f.registerName r' = .ok name) : r = r' := by
  obtain ⟨ν, hν, htext, -, hr⟩ := hf.naming h
  obtain ⟨μ, hμ, htext', -, hr'⟩ := hf.naming h'
  obtain rfl := Naming.text_inj hν hμ (htext.trans htext'.symm)
  rcases hr with rfl | ⟨hkind, reg, hr, hname⟩
  · rcases hr' with hr' | ⟨hkind, -⟩
    · exact Naming.temporary.inj hr'
    · exact absurd rfl hkind
  · rcases hr' with rfl | ⟨-, reg', hr', hname'⟩
    · exact absurd rfl hkind
    · obtain ⟨limit, hf⟩ := hf
      exact eq_of_ownNames hf.distinct hr hr' hname hname'

theorem Named.blockName_inj (hf : f.Named) (h : f.blockName b = .ok name)
    (h' : f.blockName b' = .ok name) : b = b' := by
  obtain ⟨label, hlab, htext⟩ := hf.block h
  obtain ⟨label', hlabel', htext'⟩ := hf.block h'
  exact (Naming.block.inj (Naming.text_inj hlab hlabel' (htext.trans htext'.symm))).2

theorem Named.registerName_ne (hf : f.Named) (h : f.registerName r = .ok name) :
    f.blockName b ≠ .ok name := by
  intro h'
  obtain ⟨ν, hν, htext, hkind, -⟩ := hf.naming h
  obtain ⟨label, hlab, htext'⟩ := hf.block h'
  obtain rfl := Naming.text_inj hν hlab (htext.trans htext'.symm)
  exact hkind rfl

end Function

/-! ## Drafts -/

/-- A draft continued, with these names more. -/
structure Draft.Gains (names : List String) (d d' : Draft) : Prop where
  symbol : d'.symbol = d.symbol
  names : ownNames d'.registers = ownNames d.registers ++ names
  labelled : (∀ b ∈ d.blocks.toList, b.label ∈ labels) → ∀ b ∈ d'.blocks.toList, b.label ∈ labels

namespace Draft

variable {names names' : List String} {d d' d'' : Draft} {α β : Type}

theorem Gains.refl (d : Draft) : d.Gains [] d :=
  ⟨rfl, (List.append_nil _).symm, id⟩

theorem Gains.trans (h : d.Gains names d') (h' : d'.Gains names' d'') :
    d.Gains (names ++ names') d'' where
  symbol := h'.symbol.trans h.symbol
  names := by rw [h'.names, h.names, List.append_assoc]
  labelled hd := h'.labelled (h.labelled hd)

theorem Gains.named (h : d.Gains names d') (hd : Named limit d.registers d.blocks)
    (hle : limit ≤ limit') (hown : ∀ name ∈ names, ∃ ν : Naming, ν.Own limit' ∧ ν.text = name)
    (hfresh : (ownNames d.registers ++ names).Nodup) : Named limit' d'.registers d'.blocks where
  distinct := h.names ▸ hfresh
  spelled := h.names ▸ List.forall_mem_append.mpr ⟨(hd.mono hle).spelled, hown⟩
  labelled := h.labelled hd.labelled

/-- Construction that gives registers these names. -/
def Gaining (names : List String) (x : Drafting α) : Prop :=
  ∀ d, Yields x d fun _ d' => d.Gains names d'

/-- Construction that gives no register a name. -/
def Quiet (x : Drafting α) : Prop :=
  Gaining [] x

theorem Gaining.bind {x : Drafting α} {f : α → Drafting β} (hx : Gaining names x)
    (hf : ∀ a, Gaining names' (f a)) : Gaining (names ++ names') (x >>= f) :=
  fun d => (hx d).bind fun a d1 h1 => (hf a d1).mono fun _ _ h2 => h1.trans h2

theorem Gaining.before {x : Drafting α} {f : α → Drafting β} (hx : Gaining names x)
    (hf : ∀ a, Quiet (f a)) : Gaining names (x >>= f) := by
  have h := hx.bind hf
  rwa [List.append_nil] at h

namespace Quiet

variable {x : Drafting α} {f : α → Drafting β}

theorem pure (a : α) : Quiet (Pure.pure a) :=
  fun d => .pure (.refl d)

theorem fail (fault : Fault) : Quiet (Draft.fail fault : Drafting α) :=
  fun _ => .throw

theorem bind (hx : Quiet x) (hf : ∀ a, Quiet (f a)) : Quiet (x >>= f) :=
  show Gaining ([] ++ []) (x >>= f) from Gaining.bind hx hf

theorem get : Quiet (MonadState.get : Drafting Draft) :=
  fun d => .get_bind (f := Pure.pure) (.pure (.refl d))

theorem modify {g : Draft → Draft} (hg : ∀ d, (g d).symbol = d.symbol ∧
    (g d).registers = d.registers ∧ (g d).blocks = d.blocks) : Quiet (modify g) := by
  refine fun d => .modifyGet ⟨(hg d).1, ?_, ?_⟩
  · show ownNames (g d).registers = _
    rw [(hg d).2.1, List.append_nil]
  · show _ → ∀ b ∈ (g d).blocks.toList, _
    rw [(hg d).2.2]
    exact id

end Quiet

theorem ownNames_push (registers : Table Register) (reg : Register) :
    ownNames (registers.push reg) = ownNames registers ++ reg.name.toList := by
  unfold ownNames Table.push Table.toList
  rw [Array.toList_push, List.filterMap_append]
  cases h : reg.name <;> simp [h]

theorem gaining_register (ty : Ty) (name : Option String) :
    Gaining name.toList (register ty name) :=
  fun d => .modifyGet ⟨rfl, ownNames_push d.registers ⟨ty, name⟩, id⟩

theorem quiet_register (ty : Ty) : Quiet (register ty) :=
  gaining_register ty none

theorem gaining_parameter (ty : Ty) (name : String) : Gaining [name] (parameter ty name) :=
  .before (gaining_register ty (some name)) fun _ =>
    .bind (.modify fun _ => ⟨rfl, rfl, rfl⟩) fun _ => .pure _

theorem quiet_block (hlab : label ∈ labels) : Quiet (block label) := by
  refine fun d => .modifyGet ⟨rfl, (List.append_nil _).symm, fun hd b hb => ?_⟩
  have hb : b ∈ (d.blocks.entries.push { label }).toList := hb
  rw [Array.toList_push] at hb
  rcases List.mem_append.mp hb with hb | hb
  · exact hd b hb
  · exact List.mem_singleton.mp hb ▸ hlab

theorem labelled_set {blocks' : Table Block} {b : Nat} {blk blk' : Block}
    (hget : blocks.get? b = some blk) (hset : blocks.set b blk' = .ok blocks')
    (hlab : blk'.label = blk.label) (h : ∀ b ∈ blocks.toList, b.label ∈ labels) :
    ∀ b ∈ blocks'.toList, b.label ∈ labels := by
  unfold Table.set at hset
  split at hset
  · cases hset
    intro x hx
    rw [Table.toList, Array.toList_setIfInBounds] at hx
    rcases List.mem_or_eq_of_mem_set hx with hx | rfl
    · exact h x hx
    · rw [hlab]
      exact h blk (Array.mem_toList_iff.mpr (Array.mem_of_getElem? hget))
  · cases hset

theorem quiet_append (b : Nat) (i : Instr) : Quiet (append b i) := by
  refine fun d => .get_bind ?_
  split
  · exact .throw
  · next blk hget =>
    split
    · next blocks hset =>
      exact .set ⟨rfl, (List.append_nil _).symm, labelled_set hget hset rfl⟩
    · exact .throw

theorem quiet_push (i : Instr) : Quiet (push i) := by
  refine .bind .get fun d => ?_
  split
  · exact .fail _
  · split
    · exact .fail _
    · exact quiet_append d.current i

theorem quiet_pushPrologue (i : Instr) : Quiet (pushPrologue i) :=
  .bind .get fun d => quiet_append d.prologue i

theorem quiet_exitTry : Quiet exitTry := by
  refine fun d => .get_bind ?_
  split
  · exact .throw
  · exact .set ⟨rfl, (List.append_nil _).symm, id⟩

theorem quiet_exitInstrs : Quiet exitInstrs := by
  refine .bind .get fun d => ?_
  dsimp only
  split
  · exact .bind (quiet_register .value) fun _ => .pure _
  · exact .pure _
  · exact .pure _

theorem yields_finish_named (hd : Named limit d.registers d.blocks) :
    Yields finish d fun f _ => f.symbol = d.symbol ∧ f.Named := by
  refine .get_bind ?_
  refine (quiet_pushPrologue (.jump d.body) d).bind fun _ d1 h1 => ?_
  refine (quiet_exitInstrs d1).bind fun exit d2 h2 => .get_bind ?_
  have hgains := h1.trans h2
  have hlabelled := hgains.labelled hd.labelled
  split
  · exact .throw
  · next blk hget =>
    split
    · exact .throw
    · next blocks hset =>
      have hblks := labelled_set hget hset rfl hlabelled
      have hnms : ownNames d2.registers = ownNames d.registers :=
        hgains.names.trans (List.append_nil _)
      refine .pure ⟨hgains.symbol, limit, hnms ▸ hd.distinct, hnms ▸ hd.spelled, ?_⟩
      intro b hb
      have hb : b ∈ (blocks.entries.map sealBlock).toList := hb
      rw [Array.toList_map] at hb
      obtain ⟨b', hb', rfl⟩ := List.mem_map.mp hb
      have hseal : (sealBlock b').label = b'.label := by
        unfold sealBlock
        split <;> rfl
      exact hseal ▸ hblks b' hb'

end Draft

end Ember.Ir
