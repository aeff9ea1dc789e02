import Ember.Ir.Assembly
import Ember.Proofs.Ir.Reference

/-!
# Ember — colours and plain text

Colours are added by a painter and removed by a reader of terminal output. All that is asked of the two
is `Paints` and `Strips`: the painter puts colour sequences around a text, and the reader drops such
sequences and keeps whatever is no control. Then what the reader keeps of a coloured rendering is the
plain one, as long as the runs hold no controls. The fixed parts of a listing and of a report hold none;
the names and comments in them are the program's own.

Main results: `strip_recovers_plain`, and `paints_paint` and `strips_strip` for the painter and the
reader in use.
-/

namespace Ember.Text

variable {c : Char} {s t : String}

/-! ## Texts without controls -/

/-- Control characters, the line feed excepted. -/
def isControl (c : Char) : Bool :=
  (c.toNat < 0x20 && c != '\n') || (0x7f ≤ c.toNat && c.toNat < 0xa0)

/-- Texts without controls. -/
def isClean (s : String) : Bool :=
  s.toList.all fun c => !isControl c

@[simp] theorem isClean_append : isClean (s ++ t) = (isClean s && isClean t) := by
  simp [isClean]

theorem isClean_and (hs : isClean s = true) (ht : isClean t = true) : isClean (s ++ t) = true := by
  rw [isClean_append, hs, ht]
  rfl

theorem isClean_iff : isClean s = true ↔ ∀ c ∈ s.toList, isControl c = false := by
  simp [isClean]

theorem clean_digits {b : Nat} (hb : 1 < b) (hb' : b ≤ 16) (n : Nat) : ∀ c ∈ Nat.toDigits b n,
    isControl c = false ∧ isControl c.toUpper = false := by
  have hdigit : ∀ d < 16, isControl (Nat.digitChar d) = false ∧
      isControl (Nat.digitChar d).toUpper = false := by decide
  induction n using Nat.strongRecOn with
  | ind n ih =>
    rw [Nat.toDigits_eq_if hb]
    split
    · exact List.forall_mem_singleton.mpr (hdigit n (by omega))
    · have hmod := Nat.mod_lt n (Nat.zero_lt_of_lt hb)
      exact List.forall_mem_append.mpr ⟨ih _ (Nat.div_lt_self (by omega) hb),
        List.forall_mem_singleton.mpr (hdigit _ (by omega))⟩

@[simp] theorem isClean_nat (n : Nat) : isClean n.repr = true := by
  rw [isClean_iff, Nat.toList_repr]
  exact fun c hc => (clean_digits (by decide) (by decide) n c hc).1

theorem isClean_int (n : Int) : isClean (toString n) = true := by
  cases n with
  | ofNat n => exact isClean_nat n
  | negSucc n => exact isClean_and rfl (isClean_nat (n + 1))

/-! ## Painters and readers -/

/-- The parameters of a colour sequence. -/
def areParameters (s : String) : Bool :=
  s.toList.all fun c => c.isDigit || c == ';'

/-- Painters put a colour sequence in front of a text and one behind it. -/
def Paints (paint : Style → String → String) : Prop :=
  ∀ style text, isClean text = true → ∃ on off, areParameters on = true ∧ areParameters off = true ∧
    paint style text = "\x1b[" ++ on ++ "m" ++ text ++ "\x1b[" ++ off ++ "m"

/-- Readers drop the colour sequences and keep every character that is no control. -/
structure Strips (strip : String → String) : Prop where
  empty : strip "" = ""
  sequence : ∀ parameters rest, areParameters parameters = true →
    strip ("\x1b[" ++ parameters ++ "m" ++ rest) = strip rest
  kept : ∀ c rest, isControl c = false →
    strip (String.singleton c ++ rest) = String.singleton c ++ strip rest

section

variable {paint : Style → String → String} {strip : String → String} (hp : Paints paint)
  (hs : Strips strip)

include hs

theorem Strips.clean (ht : isClean t = true) (rest : String) : strip (t ++ rest) = t ++ strip rest := by
  obtain ⟨l, rfl⟩ : ∃ l, t = String.ofList l := ⟨t.toList, String.ofList_toList.symm⟩
  rw [isClean_iff, String.toList_ofList] at ht
  induction l with
  | nil => simp
  | cons c l ih =>
    rw [List.forall_mem_cons] at ht
    rw [String.ofList_cons, String.append_assoc, hs.kept c _ ht.1, ih ht.2, String.append_assoc]

include hp

theorem Strips.span {span : Span} (hspan : isClean span.text = true) (rest : String) :
    strip (span.coloredWith paint ++ rest) = span.text ++ strip rest := by
  unfold Span.coloredWith
  split
  · exact hs.clean hspan rest
  · rename_i style _
    obtain ⟨on, off, hon, hoff, heq⟩ := hp style span.text hspan
    have hsplit : paint style span.text ++ rest =
        "\x1b[" ++ on ++ "m" ++ (span.text ++ ("\x1b[" ++ off ++ "m" ++ rest)) := by
      rw [heq]
      simp only [String.append_assoc]
    rw [hsplit, hs.sequence on _ hon, hs.clean hspan, hs.sequence off _ hoff]

end

/-! ## The painter and the reader in use -/

theorem resume_clean {select l : List Char} (hl : ∀ c ∈ l, isControl c = false) :
    resume select l = l := by
  fun_induction resume select l with
  | case1 => exact absurd (hl '\x1b' List.mem_cons_self) (by decide)
  | case2 c rest _ ih => rw [ih fun c hc => hl c (List.mem_cons_of_mem _ hc)]
  | case3 => rfl

theorem paints_paint : Paints Style.paint := by
  intro style text htext
  refine ⟨style.code, "0", by cases style <;> decide, by decide, ?_⟩
  unfold Style.paint
  rw [resume_clean (isClean_iff.mp htext), String.ofList_toList]
  simp only [Style.select, reset, String.append_assoc]
  rfl

theorem foldl_keepStray (before out : String) (stray : List UInt8) :
    stray.foldl keepStray (before ++ out) = before ++ stray.foldl keepStray out := by
  induction stray generalizing out with
  | nil => rfl
  | cons b stray ih =>
    have hone : keepStray (before ++ out) b = before ++ keepStray out b := by
      unfold keepStray
      split
      · rfl
      · rw [String.push_eq_append, String.push_eq_append, String.append_assoc]
    rw [List.foldl_cons, List.foldl_cons, hone, ih]

theorem read_append (mode : Mode) (before out : String) (c : Char) :
    Mode.read (mode, before ++ out) c =
      ((Mode.read (mode, out) c).1, before ++ (Mode.read (mode, out) c).2) := by
  have hpush : (before ++ out).push c = before ++ out.push c := by
    rw [String.push_eq_append, String.push_eq_append, String.append_assoc]
  have hkeep : keepLineFeed (before ++ out) c = before ++ keepLineFeed out c := by
    unfold keepLineFeed
    split
    · exact hpush
    · rfl
  have hdata : readDeviceData (before ++ out) c =
      ((readDeviceData out c).1, before ++ (readDeviceData out c).2) := by
    unfold readDeviceData
    split
    · rfl
    · rw [foldl_keepStray]
  by_cases hesc : c = escapeChar
  · simp [Mode.read, hesc]
  · cases mode with
    | text =>
      by_cases hd : isDroppedControl c = true <;> simp [Mode.read, hesc, hd, hpush]
    | deviceData => by_cases hcancel : isCancel c = true <;> simp [Mode.read, hesc, hcancel, hdata]
    | escape | announced | sequence => simp [Mode.read, hesc, hkeep]
    | command | string | device | deviceParameters | deviceAnnounced => simp [Mode.read, hesc]

theorem foldl_read_append (l : List Char) (mode : Mode) (before out : String) :
    l.foldl Mode.read (mode, before ++ out) =
      ((l.foldl Mode.read (mode, out)).1, before ++ (l.foldl Mode.read (mode, out)).2) := by
  induction l generalizing mode out with
  | nil => rfl
  | cons c l ih =>
    rw [List.foldl_cons, List.foldl_cons, read_append]
    exact ih _ _

theorem foldl_read_parameters {l : List Char} (hl : ∀ c ∈ l, (c.isDigit || c == ';') = true) :
    l.foldl Mode.read (.sequence, "") = (.sequence, "") := by
  induction l with
  | nil => rfl
  | cons c l ih =>
    rw [List.forall_mem_cons] at hl
    have hrange : 0x30 ≤ c.toNat ∧ c.toNat ≤ 0x3b := by
      have := hl.1
      simp only [Char.isDigit, Bool.or_eq_true, Bool.and_eq_true, decide_eq_true_eq, beq_iff_eq] at this
      rcases this with ⟨hlow, hhigh⟩ | rfl
      · exact ⟨hlow, Nat.le_trans hhigh (by decide)⟩
      · decide
    have hne : ∀ d : Char, d.toNat < 0x30 → c ≠ d := by
      rintro d hd rfl
      omega
    have hread : Mode.read (.sequence, "") c = (.sequence, "") := by
      have hends : endsSequence c = false := by
        simp only [endsSequence, Bool.and_eq_false_iff, decide_eq_false_iff_not]
        omega
      simp [Mode.read, hne escapeChar (by decide), isCancel, hne '\x18' (by decide),
        hne '\x1a' (by decide), hends, keepLineFeed, hne '\n' (by decide)]
    rw [List.foldl_cons, hread]
    exact ih hl.2

theorem strips_strip : Strips strip where
  empty := rfl
  sequence parameters rest hparms := by
    have hopen : "\x1b[".toList.foldl Mode.read (.text, "") = (.sequence, "") := rfl
    have hclose : "m".toList.foldl Mode.read (.sequence, "") = (.text, "") := rfl
    unfold strip
    rw [String.toList_append, String.toList_append, String.toList_append, List.foldl_append,
      List.foldl_append, List.foldl_append, hopen,
      foldl_read_parameters (List.all_eq_true.mp hparms), hclose]
  kept c rest hc := by
    have hne : c ≠ escapeChar := by
      rintro rfl
      exact absurd hc (by decide)
    have hdropped : isDroppedControl c = false := by
      rw [isControl, Bool.or_eq_false_iff] at hc
      rw [isDroppedControl, Bool.or_eq_false_iff]
      refine ⟨hc.1, ?_⟩
      have hupper := hc.2
      simp only [Bool.and_eq_false_iff, decide_eq_false_iff_not] at hupper ⊢
      omega
    have hread : Mode.read (.text, "") c = (.text, String.singleton c ++ "") := by
      simp [Mode.read, hne, hdropped]
    unfold strip
    rw [String.toList_append, String.toList_singleton, List.singleton_append, List.foldl_cons, hread,
      foldl_read_append]

/-! ## Styled texts -/

/-- Styled texts whose runs are clean. -/
def Styled.Clean (s : Styled) : Prop :=
  ∀ span ∈ s, isClean span.text = true

theorem foldl_append {α : Type} (f : α → String) (l : List α) (before : String) :
    l.foldl (fun out a => out ++ f a) before = before ++ l.foldl (fun out a => out ++ f a) "" := by
  induction l generalizing before with
  | nil => simp
  | cons a l ih => rw [List.foldl_cons, List.foldl_cons, ih, ih ("" ++ f a), String.empty_append,
      String.append_assoc]

/-- **Reading recovers the text**: run by run, the reader keeps what the painter was given. -/
theorem Strips.coloredWith {paint : Style → String → String} {strip : String → String}
    (hstrip : Strips strip) (hp : Paints paint) {s : Styled} (hs : s.Clean) :
    strip (s.coloredWith paint) = s.plain := by
  unfold Styled.coloredWith Styled.plain
  induction s with
  | nil => exact hstrip.empty
  | cons span s ih =>
    have ⟨hspan, hs⟩ := List.forall_mem_cons.mp hs
    rw [List.foldl_cons, List.foldl_cons, foldl_append, foldl_append (fun span : Span => span.text),
      String.empty_append, String.empty_append, hstrip.span hp hspan, ih hs]

@[simp] theorem clean_append {s t : Styled} : Styled.Clean (s ++ t) ↔ s.Clean ∧ t.Clean :=
  List.forall_mem_append

@[simp] theorem clean_raw : (raw s).Clean ↔ isClean s = true :=
  List.forall_mem_singleton

@[simp] theorem clean_styled {style : Style} : (styled style s).Clean ↔ isClean s = true :=
  List.forall_mem_singleton

theorem clean_join {separator : Styled} {l : List Styled} (hseparator : separator.Clean)
    (hl : ∀ s ∈ l, s.Clean) : (Styled.join separator l).Clean := by
  fun_induction Styled.join separator l with
  | case1 => exact nofun
  | case2 s => exact hl s List.mem_cons_self
  | case3 s rest _ ih =>
    rw [List.forall_mem_cons] at hl
    exact clean_append.mpr ⟨clean_append.mpr ⟨hl.1, hseparator⟩, ih hl.2⟩

theorem clean_flatten {l : List Styled} (hl : ∀ s ∈ l, s.Clean) : Styled.Clean l.flatten :=
  List.forall_mem_flatten.mpr hl

end Ember.Text

namespace Ember.Ir

open Text

/-! ## Listings -/

/-- Names, labels, symbols and comments without controls. -/
structure Function.Clean (f : Function) : Prop where
  symbol : isClean f.symbol = true
  registers : ∀ reg ∈ f.registers.toList, ∀ name, reg.name = some name → isClean name = true
  labels : ∀ b ∈ f.blocks.toList, isClean b.label = true
  slots : ∀ i ∈ f.instrs, ∀ symbol, .slot symbol ∈ i.references → isClean symbol = true
  functions : ∀ i ∈ f.instrs, ∀ symbol, .function symbol ∈ i.references → isClean symbol = true
  comments : ∀ text, .comment text ∈ f.instrs → isClean text = true

/-- Every register and every block that a function mentions is there. -/
structure Function.Closed (f : Function) : Prop where
  parameters : ∀ r ∈ f.parameters, r < f.registers.size
  written : ∀ i ∈ f.instrs, ∀ r, Machine.destOf i = some r → r < f.registers.size
  read : ∀ i ∈ f.instrs, ∀ ty r, ⟨ty, .reg r⟩ ∈ i.uses → r < f.registers.size
  targets : ∀ i ∈ f.instrs, ∀ b ∈ i.targets, b < f.blocks.size

/-- A listing that succeeds with clean runs. -/
def Lists (x : Except Fault Styled) : Prop :=
  ∃ s, x = .ok s ∧ s.Clean

theorem Lists.ok {s : Styled} (hs : s.Clean) : Lists (.ok s) :=
  ⟨s, rfl, hs⟩

theorem Lists.bind {x : Except Fault Styled} {g : Styled → Except Fault Styled} (hx : Lists x)
    (hg : ∀ s, s.Clean → Lists (g s)) : Lists (x >>= g) := by
  obtain ⟨s, rfl, hs⟩ := hx
  exact hg s hs

theorem Lists.mapM_bind {α : Type} {g : α → Except Fault Styled} {l : List α}
    {k : List Styled → Except Fault Styled} (hg : ∀ a ∈ l, Lists (g a))
    (hk : ∀ ss : List Styled, (∀ s ∈ ss, s.Clean) → Lists (k ss)) : Lists (l.mapM g >>= k) := by
  induction l generalizing k with
  | nil => exact hk [] nofun
  | cons a l ih =>
    rw [List.forall_mem_cons] at hg
    obtain ⟨s, heq, hs⟩ := hg.1
    rw [List.mapM_cons, heq]
    change Lists ((l.mapM g >>= fun ss => pure (s :: ss)) >>= k)
    rw [bind_assoc]
    refine ih hg.2 fun ss hss => ?_
    exact hk (s :: ss) (List.forall_mem_cons.mpr ⟨hs, hss⟩)

@[simp] theorem isClean_ty (ty : Ty) : isClean ty.text = true := by
  cases ty <;> rfl

@[simp] theorem isClean_hex (width n : Nat) : isClean (paddedHex width n) = true := by
  simp only [Text.isClean_iff, paddedHex, String.toList_ofList, List.forall_mem_append]
  constructor
  · intro c hc
    rw [(List.mem_replicate.mp hc).2]
    rfl
  · intro c hc
    obtain ⟨d, hd, rfl⟩ := List.mem_map.mp hc
    exact (Text.clean_digits (by decide) (by decide) n d hd).2

@[simp] theorem isClean_immediate (i : Immediate) : isClean i.text = true := by
  cases i with
  | int n => exact Text.isClean_int _
  | float x => exact isClean_and rfl (isClean_hex ..)
  | bool b => cases b <;> rfl
  | zero => rfl

namespace Function

variable {f : Function} {i : Instr} {r b : Nat} {t : Typed}

theorem get_of_lt {α : Type} {table : Table α} {n : Nat} (hn : n < table.size) :
    ∃ a ∈ table.toList, table.get n = .ok a := by
  refine ⟨table.entries[n], Array.getElem_mem_toList hn, ?_⟩
  simp [Table.get, Table.get?, Array.getElem?_eq_getElem hn]

theorem Clean.lists_register (hf : f.Clean) (hr : r < f.registers.size) :
    Lists (f.listRegister r) := by
  obtain ⟨reg, hreg, hget⟩ := get_of_lt hr
  simp only [listRegister, registerName, hget]
  refine .ok (clean_styled.mpr (isClean_and rfl ?_))
  cases hname : reg.name with
  | none => exact isClean_and rfl (isClean_nat r)
  | some name => exact hf.registers reg hreg name hname

theorem Clean.lists_target (hf : f.Clean) (hb : b < f.blocks.size) : Lists (f.listTarget b) := by
  obtain ⟨block, hblk, hget⟩ := get_of_lt hb
  simp only [listTarget, blockName, hget]
  exact .ok (by simp +decide [hf.labels block hblk])

theorem mem_references {g : GlobalRef} (ht : t ∈ i.uses) (hg : t.operand = .global g) :
    g ∈ i.references :=
  List.mem_append_left _ (List.mem_filterMap.mpr ⟨t, ht, by rw [hg]; rfl⟩)

theorem Clean.lists_operand (hf : f.Clean) (hclsd : f.Closed) (hi : i ∈ f.instrs)
    (ht : t ∈ i.uses) : Lists (f.listOperand t.operand) := by
  obtain ⟨ty, o⟩ := t
  cases o with
  | reg r => exact hf.lists_register (hclsd.read i hi ty r ht)
  | imm i => exact .ok (clean_styled.mpr (isClean_immediate i))
  | global g =>
    refine .ok (clean_styled.mpr ?_)
    have hg := mem_references ht rfl
    cases g with
    | slot symbol => exact isClean_and rfl (hf.slots i hi symbol hg)
    | text id => exact isClean_and rfl (isClean_and rfl (isClean_nat id))
    | function symbol => exact isClean_and rfl (hf.functions i hi symbol hg)

theorem Clean.lists_typed (hf : f.Clean) (hclsd : f.Closed) (hi : i ∈ f.instrs)
    (ht : t ∈ i.uses) : Lists (f.listTyped t) :=
  (hf.lists_operand hclsd hi ht).bind fun _ hs => .ok (by simp +decide [hs])

theorem Clean.lists_assignment (hf : f.Clean) (hr : r < f.registers.size) {s : Styled}
    (hs : s.Clean) : Lists (f.listAssignment r s) :=
  (hf.lists_register hr).bind fun _ hdest => .ok (by simp +decide [hs, hdest])

theorem Clean.isClean_symbol (hf : f.Clean) {dest : Option Nat} {result : Ty} {callee : Callee}
    {arguments : List Typed} (hi : .call dest result callee arguments ∈ f.instrs) :
    isClean callee.symbol = true := by
  cases callee with
  | entry e => cases e with
    | builtin b => cases b <;> rfl
    | _ => rfl
  | intrinsic i => cases i with
    | math op => cases op <;> rfl
    | _ => rfl
  | function symbol =>
    exact hf.functions _ hi symbol (by simp [Instr.references, Instr.callee?, Callee.reference?])

theorem Clean.lists_instr (hf : f.Clean) (hclsd : f.Closed) (hi : i ∈ f.instrs) :
    Lists (f.listInstr i) := by
  have hassign : ∀ r s, Machine.destOf i = some r → Styled.Clean s → Lists (f.listAssignment r s) :=
    fun r _ hr hs => hf.lists_assignment (hclsd.written i hi r hr) hs
  have htgt : ∀ b ∈ i.targets, Lists (f.listTarget b) := fun b hb =>
    hf.lists_target (hclsd.targets i hi b hb)
  have htyped : ∀ t ∈ i.uses, Lists (f.listTyped t) := fun t ht => hf.lists_typed hclsd hi ht
  have hopd : ∀ ty o, ⟨ty, o⟩ ∈ i.uses → Lists (f.listOperand o) := fun ty o ho =>
    hf.lists_operand hclsd hi ho
  cases i with
  | alloca dest ty count =>
    refine hassign dest _ rfl ?_
    split <;> simp +decide [listOpcode]
  | load dest ty source =>
    refine (hopd .ptr source (.head _)).bind fun _ hs => ?_
    exact hassign dest _ rfl (by simp +decide [listOpcode, hs])
  | store value dest =>
    refine (htyped value (.head _)).bind fun _ hs => ?_
    refine (hopd .ptr dest (.tail _ (.head _))).bind fun _ ht => ?_
    exact .ok (by simp +decide [listOpcode, hs, ht])
  | call dest result callee arguments =>
    have hsym := hf.isClean_symbol hi
    refine Lists.mapM_bind htyped fun ss hss => ?_
    have hjoin := clean_join (clean_raw.mpr (rfl : isClean ", " = true)) hss
    cases dest with
    | none => exact .ok (by simp +decide [listOpcode, hjoin, hsym])
    | some dest => exact hassign dest _ rfl (by simp +decide [listOpcode, hjoin, hsym])
  | extract dest aggregate index =>
    refine (hopd .value aggregate (.head _)).bind fun _ hs => ?_
    exact hassign dest _ rfl (by simp +decide [listOpcode, hs])
  | element dest ty base index =>
    refine (hopd .ptr base (.head _)).bind fun _ hs => ?_
    refine (htyped index (.tail _ (.head _))).bind fun _ ht => ?_
    exact hassign dest _ rfl (by simp +decide [listOpcode, hs, ht])
  | compare dest predicate lhs rhs =>
    refine (htyped lhs (.head _)).bind fun _ hs => ?_
    refine (hopd lhs.ty rhs (.tail _ (.head _))).bind fun _ ht => ?_
    have hname : isClean predicate.text = true := by cases predicate <;> rfl
    exact hassign dest _ rfl (by simp +decide [listOpcode, hs, ht, hname])
  | arith dest op lhs rhs =>
    refine (htyped lhs (.head _)).bind fun _ hs => ?_
    refine (hopd lhs.ty rhs (.tail _ (.head _))).bind fun _ ht => ?_
    have hname : isClean op.text = true := by cases op <;> rfl
    exact hassign dest _ rfl (by simp +decide [listOpcode, hs, ht, hname])
  | branch condition positive negative =>
    refine (hopd .i1 condition (.head _)).bind fun _ hs => ?_
    refine (htgt positive (.head _)).bind fun _ ht => ?_
    refine (htgt negative (.tail _ (.head _))).bind fun _ hu => ?_
    exact .ok (by simp +decide [listOpcode, hs, ht, hu])
  | jump dest =>
    refine (htgt dest (.head _)).bind fun _ hs => ?_
    exact .ok (by simp +decide [listOpcode, hs])
  | ret value => cases value with
    | none => exact .ok (by simp +decide [listOpcode])
    | some value =>
      refine (htyped value (.head _)).bind fun _ hs => ?_
      exact .ok (by simp +decide [listOpcode, hs])
  | unreachable => exact .ok (clean_styled.mpr rfl)
  | comment text => exact .ok (by simp +decide [hf.comments text hi])

theorem Clean.lists_block (hf : f.Clean) (hclsd : f.Closed) {block : Block}
    (hb : block ∈ f.blocks.toList) (number : Nat) : Lists (f.listBlock number block) := by
  have hlines : ∀ i ∈ block.instrs.toList, Lists (f.listLine i) := fun i hi =>
    (hf.lists_instr hclsd (List.mem_flatMap.mpr ⟨block, hb, hi⟩)).bind fun _ hs =>
      .ok (by simp +decide [hs])
  refine Lists.mapM_bind hlines fun ss hss => .ok ?_
  simp +decide [hf.labels block hb, clean_flatten hss]

theorem Clean.lists_listing (hf : f.Clean) (hclsd : f.Closed) : Lists f.listing := by
  have hparms : ∀ r ∈ f.parameters, Lists (f.listParameter r) := by
    intro r hr
    have hlt := hclsd.parameters r hr
    obtain ⟨reg, -, hget⟩ := get_of_lt hlt
    simp only [listParameter, hget]
    exact (hf.lists_register hlt).bind fun _ hs => .ok (by simp +decide [hs])
  have hblks : ∀ x ∈ f.blocks.numbered, Lists (f.listBlock x.1 x.2) := by
    intro x hx
    obtain ⟨⟨block, n⟩, hmem, rfl⟩ := List.mem_map.mp hx
    exact hf.lists_block hclsd (List.fst_mem_of_mem_zipIdx hmem) n
  refine Lists.mapM_bind hparms fun ps hps => Lists.mapM_bind hblks fun bs hbs => .ok ?_
  have hjoin := clean_join (clean_raw.mpr (rfl : isClean ", " = true)) hps
  simp +decide [hf.symbol, hjoin, clean_flatten hbs]

end Function

end Ember.Ir

namespace Ember

open Text

/-! ## Reports -/

theorem Diagnostic.clean_report {d : Diagnostic} (hmsg : isClean d.problem.message = true)
    (hfile : ∀ loc, d.location = some loc → isClean loc.file = true) : d.report.Clean := by
  unfold report
  cases hloc : d.location with
  | none => simp +decide [hmsg]
  | some loc => simp +decide [hmsg, Location.text, hfile loc hloc]

/-- **Stripping recovers the plain rendering**, of every listing whose names, labels, symbols and
comments hold no controls, and of every report whose message and file name hold none. -/
theorem strip_recovers_plain {paint : Style → String → String} {strip : String → String}
    (hpaint : Paints paint) (hstrip : Strips strip) :
    (∀ f : Ir.Function, f.Closed → f.Clean → ∃ s, f.listing = .ok s ∧
      strip (s.coloredWith paint) = s.plain ∧
      Ir.Module.functionTextWith paint strip f = .ok s.plain) ∧
    ∀ d : Diagnostic, isClean d.problem.message = true →
      (∀ loc, d.location = some loc → isClean loc.file = true) →
      strip (d.report.coloredWith paint) = d.report.plain := by
  refine ⟨fun f hclsd hf => ?_, fun d hmsg hfile => ?_⟩
  · obtain ⟨s, hlst, hs⟩ := hf.lists_listing hclsd
    have hplain := hstrip.coloredWith hpaint hs
    refine ⟨s, hlst, hplain, ?_⟩
    rw [Ir.Module.functionTextWith, hlst]
    exact congrArg Except.ok hplain
  · exact hstrip.coloredWith hpaint (d.clean_report hmsg hfile)

/-- A function with a parameter, a call and a comment. -/
def painted : Ir.Function where
  symbol := "fn.id"
  result := .value
  parameters := [0]
  registers := ⟨#[⟨.value, some "arg.x"⟩, ⟨.i1, none⟩]⟩
  blocks := ⟨#[⟨"entry", #[.comment "main.em:1", .call (some 1) .i1 (.entry .truthy) [.value 0],
    .ret (some (.value 0))]⟩]⟩

theorem strip_recovers_plain_painted :
    Paints Style.paint ∧ Strips Text.strip ∧
    (∃ s, painted.listing = .ok s ∧ Text.strip (s.render true) = s.render false ∧
      Ir.Module.functionText painted = .ok (s.render false)) ∧
    Text.strip ((Diagnostic.of ⟨"main.em", 3⟩ (.undeclared "x")).report.render true) =
      "error: use of undeclared identifier `x`\n  --> main.em:3" := by
  have hinstrs : painted.instrs = [.comment "main.em:1",
    .call (some 1) .i1 (.entry .truthy) [.value 0], .ret (some (.value 0))] := rfl
  have hclsd : painted.Closed := by
    refine ⟨List.forall_mem_singleton.mpr (by decide), ?_, ?_, ?_⟩ <;>
      simp [hinstrs, Machine.destOf, Ir.Instr.uses, Ir.Instr.targets, Ir.Typed.value] <;> decide
  have hclean : painted.Clean := by
    constructor <;> simp +decide [hinstrs, Ir.Instr.references, Ir.Instr.uses, Ir.Instr.callee?,
      Ir.Operand.reference?, Ir.Callee.reference?, Ir.Typed.value]
  have hall := strip_recovers_plain paints_paint strips_strip
  refine ⟨paints_paint, strips_strip, hall.1 painted hclsd hclean, ?_⟩
  refine (hall.2 (.of ⟨"main.em", 3⟩ (.undeclared "x")) rfl ?_).trans rfl
  rintro _ ⟨⟩
  rfl

end Ember
