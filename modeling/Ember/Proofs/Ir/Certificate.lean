import Mathlib
import Ember.Lowering.Stmt
import Ember.Machine.Step

/-!
# Ember — certificates of functions

A certificate says what each register of a function is for and what holds where a block begins: how
many protected regions are open, and which blocks lie behind. With it every instruction can be checked
on its own, against the instructions that stand before it in its block: that what it reads was
written and is of the right kind, where values are loaded from, what fills the buffer of a call, what
a jump to the exit has stored, and that protected regions are opened and closed in balance.

Main result: `Function.Certified`.
-/

namespace Ember.Ir

open Lowering (functionSymbol memberSymbol)
open Machine (destOf)

variable {k : Convention} {I : Interface} {l : List Instr} {P : List Instr → Instr → Prop}
  {s : String}

/-- How many bits an integer has. -/
inductive Width
  | bit
  | half
  | full
deriving DecidableEq

/-- The type of the integers of a width. -/
def Width.ty : Width → Ty
  | .bit => .i1
  | .half => .i32
  | .full => .i64

/-- What a register or an operand is for. -/
inductive Role
  | value
  | int (width : Width)
  | float
  /-- The pointer to a registered slot. -/
  | slot
  /-- The pointer to the cells of the arguments of a call. -/
  | buffer (size : Nat)
  /-- The pointer to one of those cells. -/
  | entry
  /-- The pointer to the slot of the result. -/
  | result
  /-- The pointer to a word of the frame. -/
  | cell
  | checkpoint
  /-- The pointer to the arguments of a method. -/
  | arguments (count : Nat)
  /-- The pointer to one of those arguments. -/
  | argument
  /-- The number of arguments of the program. -/
  | argc
  /-- The argument vector of the program. -/
  | vector
  /-- The pointer to a pooled text. -/
  | text
  /-- The code of an operator. -/
  | operator
deriving DecidableEq

/-- Roles of registers that the prologue writes. -/
def Role.isStorage : Role → Bool
  | .slot | .buffer _ | .result | .cell => true
  | _ => false

/-- The number of slots that the storage of a role has. -/
def Role.slots? : Role → Option Nat
  | .slot | .result => some 1
  | .buffer n => some n
  | _ => none

/-- The type of what has a role. -/
def Role.ty : Role → Ty
  | .value => .value
  | .int width => width.ty
  | .float => .f64
  | .argc | .operator => .i32
  | _ => .ptr

/-- The role of a register that takes the result of a call. -/
def Ty.role : Ty → Role
  | .value => .value
  | .ptr => .checkpoint
  | .f64 => .float
  | .i1 => .int .bit
  | .i32 => .int .half
  | _ => .int .full

theorem Ty.ty_role {ty : Ty} (hty : ty ≠ .void) : ty.role.ty = ty := by
  cases ty <;> first | rfl | exact absurd rfl hty

/-- Some instruction of these writes a register. -/
def Assigns (l : List Instr) (r : Nat) : Prop :=
  ∃ i ∈ l, destOf i = some r

/-- What holds where a block begins. -/
structure Context where
  /-- The number of open regions. -/
  tries : Nat := 0
  /-- Blocks that every way to this one has run to their ends. -/
  after : List Nat := []
  /-- Whether a way leads to this block. -/
  live : Bool := true

/-- The roles of the registers, and what holds where the blocks begin. The last two fields are used
while a function is being written. -/
structure Cert where
  roles : List Role := []
  contexts : List Context := []
  /-- The registers of the parameters. -/
  inputs : List Nat := []
  /-- Blocks, and registers that they write. -/
  defs : List (Nat × Nat) := []
  /-- Blocks that are behind wherever writing goes on. -/
  now : List Nat := []
  /-- Blocks that are still to be written. -/
  owed : List Nat := []

namespace Cert

/-- The role of a register. -/
def HasRole (c : Cert) (r : Nat) (ρ : Role) : Prop :=
  c.roles[r]? = some ρ

/-- What holds at the beginning of a block. -/
def HasContext (c : Cert) (b : Nat) (x : Context) : Prop :=
  c.contexts[b]? = some x

/-- No way leads to a block. -/
def IsDead (c : Cert) (b : Nat) : Prop :=
  ∃ x, c.HasContext b x ∧ x.live = false

instance : Preorder Cert where
  le c c' := c.roles <+: c'.roles ∧ c.contexts <+: c'.contexts ∧ c.inputs <+: c'.inputs ∧
    c.defs ⊆ c'.defs
  le_refl _ := ⟨List.prefix_refl _, List.prefix_refl _, List.prefix_refl _, List.Subset.refl _⟩
  le_trans _ _ _ h12 h23 := ⟨h12.1.trans h23.1, h12.2.1.trans h23.2.1, h12.2.2.1.trans h23.2.2.1,
    List.Subset.trans h12.2.2.2 h23.2.2.2⟩

theorem getElem?_of_prefix {α : Type} {l l' : List α} {i : Nat} {a : α} (hl : l <+: l')
    (ha : l[i]? = some a) : l'[i]? = some a := by
  obtain ⟨t, rfl⟩ := hl
  obtain ⟨hi, -⟩ := List.getElem?_eq_some_iff.mp ha
  rw [List.getElem?_append_left hi, ha]

variable {c c' : Cert} {r b n : Nat} {ρ σ : Role} {x y : Context}

theorem HasRole.mono (hr : c.HasRole r ρ) (hle : c ≤ c') : c'.HasRole r ρ :=
  getElem?_of_prefix hle.1 hr

theorem HasContext.mono (hb : c.HasContext b x) (hle : c ≤ c') : c'.HasContext b x :=
  getElem?_of_prefix hle.2.1 hb

theorem IsDead.mono (hb : c.IsDead b) (hle : c ≤ c') : c'.IsDead b := by
  obtain ⟨x, hx, hdead⟩ := hb
  exact ⟨x, hx.mono hle, hdead⟩

/-- The number of registered slots. -/
def slots (c : Cert) : Nat :=
  c.roles.count .slot

theorem slots_mono (hle : c ≤ c') : c.slots ≤ c'.slots :=
  hle.1.sublist.count_le _

theorem HasRole.unique (hρ : c.HasRole r ρ) (hσ : c.HasRole r σ) : ρ = σ :=
  Option.some.inj (hρ.symm.trans hσ)

theorem HasContext.unique (hx : c.HasContext b x) (hy : c.HasContext b y) : x = y :=
  Option.some.inj (hx.symm.trans hy)

/-- Whether a register was written where the instructions `before` of a block are behind. Parameters
and storage are written before any block. -/
def Knows (c : Cert) (x : Context) (before : List Instr) (r : Nat) : Prop :=
  r ∈ c.inputs ∨ (∃ ρ, c.HasRole r ρ ∧ ρ.isStorage) ∨ Assigns before r ∨ ∃ p ∈ x.after, (p, r) ∈ c.defs

theorem Knows.mono {before before' : List Instr} (hr : c.Knows x before r) (hle : c ≤ c')
    (hbef : before ⊆ before') : c'.Knows x before' r := by
  rcases hr with hr | ⟨ρ, hρ, hstor⟩ | ⟨i, hi, hdest⟩ | ⟨p, hp, hdef⟩
  · exact .inl (hle.2.2.1.subset hr)
  · exact .inr (.inl ⟨ρ, hρ.mono hle, hstor⟩)
  · exact .inr (.inr (.inl ⟨i, hbef hi, hdest⟩))
  · exact .inr (.inr (.inr ⟨p, hp, hle.2.2.2 hdef⟩))

/-- A block that can be jumped to with `n` regions open, where the blocks `behind` are behind. -/
def Leads (c : Cert) (behind : List Nat) (n b : Nat) : Prop :=
  3 ≤ b ∧ ∃ x, c.HasContext b x ∧ x.tries = n ∧ x.live = true ∧ x.after ⊆ behind

theorem Leads.mono {behind behind' : List Nat} (hb : c.Leads behind n b) (hle : c ≤ c')
    (hbeh : behind ⊆ behind') : c'.Leads behind' n b := by
  obtain ⟨h3, x, hx, htries, hlv, hafter⟩ := hb
  exact ⟨h3, x, hx.mono hle, htries, hlv, List.Subset.trans hafter hbeh⟩

end Cert

/-! ## Calling conventions -/

/-- The texts and the functions of a module: names of functions with their numbers of parameters,
classes with their methods and the numbers of their parameters, and classes with their fields. -/
structure Interface where
  texts : Nat
  functions : List (String × Nat)
  methods : List (String × String × Nat)
  fields : List (String × String)

namespace Interface

/-- The symbol of a function with `n` parameters. -/
def HasFunction (I : Interface) (symbol : String) (n : Nat) : Prop :=
  ∃ name, (name, n) ∈ I.functions ∧ symbol = functionSymbol name

/-- The symbol of a method with `n` parameters. -/
def HasMethod (I : Interface) (symbol : String) (n : Nat) : Prop :=
  ∃ cls name, (cls, name, n) ∈ I.methods ∧ symbol = memberSymbol "method" cls name

/-- The symbol of a field initializer. -/
def HasField (I : Interface) (symbol : String) : Prop :=
  ∃ cls name, (cls, name) ∈ I.fields ∧ symbol = memberSymbol "field" cls name

end Interface

/-- How a function is called. -/
inductive Convention
  | main
  | function (arity : Nat)
  | method (arity : Nat)
  | field
deriving DecidableEq

namespace Convention

/-- The symbols of the functions of a convention. -/
def Names (I : Interface) : Convention → String → Prop
  | .main, s => s = "main"
  | .function n, s => I.HasFunction s n
  | .method n, s => I.HasMethod s n
  | .field, s => I.HasField s

/-- The roles of the parameters. -/
def roles : Convention → List Role
  | .main => [.argc, .vector]
  | .function n => List.replicate n .value
  | .method n => [.value, .arguments n, .int .half]
  | .field => [.value]

/-- The number of slots of the whole program that the prologue registers. -/
def registered (G : List String) : Convention → Nat
  | .main => G.length
  | _ => 0

/-- The number of parameters that are passed in slots. -/
def passed : Convention → Nat
  | .method n => n
  | _ => 0

/-- The first two characters of the symbols of a convention. -/
def mark : Convention → List Char
  | .main => ['m', 'a']
  | .function _ => ['f', 'n']
  | .method _ => ['m', 'e']
  | .field => ['f', 'i']

theorem Names.mark (hk : k.Names I s) : s.toList.take 2 = k.mark := by
  cases k with
  | main => subst hk; rfl
  | function =>
    obtain ⟨name, -, rfl⟩ := hk
    simp [functionSymbol, Convention.mark]
  | method =>
    obtain ⟨cls, name, -, rfl⟩ := hk
    simp [memberSymbol, Convention.mark]
  | field =>
    obtain ⟨cls, name, -, rfl⟩ := hk
    simp [memberSymbol, Convention.mark]

theorem Names.mark_eq {k' : Convention} (hk : k.Names I s) (hk' : k'.Names I s) :
    k.mark = k'.mark :=
  hk.mark.symm.trans hk'.mark

end Convention

/-! ## What stands before an instruction -/

/-- The opening of a checkpoint. -/
def Instr.tryPush (dest : Nat) : Instr :=
  .call (some dest) .ptr (.entry .tryPush) []

/-- The recording of a resume point. -/
def Instr.setjmp (dest checkpoint : Nat) : Instr :=
  .call (some dest) .i32 (.intrinsic .setjmp) [.ptr checkpoint]

/-- The test whether a region is entered or was resumed. -/
def Instr.entered (dest resumed : Nat) : Instr :=
  .compare dest .eq ⟨.i32, .reg resumed⟩ (.imm (.int 0))

/-- The registration of a root. -/
def Instr.pushRoot (slot : Operand) : Instr :=
  .call none .void (.entry .pushRoot) [⟨.ptr, slot⟩]

/-- The preparation of the collector. -/
def Instr.gcInit : Instr :=
  .call none .void (.entry .gcInit) []

/-- A slot is cleared. -/
def Instr.clear (slot : Nat) : Instr :=
  .store ⟨.value, .imm .zero⟩ (.reg slot)

/-- The number of open regions after an instruction. -/
def Instr.tries (i : Instr) (n : Nat) : Nat :=
  match i with
  | .call _ _ (.entry .tryPush) _ => n + 1
  | .call _ _ (.entry .tryPop) _ => n - 1
  | _ => n

/-- The number of open regions after instructions, the latest of which come first. -/
def triesAfter (n : Nat) (before : List Instr) : Nat :=
  before.foldr Instr.tries n

/-- The slots that instructions register. -/
def pushes (before : List Instr) : List Operand :=
  before.filterMap fun
    | .call _ _ (.entry .pushRoot) [t] => some t.operand
    | _ => none

/-- Instructions that read and write cells only. -/
def Instr.isQuiet : Instr → Bool
  | .element .. | .load .. | .store .. => true
  | _ => false

/-- The block goes on, and the opening of a region is not under way. -/
def Steady : List Instr → Prop
  | .branch .. :: _ | .jump _ :: _ | .ret _ :: _ | .unreachable :: _ => False
  | .call _ _ (.entry .tryPush) _ :: _ => False
  | .call _ _ (.intrinsic .setjmp) _ :: _ => False
  | .compare .. :: .call _ _ (.intrinsic .setjmp) _ :: _ => False
  | _ => True

/-- Whether the last instruction ends its block. -/
def Ended (trail : List Instr) : Bool :=
  trail.head?.any Instr.isTerminator

/-- The first cells of a buffer have just been written, in order. -/
def Fills (buffer : Nat) : Nat → List Instr → Prop
  | 0, _ => True
  | k + 1, before => ∃ r cell rest,
    before = .store (.value r) (.reg cell) ::
      .element cell .value (.reg buffer) (.i64 (Int64.ofNat k)) :: rest ∧ Fills buffer k rest

/-- The roles of the place that a call reports. -/
def siteRoles : List Role :=
  [.int .half, .text]

/-- The roles of the arguments of entry points that depend on nothing else. -/
def EntryPoint.signature? : EntryPoint → Option (List Role)
  | int => some [.int .full]
  | bool => some [.int .bit]
  | float => some [.float]
  | string | classNew => some [.text]
  | null | dictNew | currentException => some []
  | truthy => some [.value]
  | toInt | toFloat | length | dictKeys | raise => some (.value :: siteRoles)
  | binary => some (.operator :: .value :: .value :: siteRoles)
  | contains | indexGet => some (.value :: .value :: siteRoles)
  | indexSet | slice => some (.value :: .value :: .value :: siteRoles)
  | memberGet => some (.value :: .text :: .int .bit :: siteRoles)
  | memberSet => some (.value :: .text :: .value :: .int .bit :: siteRoles)
  | _ => none

/-- The roles of the arguments around the buffer, for entry points that are passed one. -/
def EntryPoint.around? : EntryPoint → Option (List Role × List Role)
  | arrayNew => some ([], [])
  | callMethod => some ([.value, .text], .int .bit :: siteRoles)
  | instantiate => some ([.value], siteRoles)
  | builtin _ => some ([], siteRoles)
  | _ => none

/-- A call has a register for its result exactly if it has one. -/
def Cert.Receives (c : Cert) (dest : Option Nat) (ty : Ty) : Prop :=
  match dest with
  | none => ty = .void
  | some d => ty ≠ .void ∧ c.HasRole d ty.role

/-! ## Operands -/

/-- What an operand gives, where some registers are known to be written. -/
inductive Cert.Gives (I : Interface) (c : Cert) (known : Nat → Prop) :
    Typed → Role → Prop
  | reg {r : Nat} {ty : Ty} {ρ : Role} (type : ty = ρ.ty) (role : c.HasRole r ρ) (written : known r) :
      Gives I c known ⟨ty, .reg r⟩ ρ
  | int {n : Int64} {ty : Ty} {width : Width} (type : ty = width.ty) :
      Gives I c known ⟨ty, .imm (.int n)⟩ (.int width)
  | bool {b : Bool} : Gives I c known (.i1 b) (.int .bit)
  | float {x : Number.Double} : Gives I c known ⟨.f64, .imm (.float x)⟩ .float
  | text {id : Nat} (pooled : id < I.texts) : Gives I c known (.text id) .text
  | operator {op : Operator} : Gives I c known (.i32 op.code) .operator

/-- The storage of a variable: a slot of the frame, or one of the whole program. -/
inductive Cert.Keeps (G : List String) (c : Cert) : Operand → Prop
  | slot {r : Nat} (role : c.HasRole r .slot) : Keeps G c (.reg r)
  | global {symbol : String} (declared : symbol ∈ G) : Keeps G c (.global (.slot symbol))

section

variable {I : Interface} {G G' : List String} {c c' : Cert}

theorem Cert.Gives.mono {known known' : Nat → Prop} {t : Typed} {ρ : Role}
    (ht : c.Gives I known t ρ) (hle : c ≤ c') (hknown : ∀ r, known r → known' r) :
    c'.Gives I known' t ρ := by
  cases ht with
  | reg type role written => exact .reg type (role.mono hle) (hknown _ written)
  | int type => exact .int type
  | bool => exact .bool
  | float => exact .float
  | text pooled => exact .text pooled
  | operator => exact .operator

theorem Cert.Keeps.mono {o : Operand} (ho : c.Keeps G o) (hle : c ≤ c') (hG : G ⊆ G') :
    c'.Keeps G' o := by
  cases ho with
  | slot role => exact .slot (role.mono hle)
  | global declared => exact .global (hG declared)

theorem Cert.Receives.mono {dest : Option Nat} {ty : Ty} (hr : c.Receives dest ty)
    (hle : c ≤ c') : c'.Receives dest ty := by
  cases dest with
  | none => exact hr
  | some d => exact ⟨hr.1, hr.2.mono hle⟩

end

/-! ## Instructions -/

section

variable (I : Interface) (G : List String) (k : Convention) (c : Cert)

/-- The instructions of the prologue, after those that stand before. -/
inductive Opens (before : List Instr) : Instr → Prop
  | slots {d n : Nat} {ρ : Role} (role : c.HasRole d ρ) (size : ρ.slots? = some n)
      (fresh : ∀ i ∈ before, destOf i ≠ some d) : Opens before (.alloca d .value n)
  | cell {d : Nat} {ty : Ty} (scalar : ty ≠ .value) (role : c.HasRole d .cell)
      (fresh : ∀ i ∈ before, destOf i ≠ some d) : Opens before (.alloca d ty 1)
  | clear {d : Nat} {rest : List Instr} (role : c.HasRole d .slot)
      (allocated : before = .alloca d .value 1 :: rest) : Opens before (.clear d)
  | root {d : Nat} {rest : List Instr} (role : c.HasRole d .slot)
      (cleared : before = .clear d :: .alloca d .value 1 :: rest) : Opens before (.pushRoot (.reg d))
  | globalRoot {symbol : String} (main : k = .main) (declared : symbol ∈ G) :
      Opens before (.pushRoot (.global (.slot symbol)))
  | gcInit : Opens before .gcInit
  | bottom {d : Nat} (main : k = .main) (role : c.HasRole d .cell)
      (first : before = [.alloca d .i64 1, .gcInit]) :
      Opens before (.call none .void (.entry .setStackBottom) [.ptr d])
  | setArgs {count vector : Nat} (main : k = .main) (number : c.HasRole count .argc)
      (arguments : c.HasRole vector .vector) (inputs : count ∈ c.inputs ∧ vector ∈ c.inputs) :
      Opens before (.call none .void (.entry .setArgs) [⟨.i32, .reg count⟩, .ptr vector])

/-- The instructions of a block, after those that stand before. -/
inductive Fits (b : Nat) (x : Context) (before : List Instr) : Instr → Prop
  | load {d : Nat} {source : Operand} (steady : Steady before) (role : c.HasRole d .value)
      (place : c.Keeps G source) : Fits b x before (.load d .value source)
  | loadArgument {d s : Nat} (first : b = 1) (quiet : ∀ i ∈ before, i.isQuiet)
      (role : c.HasRole d .value) (source : c.HasRole s .argument) (written : c.Knows x before s) :
      Fits b x before (.load d .value (.reg s))
  | loadCell {d s : Nat} (steady : Steady before) (role : c.HasRole d (.int .full))
      (source : c.HasRole s .cell) : Fits b x before (.load d .i64 (.reg s))
  | store {r : Nat} {dest : Operand} (steady : Steady before)
      (value : c.Gives I (c.Knows x before) (.value r) .value) (place : c.Keeps G dest) :
      Fits b x before (.store (.value r) dest)
  | storeEntry {r s : Nat} (steady : Steady before)
      (value : c.Gives I (c.Knows x before) (.value r) .value) (dest : c.HasRole s .entry)
      (written : c.Knows x before s) : Fits b x before (.store (.value r) (.reg s))
  | storeResult {r : Nat} (steady : Steady before) (inner : k ≠ .main)
      (value : c.Gives I (c.Knows x before) (.value r) .value) :
      Fits b x before (.store (.value r) (.reg 0))
  | storeCell {t : Typed} {s : Nat} (steady : Steady before)
      (value : c.Gives I (c.Knows x before) t (.int .full)) (dest : c.HasRole s .cell) :
      Fits b x before (.store t (.reg s))
  | extract {d r : Nat} (steady : Steady before) (role : c.HasRole d (.int .half))
      (value : c.Gives I (c.Knows x before) (.value r) .value) :
      Fits b x before (.extract d (.reg r) 0)
  | compare {d : Nat} {predicate : Predicate} {lhs : Typed} {rhs : Operand} {width : Width}
      (steady : Steady before) (role : c.HasRole d (.int .bit))
      (left : c.Gives I (c.Knows x before) lhs (.int width))
      (right : c.Gives I (c.Knows x before) ⟨width.ty, rhs⟩ (.int width)) :
      Fits b x before (.compare d predicate lhs rhs)
  | arith {d : Nat} {op : IntOp} {lhs : Typed} {rhs : Operand} {width : Width}
      (steady : Steady before) (role : c.HasRole d (.int width))
      (left : c.Gives I (c.Knows x before) lhs (.int width))
      (right : c.Gives I (c.Knows x before) ⟨width.ty, rhs⟩ (.int width)) :
      Fits b x before (.arith d op lhs rhs)
  | entry {d s n index : Nat} (steady : Steady before) (role : c.HasRole d .entry)
      (source : c.HasRole s (.buffer n)) (inside : index < n) :
      Fits b x before (.element d .value (.reg s) (.i64 (Int64.ofNat index)))
  | argument {d s n index : Nat} (steady : Steady before) (role : c.HasRole d .argument)
      (source : c.HasRole s (.arguments n)) (input : s ∈ c.inputs) (inside : index < n) :
      Fits b x before (.element d .value (.reg s) (.i64 (Int64.ofNat index)))
  | ordinary {dest : Option Nat} {e : EntryPoint} {arguments : List Typed} {ρs : List Role}
      (steady : Steady before) (signature : e.signature? = some ρs)
      (given : List.Forall₂ (c.Gives I (c.Knows x before)) arguments ρs)
      (role : c.Receives dest e.result) :
      Fits b x before (.call dest e.result (.entry e) arguments)
  | buffered {dest : Option Nat} {e : EntryPoint} {front back : List Typed}
      {fronts backs : List Role} {buffer count n : Nat} (steady : Steady before)
      (around : e.around? = some (fronts, backs))
      (ahead : List.Forall₂ (c.Gives I (c.Knows x before)) front fronts)
      (behind : List.Forall₂ (c.Gives I (c.Knows x before)) back backs)
      (source : c.HasRole buffer (.buffer n)) (room : count ≤ n)
      (filled : Fills buffer count before) (role : c.Receives dest e.result) :
      Fits b x before
        (.call dest e.result (.entry e) (front ++ .ptr buffer :: .i32 count :: back))
  | addField {cls name hidden : Typed} {symbol : String} (steady : Steady before)
      (given : List.Forall₂ (c.Gives I (c.Knows x before)) [cls, name, hidden]
        [.value, .text, .int .bit])
      (named : I.HasField symbol) :
      Fits b x before (.call none .void (.entry .classAddField)
        [cls, name, ⟨.ptr, .global (.function symbol)⟩, hidden])
  | addMethod {cls name hidden : Typed} {symbol : String} {arity : Nat} (steady : Steady before)
      (given : List.Forall₂ (c.Gives I (c.Knows x before)) [cls, name, hidden]
        [.value, .text, .int .bit])
      (named : I.HasMethod symbol arity) :
      Fits b x before (.call none .void (.entry .classAddMethod)
        [cls, name, ⟨.ptr, .global (.function symbol)⟩, .i32 arity, hidden])
  | math {d : Nat} {op : MathOp} {t : Typed} (steady : Steady before) (role : c.HasRole d .float)
      (given : c.Gives I (c.Knows x before) t .float) :
      Fits b x before (.call (some d) .f64 (.intrinsic (.math op)) [t])
  | function {d : Nat} {symbol : String} {rs : List Nat} (steady : Steady before)
      (named : I.HasFunction symbol rs.length)
      (values : ∀ r ∈ rs, c.Gives I (c.Knows x before) (.value r) .value)
      (role : c.HasRole d .value) :
      Fits b x before (.call (some d) .value (.function symbol) (rs.map .value))
  | tryPush {d : Nat} (steady : Steady before) (role : c.HasRole d .checkpoint) :
      Fits b x before (.tryPush d)
  | setjmp {d p : Nat} {rest : List Instr} (opened : before = .tryPush p :: rest)
      (role : c.HasRole d (.int .half)) : Fits b x before (.setjmp d p)
  | entered {d r p : Nat} {rest : List Instr} (armed : before = .setjmp r p :: .tryPush p :: rest)
      (role : c.HasRole d (.int .bit)) : Fits b x before (.entered d r)
  | choose {d r p pos neg : Nat} {rest : List Instr}
      (tested : before = .entered d r :: .setjmp r p :: .tryPush p :: rest)
      (inside : c.Leads (b :: x.after) (triesAfter x.tries rest + 1) pos)
      (outside : c.Leads (b :: x.after) (triesAfter x.tries rest) neg) :
      Fits b x before (.branch (.reg d) pos neg)
  | tryPop (steady : Steady before) (opened : 0 < triesAfter x.tries before) :
      Fits b x before (.call none .void (.entry .tryPop) [])
  | branch {r pos neg : Nat} (steady : Steady before)
      (condition : c.Gives I (c.Knows x before) ⟨.i1, .reg r⟩ (.int .bit))
      (positive : c.Leads (b :: x.after) (triesAfter x.tries before) pos)
      (negative : c.Leads (b :: x.after) (triesAfter x.tries before) neg) :
      Fits b x before (.branch (.reg r) pos neg)
  | jump {dest : Nat} (steady : Steady before)
      (target : c.Leads (b :: x.after) (triesAfter x.tries before) dest) :
      Fits b x before (.jump dest)
  | leave (steady : Steady before) (closed : triesAfter x.tries before = 0)
      (stored : k ≠ .main → ∃ r rest, before = .store (.value r) (.reg 0) :: rest) :
      Fits b x before (.jump 2)
  | raised {arguments : List Typed} {rest : List Instr}
      (raise : before = .call none .void (.entry .raise) arguments :: rest) :
      Fits b x before .unreachable
  | dead (unreached : x.live = false) (goes : Ended before = false) : Fits b x before .unreachable
  | comment {text : String} (steady : Steady before) : Fits b x before (.comment text)

/-- The unregistration of so many roots. -/
def popping (count : Nat) : List Instr :=
  if count = 0 then [] else [.call none .void (.entry .popRoots) [.i32 count]]

/-- The instructions of the exit of a function that registered `roots` slots, the last one first. The
slots of the whole program stay registered. -/
inductive Exits (roots : Nat) : List Instr → Prop
  | inner {r : Nat} (inner : k ≠ .main) (role : c.HasRole r .value) :
      Exits roots (.ret (some (.value r)) :: .load r .value (.reg 0) :: popping roots)
  | main {count : Nat} (main : k = .main) (balance : count + G.length = roots) :
      Exits roots (.ret (some (.i32 0)) :: popping count)

end

/-- Every instruction passes a check, which may look at those before it. The latest come first. -/
def Checked (P : List Instr → Instr → Prop) : List Instr → Prop
  | [] => True
  | i :: before => P before i ∧ Checked P before

theorem Checked.mono {Q : List Instr → Instr → Prop} (hPQ : ∀ before i, P before i → Q before i)
    (hl : Checked P l) : Checked Q l := by
  induction l with
  | nil => trivial
  | cons i before ih => exact ⟨hPQ before i hl.1, ih hl.2⟩

theorem Checked.at (hl : Checked P l.reverse) {p : Nat} {i : Instr} (hi : l[p]? = some i) :
    P (l.take p).reverse i := by
  induction l using List.reverseRecOn with
  | nil => simp at hi
  | append_singleton l j ih =>
    rw [List.reverse_append] at hl
    rcases Nat.lt_or_ge p l.length with hp | hp
    · rw [List.getElem?_append_left hp] at hi
      rw [List.take_append_of_le_length (Nat.le_of_lt hp)]
      exact ih hl.2 hi
    · obtain rfl : p = l.length := by
        have := (List.getElem?_eq_some_iff.mp hi).1
        simp at this
        omega
      rw [List.getElem?_append_right (Nat.le_refl _)] at hi
      simp at hi
      rw [List.take_left, ← hi]
      exact hl.1

/-! ## Functions -/

/-- The instructions of a block, the last one first. -/
def Block.trail (b : Block) : List Instr :=
  b.instrs.toList.reverse

/-- The instructions of a block of a table, the last one first. -/
def trailOf (blocks : Table Block) (b : Nat) : List Instr :=
  ((blocks.get? b).map Block.trail).getD []

/-- Each of `size` registers is written in one place at most: it is a parameter, or one instruction
writes it. -/
structure Single (size : Nat) (inputs : List Nat) (blocks : Table Block) : Prop where
  nodup : inputs.Nodup
  distinct : ∀ b, ((trailOf blocks b).filterMap destOf).Nodup
  apart : ∀ b b' r, Assigns (trailOf blocks b) r → Assigns (trailOf blocks b') r → b = b'
  passed : ∀ r ∈ inputs, r < size ∧ ∀ b, ¬ Assigns (trailOf blocks b) r
  below : ∀ b r, Assigns (trailOf blocks b) r → r < size

/-- Code that fits a certificate, apart from its exit. -/
structure Coded (I : Interface) (G : List String) (k : Convention) (c : Cert)
    (registers : Table Register) (blocks : Table Block) (prologue : List Instr) : Prop where
  roles : c.roles.length = registers.size
  contexts : c.contexts.length = blocks.size
  typed : ∀ r reg ρ, registers.get? r = some reg → c.HasRole r ρ → reg.ty = ρ.ty
  inputs : ∃ ρs, List.Forall₂ c.HasRole c.inputs ρs ∧ ρs <+: k.roles
  body : c.HasContext 1 {}
  result : k ≠ .main → c.HasRole 0 .result
  opens : Checked (Opens G k c) prologue
  fits : ∀ b x, b ≠ 0 → b ≠ 2 → c.HasContext b x → Checked (Fits I G k c b x) (trailOf blocks b)
  stored : ∀ r ρ, c.HasRole r ρ → ρ.isStorage → Assigns prologue r
  rooted : ∀ r, c.HasRole r .slot → .reg r ∈ pushes prologue
  globals : k = .main → ∀ s ∈ G, .global (.slot s) ∈ pushes prologue
  defs : ∀ p r, (p, r) ∈ c.defs → p ≠ 0 ∧ p ≠ 2 ∧ Assigns (trailOf blocks p) r

/-- The instructions of the prologue before it leads to the body. -/
def Function.prologue (f : Function) : List Instr :=
  (trailOf f.blocks 0).tail

/-- A function whose instructions fit its certificate. -/
structure Function.Certified (I : Interface) (G : List String) (k : Convention) (c : Cert)
    (f : Function) : Prop extends Coded I G k c f.registers f.blocks f.prologue where
  named : k.Names I f.symbol
  parameters : f.parameters = c.inputs
  full : c.inputs.length = k.roles.length
  room : k.passed ≤ c.slots
  enters : trailOf f.blocks 0 = .jump 1 :: f.prologue
  exits : Exits G k c (pushes f.prologue).length (trailOf f.blocks 2)
  ended : ∀ b, b < f.blocks.size → Ended (trailOf f.blocks b)
  single : Single f.registers.size f.parameters f.blocks

/-! ## Larger certificates -/

section

variable {I : Interface} {G G' : List String} {k : Convention} {c c' : Cert} {b : Nat}
  {x : Context} {before : List Instr} {i : Instr}

theorem Opens.mono (hi : Opens G k c before i) (hle : c ≤ c') (hG : G ⊆ G') :
    Opens G' k c' before i := by
  cases hi with
  | slots role size fresh => exact .slots (role.mono hle) size fresh
  | cell scalar role fresh => exact .cell scalar (role.mono hle) fresh
  | clear role allocated => exact .clear (role.mono hle) allocated
  | root role cleared => exact .root (role.mono hle) cleared
  | globalRoot main declared => exact .globalRoot main (hG declared)
  | gcInit => exact .gcInit
  | bottom main role first => exact .bottom main (role.mono hle) first
  | setArgs main number arguments inputs =>
    exact .setArgs main (number.mono hle) (arguments.mono hle)
      ⟨hle.2.2.1.subset inputs.1, hle.2.2.1.subset inputs.2⟩

theorem Exits.change {roots : Nat} (hl : Exits G k c roots l) (hk : k ≠ .main) :
    Exits G' k c roots l := by
  cases hl with
  | inner inner role => exact .inner inner role
  | main main => exact absurd main hk

theorem Fits.mono (hi : Fits I G k c b x before i) (hle : c ≤ c') (hG : G ⊆ G') :
    Fits I G' k c' b x before i := by
  have hknows : ∀ r, c.Knows x before r → c'.Knows x before r :=
    fun r hr => hr.mono hle (List.Subset.refl _)
  have hgives : ∀ t ρ, c.Gives I (c.Knows x before) t ρ → c'.Gives I (c'.Knows x before) t ρ :=
    fun t ρ ht => ht.mono hle hknows
  have hleads : ∀ n b', c.Leads (b :: x.after) n b' → c'.Leads (b :: x.after) n b' :=
    fun n b' hb => hb.mono hle (List.Subset.refl _)
  cases hi with
  | load steady role place => exact .load steady (role.mono hle) (place.mono hle hG)
  | loadArgument first quiet role source written =>
    exact .loadArgument first quiet (role.mono hle) (source.mono hle) (hknows _ written)
  | loadCell steady role source => exact .loadCell steady (role.mono hle) (source.mono hle)
  | store steady value place => exact .store steady (hgives _ _ value) (place.mono hle hG)
  | storeEntry steady value dest written =>
    exact .storeEntry steady (hgives _ _ value) (dest.mono hle) (hknows _ written)
  | storeResult steady inner value => exact .storeResult steady inner (hgives _ _ value)
  | storeCell steady value dest => exact .storeCell steady (hgives _ _ value) (dest.mono hle)
  | extract steady role value => exact .extract steady (role.mono hle) (hgives _ _ value)
  | compare steady role left right =>
    exact .compare steady (role.mono hle) (hgives _ _ left) (hgives _ _ right)
  | arith steady role left right =>
    exact .arith steady (role.mono hle) (hgives _ _ left) (hgives _ _ right)
  | entry steady role source inside =>
    exact .entry steady (role.mono hle) (source.mono hle) inside
  | argument steady role source input inside =>
    exact .argument steady (role.mono hle) (source.mono hle) (hle.2.2.1.subset input) inside
  | ordinary steady signature given role =>
    exact .ordinary steady signature (given.imp hgives) (role.mono hle)
  | buffered steady around ahead behind source room filled role =>
    exact .buffered steady around (ahead.imp hgives) (behind.imp hgives) (source.mono hle) room
      filled (role.mono hle)
  | addField steady given named => exact .addField steady (given.imp hgives) named
  | addMethod steady given named => exact .addMethod steady (given.imp hgives) named
  | math steady role given => exact .math steady (role.mono hle) (hgives _ _ given)
  | function steady named values role =>
    exact .function steady named (fun r hr => hgives _ _ (values r hr)) (role.mono hle)
  | tryPush steady role => exact .tryPush steady (role.mono hle)
  | setjmp opened role => exact .setjmp opened (role.mono hle)
  | entered armed role => exact .entered armed (role.mono hle)
  | choose tested inside outside => exact .choose tested (hleads _ _ inside) (hleads _ _ outside)
  | tryPop steady opened => exact .tryPop steady opened
  | branch steady condition positive negative =>
    exact .branch steady (hgives _ _ condition) (hleads _ _ positive) (hleads _ _ negative)
  | jump steady target => exact .jump steady (hleads _ _ target)
  | leave steady closed stored => exact .leave steady closed stored
  | raised raise => exact .raised raise
  | dead unreached goes => exact .dead unreached goes
  | comment steady => exact .comment steady

end

end Ember.Ir
