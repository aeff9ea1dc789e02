import Ember.Proofs.Ir.Flow

/-!
# Ember — static single assignment

What makes code well formed, said of the code alone: blocks end where they should, branches lead to
blocks, every register has one definition and a type, every use has the type of its register and
stands behind the definition on all ways to it, and calls fit the declarations of their callees.

Main result: `Function.Certified.wellFormed`.
-/

namespace Ember.Ir

open Machine (destOf)

variable {block : Block} {e : EntryPoint} {l : List Instr} {P : List Instr → Instr → Prop}
  {behind : List Nat} {ρs : List Role} {arguments : List Typed} {b' j r : Nat} {known : Nat → Prop}
  {dest : Option Nat} {ρ : Role} {ty : Ty} {t : Typed}

/-! ## What instructions read, write and lead to -/

/-- What an instruction reads, at the types it reads it at. -/
def Instr.uses : Instr → List Typed
  | .load _ _ source => [⟨.ptr, source⟩]
  | .store value dest => [value, ⟨.ptr, dest⟩]
  | .call _ _ _ arguments => arguments
  | .extract _ aggregate _ => [⟨.value, aggregate⟩]
  | .element _ _ base index => [⟨.ptr, base⟩, index]
  | .compare _ _ lhs rhs | .arith _ _ lhs rhs => [lhs, ⟨lhs.ty, rhs⟩]
  | .branch condition _ _ => [⟨.i1, condition⟩]
  | .ret value => value.toList
  | .alloca .. | .jump _ | .unreachable | .comment _ => []

/-- The type of what an instruction writes. -/
def Instr.writes : Instr → Ty
  | .alloca .. | .element .. => .ptr
  | .load _ ty _ => ty
  | .call _ result _ _ => result
  | .extract _ _ index => if index = 0 then .i32 else .i64
  | .compare .. => .i1
  | .arith _ _ lhs _ => lhs.ty
  | _ => .void

/-- The blocks that an instruction leads to. -/
def Instr.targets : Instr → List Nat
  | .branch _ positive negative => [positive, negative]
  | .jump dest => [dest]
  | _ => []

/-- The parameters of a callee outside the module. -/
def Callee.parameters? : Callee → Option (List Ty)
  | .entry e => some e.parameters
  | .intrinsic i => some i.parameters
  | .function _ => none

/-- Calls. -/
def Instr.isCall : Instr → Bool
  | .call .. => true
  | _ => false

/-- A call of a function outside the module fits the declaration of that function. -/
def Instr.Conforms (i : Instr) : Prop :=
  ∀ dest result callee arguments parameters, i = .call dest result callee arguments →
    callee.parameters? = some parameters →
      arguments.map Typed.ty = parameters ∧ result = callee.result ∧ (dest = none ↔ result = .void)

namespace Function

variable (f : Function)

/-- The instruction at a position of a block. -/
def At (b j : Nat) (i : Instr) : Prop :=
  ∃ block, f.blocks.get? b = some block ∧ block.instrs.toList[j]? = some i

/-- A way from the first block to a block, and the blocks behind, the latest one first. -/
inductive Way : List Nat → Nat → Prop
  | entry : Way [] 0
  | step {behind : List Nat} {b b' j : Nat} {i : Instr} (way : Way behind b) (instr : f.At b j i)
      (target : b' ∈ i.targets) : Way (b :: behind) b'

/-- Every way to a position of a block has passed the definition of a register. -/
def Dominated (r b j : Nat) : Prop :=
  r ∈ f.parameters ∨ ∃ d p i, f.At d p i ∧ destOf i = some r ∧
    ∀ behind, f.Way behind b → d ∈ behind ∨ (d = b ∧ p < j)

/-- The type of a register. -/
def Declares (r : Nat) (ty : Ty) : Prop :=
  ∃ reg, f.registers.get? r = some reg ∧ reg.ty = ty

/-- Well-formed code. -/
structure WellFormed : Prop where
  /-- Each block ends in its one terminator. -/
  ends : ∀ block ∈ f.blocks.toList, ∃ before last, block.instrs.toList = before ++ [last] ∧
    last.isTerminator = true ∧ ∀ i ∈ before, i.isTerminator = false
  /-- Branches lead to blocks, and never to the first one. -/
  targets : ∀ i ∈ f.instrs, ∀ b ∈ i.targets, b < f.blocks.size ∧ b ≠ 0
  /-- Each register has one definition at most: it is a parameter, or one instruction writes it. -/
  single : (f.parameters ++ f.instrs.filterMap destOf).Nodup
  /-- What is written to a register has its type. -/
  written : ∀ i ∈ f.instrs, ∀ r, destOf i = some r → f.Declares r i.writes
  /-- What is read from a register is read at its type. -/
  typed : ∀ i ∈ f.instrs, ∀ ty r, ⟨ty, .reg r⟩ ∈ i.uses → f.Declares r ty
  dominated : ∀ b j i, f.At b j i → ∀ ty r, ⟨ty, .reg r⟩ ∈ i.uses → f.Dominated r b j
  /-- The storage of the frame is made in the first block. -/
  storage : ∀ b j d ty n, f.At b j (.alloca d ty n) → b = 0
  calls : ∀ i ∈ f.instrs, i.Conforms

end Function

/-! ## Instructions that fit -/

variable {I : Interface} {G : List String} {k : Convention} {c : Cert} {b : Nat} {x : Context}
  {before : List Instr} {i : Instr} {f : Function}

theorem Cert.Gives.ty_eq (ht : c.Gives I known t ρ) : t.ty = ρ.ty := by
  cases ht with
  | reg type => exact type
  | int type => exact type
  | bool | float | text | operator => rfl

/-- The register of an operand, if it is one, is known and has a role of the right type. -/
def Cert.Reads (c : Cert) (known : Nat → Prop) (t : Typed) : Prop :=
  ∀ r, t.operand = .reg r → ∃ ρ, c.HasRole r ρ ∧ ρ.ty = t.ty ∧ known r

theorem Cert.Gives.reads (ht : c.Gives I known t ρ) : c.Reads known t := by
  intro r hr
  cases ht with
  | reg type role written =>
    cases hr
    exact ⟨ρ, role, type.symm, written⟩
  | int | bool | float | text | operator => cases hr

theorem Cert.Keeps.reads {o : Operand} (ho : c.Keeps G o) :
    c.Reads (c.Knows x before) ⟨.ptr, o⟩ := by
  intro r hr
  cases ho with
  | slot role =>
    cases hr
    exact ⟨_, role, rfl, .inr (.inl ⟨_, role, rfl⟩)⟩
  | global => cases hr

theorem Cert.HasRole.reads (hr : c.HasRole r ρ) (hρ : ρ.isStorage = true) :
    c.Reads (c.Knows x before) (.ptr r) := by
  intro r' hr'
  cases hr'
  refine ⟨ρ, hr, ?_, .inr (.inl ⟨ρ, hr, hρ⟩)⟩
  cases ρ <;> first | rfl | cases hρ

theorem Cert.reads_reg (hr : c.HasRole r ρ) (hty : ρ.ty = ty) (hknown : known r) :
    c.Reads known ⟨ty, .reg r⟩ := by
  intro r' hr'
  cases hr'
  exact ⟨ρ, hr, hty, hknown⟩

theorem Cert.reads_of_ne (ht : ∀ r, t.operand ≠ .reg r) : c.Reads known t :=
  fun r hr => absurd hr (ht r)

theorem reads_of_forall₂ (hgvn : List.Forall₂ (c.Gives I known) arguments ρs) :
    ∀ t ∈ arguments, c.Reads known t := by
  induction hgvn with
  | nil => exact nofun
  | cons ht _ ih =>
    intro t hmem
    rcases List.mem_cons.mp hmem with rfl | hmem
    · exact ht.reads
    · exact ih t hmem

theorem map_ty_of_forall₂ (hgvn : List.Forall₂ (c.Gives I known) arguments ρs) :
    arguments.map Typed.ty = ρs.map Role.ty := by
  induction hgvn with
  | nil => rfl
  | cons ht _ ih => rw [List.map_cons, List.map_cons, ht.ty_eq, ih]

theorem parameters_of_signature (he : e.signature? = some ρs) : ρs.map Role.ty = e.parameters := by
  cases e <;> first | (obtain rfl := Option.some.inj he; rfl) | cases he

theorem parameters_of_around {fronts backs : List Role} (he : e.around? = some (fronts, backs)) :
    fronts.map Role.ty ++ .ptr :: .i32 :: backs.map Role.ty = e.parameters := by
  cases e <;>
    first | (obtain ⟨rfl, rfl⟩ := Prod.mk.inj (Option.some.inj he); rfl) | cases he

theorem Cert.Receives.iff (hr : c.Receives dest ty) : dest = none ↔ ty = .void := by
  cases dest with
  | none => exact ⟨fun _ => hr, fun _ => rfl⟩
  | some d => exact ⟨nofun, fun h => absurd h hr.1⟩

theorem Cert.Receives.hasRole (hr : c.Receives dest ty) (hdest : dest = some r) :
    ∃ ρ, c.HasRole r ρ ∧ ρ.ty = ty := by
  subst hdest
  exact ⟨_, hr.2, Ty.ty_role hr.1⟩

theorem conforms_call {dest : Option Nat} {result : Ty} {callee : Callee} {arguments : List Typed}
    (h : ∀ parameters, callee.parameters? = some parameters → arguments.map Typed.ty = parameters ∧
      result = callee.result ∧ (dest = none ↔ result = .void)) :
    (Instr.call dest result callee arguments).Conforms := by
  intro _ _ _ _ parameters heq hcal
  obtain ⟨rfl, rfl, rfl, rfl⟩ := Instr.call.inj heq
  exact h parameters hcal

theorem conforms_of_isCall (hi : i.isCall = false) : i.Conforms := by
  rintro _ _ _ _ _ rfl
  cases hi

namespace Fits

theorem hasRole_dest (hi : Fits I G k c b x before i) (hr : destOf i = some r) :
    ∃ ρ, c.HasRole r ρ ∧ ρ.ty = i.writes := by
  cases hi with
  | load steady role | loadArgument first quiet role | loadCell steady role | extract steady role
  | compare steady role | entry steady role | argument steady role | math steady role
  | function steady named values role | tryPush steady role | setjmp opened role
  | entered armed role =>
    cases hr
    exact ⟨_, role, rfl⟩
  | arith steady role left =>
    cases hr
    exact ⟨_, role, left.ty_eq.symm⟩
  | ordinary steady signature given role => exact role.hasRole hr
  | buffered steady around ahead behind source room filled role => exact role.hasRole hr
  | store | storeEntry | storeResult | storeCell | addField | addMethod | choose | tryPop | branch
  | jump | leave | raised | dead | comment => cases hr

theorem reads (hres : k ≠ .main → c.HasRole 0 .result) (hi : Fits I G k c b x before i)
    (hbef : Checked (Fits I G k c b x) before) :
    ∀ t ∈ i.uses, c.Reads (c.Knows x before) t := by
  -- what the instruction right before has written
  have hlast : ∀ {j : Instr} {rest : List Instr} {r : Nat}, before = j :: rest → destOf j = some r →
      c.Reads (c.Knows x before) ⟨j.writes, .reg r⟩ := by
    intro j rest r hj hdest
    subst hj
    obtain ⟨ρ, hρ, hty⟩ := hbef.1.hasRole_dest hdest
    exact Cert.reads_reg hρ hty (.inr (.inr (.inl ⟨j, .head _, hdest⟩)))
  cases hi with
  | load steady role place => exact List.forall_mem_singleton.mpr place.reads
  | loadArgument first quiet role source written =>
    exact List.forall_mem_singleton.mpr (Cert.reads_reg source rfl written)
  | loadCell steady role source => exact List.forall_mem_singleton.mpr (source.reads rfl)
  | store steady value place =>
    exact List.forall_mem_cons.mpr ⟨value.reads, List.forall_mem_singleton.mpr place.reads⟩
  | storeEntry steady value dest written =>
    exact List.forall_mem_cons.mpr ⟨value.reads,
      List.forall_mem_singleton.mpr (Cert.reads_reg dest rfl written)⟩
  | storeResult steady inner value =>
    exact List.forall_mem_cons.mpr ⟨value.reads,
      List.forall_mem_singleton.mpr ((hres inner).reads rfl)⟩
  | storeCell steady value dest =>
    exact List.forall_mem_cons.mpr ⟨value.reads, List.forall_mem_singleton.mpr (dest.reads rfl)⟩
  | extract steady role value => exact List.forall_mem_singleton.mpr value.reads
  | compare steady role left right | arith steady role left right =>
    have hright := right.reads
    have hty := left.ty_eq
    refine List.forall_mem_cons.mpr ⟨left.reads, List.forall_mem_singleton.mpr ?_⟩
    rw [hty]
    exact hright
  | entry steady role source =>
    exact List.forall_mem_cons.mpr ⟨source.reads rfl,
      List.forall_mem_singleton.mpr (Cert.reads_of_ne nofun)⟩
  | argument steady role source input =>
    exact List.forall_mem_cons.mpr ⟨Cert.reads_reg source rfl (.inl input),
      List.forall_mem_singleton.mpr (Cert.reads_of_ne nofun)⟩
  | ordinary steady signature given => exact reads_of_forall₂ given
  | buffered steady around ahead behind source =>
    intro t ht
    rcases List.mem_append.mp ht with ht | ht
    · exact reads_of_forall₂ ahead t ht
    · rcases List.mem_cons.mp ht with rfl | ht
      · exact source.reads rfl
      · rcases List.mem_cons.mp ht with rfl | ht
        · exact Cert.reads_of_ne nofun
        · exact reads_of_forall₂ behind t ht
  | addField steady given =>
    have hgvn := reads_of_forall₂ given
    intro t ht
    simp only [Instr.uses, List.mem_cons, List.not_mem_nil, or_false] at ht
    rcases ht with rfl | rfl | rfl | rfl
    · exact hgvn _ (by simp)
    · exact hgvn _ (by simp)
    · exact Cert.reads_of_ne nofun
    · exact hgvn _ (by simp)
  | addMethod steady given =>
    have hgvn := reads_of_forall₂ given
    intro t ht
    simp only [Instr.uses, List.mem_cons, List.not_mem_nil, or_false] at ht
    rcases ht with rfl | rfl | rfl | rfl | rfl
    · exact hgvn _ (by simp)
    · exact hgvn _ (by simp)
    · exact Cert.reads_of_ne nofun
    · exact Cert.reads_of_ne nofun
    · exact hgvn _ (by simp)
  | math steady role given => exact List.forall_mem_singleton.mpr given.reads
  | function steady named values =>
    intro t ht
    obtain ⟨r, hr, rfl⟩ := List.mem_map.mp ht
    exact (values r hr).reads
  | setjmp opened => exact List.forall_mem_singleton.mpr (hlast opened rfl)
  | entered armed =>
    exact List.forall_mem_cons.mpr ⟨hlast armed rfl,
      List.forall_mem_singleton.mpr (Cert.reads_of_ne nofun)⟩
  | choose tested => exact List.forall_mem_singleton.mpr (hlast tested rfl)
  | branch steady condition => exact List.forall_mem_singleton.mpr condition.reads
  | tryPush | tryPop | jump | leave | raised | dead | comment => exact nofun

theorem conforms (hi : Fits I G k c b x before i) : i.Conforms := by
  cases hi with
  | ordinary steady signature given role =>
    refine conforms_call fun parameters hcal => ⟨?_, rfl, role.iff⟩
    cases hcal
    rw [map_ty_of_forall₂ given, parameters_of_signature signature]
  | buffered steady around ahead behind source room filled role =>
    refine conforms_call fun parameters hcal => ⟨?_, rfl, role.iff⟩
    cases hcal
    rw [List.map_append, List.map_cons, List.map_cons, map_ty_of_forall₂ ahead,
      map_ty_of_forall₂ behind]
    exact parameters_of_around around
  | addField steady given | addMethod steady given =>
    refine conforms_call fun parameters hcal => ⟨?_, rfl, by simp⟩
    cases hcal
    have hty := map_ty_of_forall₂ given
    simp only [List.map_cons, List.map_nil, List.cons.injEq, and_true] at hty
    obtain ⟨hcls, hname, hhidden⟩ := hty
    simp only [List.map_cons, List.map_nil, hcls, hname, hhidden]
    rfl
  | math steady role given =>
    refine conforms_call fun parameters hcal => ⟨?_, rfl, by simp⟩
    cases hcal
    rw [List.map_cons, given.ty_eq]
    rfl
  | function => exact conforms_call nofun
  | tryPush | setjmp | tryPop =>
    refine conforms_call fun parameters hcal => ⟨?_, rfl, by simp⟩
    cases hcal
    rfl
  | load | loadArgument | loadCell | store | storeEntry | storeResult | storeCell | extract | compare
  | arith | entry | argument | entered | choose | branch | jump | leave | raised | dead | comment =>
    exact conforms_of_isCall rfl

/-- Where a block leads: to the exit, or to a block behind which no more lies than this one. -/
theorem leads (hi : Fits I G k c b x before i) (hb' : b' ∈ i.targets) :
    b' = 2 ∨ ∃ n, c.Leads (b :: x.after) n b' := by
  cases hi with
  | choose tested inside outside | branch _ _ inside outside =>
    rcases List.mem_cons.mp hb' with rfl | hb'
    · exact .inr ⟨_, inside⟩
    · exact .inr ⟨_, List.mem_singleton.mp hb' ▸ outside⟩
  | jump steady target => exact .inr ⟨_, List.mem_singleton.mp hb' ▸ target⟩
  | leave => exact .inl (List.mem_singleton.mp hb')
  | _ => cases hb'

end Fits

/-! ## The instructions of the prologue and of the exit -/

namespace Opens

/-- What an instruction of the prologue reads is a parameter, or the prologue has written it. -/
theorem reads (hi : Opens G k c before i) :
    ∀ t ∈ i.uses, c.Reads (fun r => r ∈ c.inputs ∨ Assigns before r) t := by
  cases hi with
  | slots | cell | gcInit => exact nofun
  | clear role allocated =>
    subst allocated
    exact List.forall_mem_cons.mpr ⟨Cert.reads_of_ne nofun, List.forall_mem_singleton.mpr
      (Cert.reads_reg role rfl (.inr ⟨_, .head _, rfl⟩))⟩
  | root role cleared =>
    subst cleared
    exact List.forall_mem_singleton.mpr
      (Cert.reads_reg role rfl (.inr ⟨_, .tail _ (.head _), rfl⟩))
  | globalRoot => exact List.forall_mem_singleton.mpr (Cert.reads_of_ne nofun)
  | bottom main role first =>
    subst first
    exact List.forall_mem_singleton.mpr
      (Cert.reads_reg role rfl (.inr ⟨_, .head _, rfl⟩))
  | setArgs main number arguments inputs =>
    exact List.forall_mem_cons.mpr ⟨Cert.reads_reg number rfl (.inl inputs.1),
      List.forall_mem_singleton.mpr (Cert.reads_reg arguments rfl (.inl inputs.2))⟩

theorem hasRole_dest (hi : Opens G k c before i) (hr : destOf i = some r) :
    ∃ ρ, c.HasRole r ρ ∧ ρ.ty = i.writes := by
  cases hi with
  | slots role size =>
    cases hr
    refine ⟨_, role, ?_⟩
    rename Role => ρ
    cases ρ <;> first | rfl | cases size
  | cell scalar role =>
    cases hr
    exact ⟨_, role, rfl⟩
  | clear | root | globalRoot | gcInit | bottom | setArgs => cases hr

theorem conforms (hi : Opens G k c before i) : i.Conforms := by
  cases hi with
  | slots | cell | clear => exact conforms_of_isCall rfl
  | root | globalRoot | gcInit | bottom | setArgs =>
    refine conforms_call fun parameters hcal => ⟨?_, rfl, by simp⟩
    cases hcal
    rfl

theorem targets (hi : Opens G k c before i) : i.targets = [] := by
  cases hi <;> rfl

end Opens

/-- The instructions of the exit, after those that stand before. -/
inductive Closes (k : Convention) (c : Cert) (before : List Instr) : Instr → Prop
  | popRoots {count : Nat} (first : before = []) :
      Closes k c before (.call none .void (.entry .popRoots) [.i32 count])
  | result {r : Nat} (inner : k ≠ .main) (role : c.HasRole r .value)
      (goes : Ended before = false) : Closes k c before (.load r .value (.reg 0))
  | ret {r : Nat} {rest : List Instr} (role : c.HasRole r .value)
      (loaded : before = .load r .value (.reg 0) :: rest) : Closes k c before (.ret (some (.value r)))
  | retMain (goes : Ended before = false) : Closes k c before (.ret (some (.i32 0)))

theorem checked_popping (count : Nat) : Checked (Closes k c) (popping count) ∧
    Ended (popping count) = false := by
  unfold popping
  split
  · exact ⟨trivial, rfl⟩
  · exact ⟨⟨.popRoots rfl, trivial⟩, rfl⟩

theorem Exits.checked {roots : Nat} (hl : Exits G k c roots l) : Checked (Closes k c) l := by
  cases hl with
  | inner inner role =>
    obtain ⟨hpopping, hgoes⟩ := checked_popping (k := k) (c := c) roots
    exact ⟨.ret role rfl, .result inner role hgoes, hpopping⟩
  | @main count main =>
    obtain ⟨hpopping, hgoes⟩ := checked_popping (k := k) (c := c) count
    exact ⟨.retMain hgoes, hpopping⟩

namespace Closes

theorem goes (hi : Closes k c before i) : Ended before = false := by
  cases hi with
  | popRoots first =>
    rw [first]
    rfl
  | result _ _ goes | retMain goes => exact goes
  | ret role loaded =>
    rw [loaded]
    rfl

theorem reads (hres : k ≠ .main → c.HasRole 0 .result) (hi : Closes k c before i) :
    ∀ t ∈ i.uses, c.Reads (fun r => (∃ ρ, c.HasRole r ρ ∧ ρ.isStorage) ∨ Assigns before r) t := by
  cases hi with
  | popRoots => exact List.forall_mem_singleton.mpr (Cert.reads_of_ne nofun)
  | result inner =>
    exact List.forall_mem_singleton.mpr
      (Cert.reads_reg (hres inner) rfl (.inl ⟨_, hres inner, rfl⟩))
  | ret role loaded =>
    subst loaded
    exact List.forall_mem_singleton.mpr
      (Cert.reads_reg role rfl (.inr ⟨_, .head _, rfl⟩))
  | retMain => exact List.forall_mem_singleton.mpr (Cert.reads_of_ne nofun)

theorem hasRole_dest (hi : Closes k c before i) (hr : destOf i = some r) :
    ∃ ρ, c.HasRole r ρ ∧ ρ.ty = i.writes := by
  cases hi with
  | result inner role =>
    cases hr
    exact ⟨_, role, rfl⟩
  | popRoots | ret | retMain => cases hr

theorem conforms (hi : Closes k c before i) : i.Conforms := by
  cases hi with
  | popRoots =>
    refine conforms_call fun parameters hcal => ⟨?_, rfl, by simp⟩
    cases hcal
    rfl
  | result | ret | retMain => exact conforms_of_isCall rfl

theorem targets (hi : Closes k c before i) : i.targets = [] := by
  cases hi <;> rfl

end Closes

/-! ## Functions that fit -/

/-- The check of an instruction and of those before it, by the block that they stand in. -/
def Stands (I : Interface) (G : List String) (k : Convention) (c : Cert) (b : Nat)
    (before : List Instr) (i : Instr) : Prop :=
  if b = 0 then (i = .jump 1 ∧ Checked (Opens G k c) before) ∨ Checked (Opens G k c) (i :: before)
  else if b = 2 then Closes k c before i
  else ∃ x, c.HasContext b x ∧ Checked (Fits I G k c b x) (i :: before)

theorem Checked.nested (hl : Checked P l) :
    Checked (fun before i => Checked P (i :: before)) l := by
  induction l with
  | nil => trivial
  | cons i before ih => exact ⟨hl, ih hl.2⟩

theorem ended_of_opens (hl : Checked (Opens G k c) l) : Ended l = false := by
  cases l with
  | nil => rfl
  | cons i before => exact hl.1.isTerminator

theorem Stands.goes (hi : Stands I G k c b before i) : Ended before = false := by
  rw [Stands] at hi
  split at hi
  · rcases hi with ⟨-, hopens⟩ | hopens
    · exact ended_of_opens hopens
    · exact ended_of_opens hopens.2
  · split at hi
    · exact hi.goes
    · obtain ⟨x, hx, hfits, -⟩ := hi
      exact hfits.goes

/-- Of instructions that stand only where their block goes on, none but the last one ends it. -/
theorem isTerminator_of_mem (hP : ∀ before i, P before i → Ended before = false) (hl : Checked P l)
    {j : Instr} (hj : j ∈ l.tail) : j.isTerminator = false := by
  induction l with
  | nil => exact absurd hj List.not_mem_nil
  | cons i before ih =>
    cases before with
    | nil => exact absurd hj List.not_mem_nil
    | cons j' rest =>
      rcases List.mem_cons.mp hj with rfl | hj
      · exact hP _ _ hl.1
      · exact ih hl.2 hj

theorem Function.Way.zero_mem (hway : f.Way behind b) (hb : b ≠ 0) : 0 ∈ behind := by
  induction hway with
  | entry => exact absurd rfl hb
  | @step behind b b' j i way instr target ih =>
    by_cases hb0 : b = 0
    · rw [hb0]
      exact .head _
    · exact .tail _ (ih hb0)

namespace Function.Certified

variable (hf : f.Certified I G k c)

include hf

theorem checked (b : Nat) : Checked (Stands I G k c b) (trailOf f.blocks b) := by
  by_cases hb0 : b = 0
  · subst hb0
    rw [hf.enters]
    exact ⟨.inl ⟨rfl, hf.opens⟩, hf.opens.nested.mono fun _ _ hi => .inr hi⟩
  by_cases hb2 : b = 2
  · subst hb2
    exact hf.exits.checked.mono fun _ _ hi => hi
  cases hx : c.contexts[b]? with
  | some x =>
    refine (hf.fits b x hb0 hb2 hx).nested.mono fun before i hi => ?_
    rw [Stands, if_neg hb0, if_neg hb2]
    exact ⟨x, hx, hi⟩
  | none =>
    have hsize : f.blocks.size ≤ b := hf.contexts ▸ List.getElem?_eq_none_iff.mp hx
    unfold trailOf Table.get?
    rw [Array.getElem?_eq_none hsize]
    trivial

theorem stands (hi : f.At b j i) : ∃ block, f.blocks.get? b = some block ∧
    Stands I G k c b (block.instrs.toList.take j).reverse i := by
  obtain ⟨block, hblk, hi⟩ := hi
  refine ⟨block, hblk, ?_⟩
  have hchecked := hf.checked b
  unfold trailOf at hchecked
  rw [hblk] at hchecked
  exact Checked.at hchecked hi

end Function.Certified

theorem exists_at_of_mem (hi : i ∈ f.instrs) : ∃ b j, f.At b j i := by
  obtain ⟨block, hblk, hi⟩ := List.mem_flatMap.mp hi
  obtain ⟨b, hb⟩ := List.getElem?_of_mem hblk
  obtain ⟨j, hj⟩ := List.getElem?_of_mem hi
  refine ⟨b, j, block, ?_, hj⟩
  rwa [Table.toList, Array.getElem?_toList] at hb

theorem lt_of_hasContext (hf : f.Certified I G k c) (hx : c.HasContext b x) :
    b < f.blocks.size := by
  rw [← hf.contexts]
  exact (List.getElem?_eq_some_iff.mp hx).1

theorem exists_at_of_assigns (hr : Assigns (trailOf f.blocks b) r) :
    ∃ p i, f.At b p i ∧ destOf i = some r := by
  obtain ⟨i, hi, hdest⟩ := hr
  unfold trailOf at hi
  cases hblk : f.blocks.get? b with
  | none =>
    rw [hblk] at hi
    cases hi
  | some block =>
    rw [hblk] at hi
    obtain ⟨p, hp⟩ := List.getElem?_of_mem (List.mem_reverse.mp hi)
    exact ⟨p, i, ⟨block, hblk, hp⟩, hdest⟩

theorem exists_at_of_take (hblk : f.blocks.get? b = some block)
    (hr : Assigns (block.instrs.toList.take j).reverse r) :
    ∃ p i, f.At b p i ∧ destOf i = some r ∧ p < j := by
  obtain ⟨i, hi, hdest⟩ := hr
  obtain ⟨p, hp⟩ := List.getElem?_of_mem (List.mem_reverse.mp hi)
  obtain ⟨hlt, -⟩ := List.getElem?_eq_some_iff.mp hp
  have hpj : p < j := by
    rw [List.length_take] at hlt
    omega
  rw [List.getElem?_take_of_lt hpj] at hp
  exact ⟨p, i, ⟨block, hblk, hp⟩, hdest, hpj⟩

namespace Function.Certified

variable (hf : f.Certified I G k c)

include hf

theorem declares (hr : c.HasRole r ρ) : f.Declares r ρ.ty := by
  have hlt : r < f.registers.size := by
    rw [← hf.roles]
    exact (List.getElem?_eq_some_iff.mp hr).1
  have hget : f.registers.get? r = some (f.registers.entries[r]) := Array.getElem?_eq_getElem hlt
  exact ⟨_, hget, hf.typed r _ ρ hget hr⟩

theorem target_lt (hi : f.At b j i) (hb' : b' ∈ i.targets) : b' < f.blocks.size ∧ b' ≠ 0 := by
  obtain ⟨block, hblk, hstd⟩ := hf.stands hi
  have hexit : 2 < f.blocks.size := by
    by_contra hlt
    have hexits := hf.exits
    unfold trailOf Table.get? at hexits
    rw [Array.getElem?_eq_none (Nat.not_lt.mp hlt)] at hexits
    cases hexits
  rw [Stands] at hstd
  split at hstd
  · rcases hstd with ⟨rfl, -⟩ | hopens
    · rw [List.mem_singleton.mp hb']
      exact ⟨lt_of_hasContext hf hf.body, by decide⟩
    · rw [hopens.1.targets] at hb'
      cases hb'
  · split at hstd
    · rw [hstd.targets] at hb'
      cases hb'
    · obtain ⟨x, hx, hfits, -⟩ := hstd
      rcases hfits.leads hb' with rfl | ⟨n, h3, y, hy, -⟩
      · exact ⟨hexit, by decide⟩
      · exact ⟨lt_of_hasContext hf hy, by omega⟩

theorem after_subset (hway : f.Way behind b) (hb0 : b ≠ 0) (hb2 : b ≠ 2) (hx : c.HasContext b x) :
    x.after ⊆ behind := by
  induction hway generalizing x with
  | entry => exact absurd rfl hb0
  | @step behind b b' j i way instr target ih =>
    obtain ⟨block, hblk, hstd⟩ := hf.stands instr
    rw [Stands] at hstd
    split at hstd
    · rcases hstd with ⟨rfl, -⟩ | hopens
      · -- from the prologue to the body, behind which nothing has to lie
        rw [List.mem_singleton.mp target] at hx
        rw [hx.unique hf.body]
        exact List.nil_subset _
      · rw [hopens.1.targets] at target
        cases target
    · next hb0' =>
      split at hstd
      · rw [hstd.targets] at target
        cases target
      · next hb2' =>
        obtain ⟨y, hy, hfits, -⟩ := hstd
        rcases hfits.leads target with rfl | ⟨n, -, z, hz, -, -, hafter⟩
        · exact absurd rfl hb2
        · rw [hx.unique hz]
          refine List.Subset.trans hafter (List.cons_subset_cons _ (ih hb0' hb2' hy))

theorem dominated_of_storage (hb : b ≠ 0) (hr : c.HasRole r ρ) (hρ : ρ.isStorage = true) :
    f.Dominated r b j := by
  have hass : Assigns (trailOf f.blocks 0) r := by
    obtain ⟨i, hi, hdest⟩ := hf.stored r ρ hr hρ
    refine ⟨i, ?_, hdest⟩
    rw [hf.enters]
    exact .tail _ hi
  obtain ⟨p, i, hat, hdest⟩ := exists_at_of_assigns hass
  exact .inr ⟨0, p, i, hat, hdest, fun behind hway => .inl (hway.zero_mem hb)⟩

theorem reads (hi : f.At b j i) (hr : ⟨ty, .reg r⟩ ∈ i.uses) :
    f.Declares r ty ∧ f.Dominated r b j := by
  obtain ⟨block, hblk, hstd⟩ := hf.stands hi
  have hsame : Assigns (block.instrs.toList.take j).reverse r → f.Dominated r b j := by
    intro hass
    obtain ⟨p, i, hat, hdest, hlt⟩ := exists_at_of_take hblk hass
    exact .inr ⟨b, p, i, hat, hdest, fun _ _ => .inr ⟨rfl, hlt⟩⟩
  have hpassed : r ∈ c.inputs → f.Dominated r b j := fun h => .inl (hf.parameters ▸ h)
  rw [Stands] at hstd
  split at hstd
  · rcases hstd with ⟨rfl, -⟩ | hopens
    · cases hr
    · obtain ⟨ρ, hρ, rfl, hknown⟩ := hopens.1.reads _ hr r rfl
      exact ⟨hf.declares hρ, hknown.elim hpassed hsame⟩
  · next hb0 =>
    split at hstd
    · obtain ⟨ρ, hρ, rfl, hknown⟩ := hstd.reads hf.result _ hr r rfl
      refine ⟨hf.declares hρ, hknown.elim (fun ⟨σ, hσ, hstor⟩ => ?_) hsame⟩
      exact hf.dominated_of_storage hb0 hσ hstor
    · next hb2 =>
      obtain ⟨x, hx, hfits, hbef⟩ := hstd
      obtain ⟨ρ, hρ, rfl, hknown⟩ := hfits.reads hf.result hbef _ hr r rfl
      refine ⟨hf.declares hρ, ?_⟩
      rcases hknown with hinput | ⟨σ, hσ, hstor⟩ | hass | ⟨p, hp, hdef⟩
      · exact hpassed hinput
      · exact hf.dominated_of_storage hb0 hσ hstor
      · exact hsame hass
      · obtain ⟨-, -, hass⟩ := hf.defs p r hdef
        obtain ⟨q, i, hat, hdest⟩ := exists_at_of_assigns hass
        exact .inr ⟨p, q, i, hat, hdest, fun behind hway =>
          .inl (hf.after_subset hway hb0 hb2 hx hp)⟩

theorem declares_dest (hi : f.At b j i) (hr : destOf i = some r) : f.Declares r i.writes := by
  obtain ⟨block, hblk, hstd⟩ := hf.stands hi
  rw [Stands] at hstd
  split at hstd
  · rcases hstd with ⟨rfl, -⟩ | hopens
    · cases hr
    · obtain ⟨ρ, hρ, hty⟩ := hopens.1.hasRole_dest hr
      exact hty ▸ hf.declares hρ
  · split at hstd
    · obtain ⟨ρ, hρ, hty⟩ := hstd.hasRole_dest hr
      exact hty ▸ hf.declares hρ
    · obtain ⟨x, hx, hfits, -⟩ := hstd
      obtain ⟨ρ, hρ, hty⟩ := hfits.hasRole_dest hr
      exact hty ▸ hf.declares hρ

theorem conforms (hi : f.At b j i) : i.Conforms := by
  obtain ⟨block, hblk, hstd⟩ := hf.stands hi
  rw [Stands] at hstd
  split at hstd
  · rcases hstd with ⟨rfl, -⟩ | hopens
    · exact conforms_of_isCall rfl
    · exact hopens.1.conforms
  · split at hstd
    · exact hstd.conforms
    · obtain ⟨x, hx, hfits, -⟩ := hstd
      exact hfits.conforms

theorem eq_zero_of_alloca {d n : Nat} (hi : f.At b j (.alloca d ty n)) : b = 0 := by
  obtain ⟨block, hblk, hstd⟩ := hf.stands hi
  rw [Stands] at hstd
  split at hstd
  · next hb0 => exact hb0
  · split at hstd
    · cases hstd
    · obtain ⟨x, hx, hfits, -⟩ := hstd
      cases hfits

theorem ends (hblk : block ∈ f.blocks.toList) :
    ∃ before last, block.instrs.toList = before ++ [last] ∧ last.isTerminator = true ∧
      ∀ i ∈ before, i.isTerminator = false := by
  obtain ⟨b, hb⟩ := List.getElem?_of_mem hblk
  have htrail := trail_of_getElem? hb
  have hlt : b < f.blocks.size := by
    rw [Table.toList, Array.getElem?_toList] at hb
    exact (Array.getElem?_eq_some_iff.mp hb).1
  have hended := hf.ended b hlt
  have hchecked := hf.checked b
  rw [htrail] at hended hchecked
  rcases List.eq_nil_or_concat block.instrs.toList with hnil | ⟨before, last, heq⟩
  · rw [hnil] at hended
    cases hended
  · rw [List.concat_eq_append] at heq
    rw [heq, List.reverse_append] at hended hchecked
    exact ⟨before, last, heq, hended, fun i hi =>
      isTerminator_of_mem (fun _ _ h => h.goes) hchecked (List.mem_reverse.mpr hi)⟩

theorem wellFormed : f.WellFormed where
  ends _ hblk := hf.ends hblk
  targets i hi b hb := by
    obtain ⟨b', j, hat⟩ := exists_at_of_mem hi
    exact hf.target_lt hat hb
  single := hf.single.nodup_writes
  written i hi r hr := by
    obtain ⟨b, j, hat⟩ := exists_at_of_mem hi
    exact hf.declares_dest hat hr
  typed i hi ty r hr := by
    obtain ⟨b, j, hat⟩ := exists_at_of_mem hi
    exact (hf.reads hat hr).1
  dominated b j i hi ty r hr := (hf.reads hi hr).2
  storage b j d ty n hi := hf.eq_zero_of_alloca hi
  calls i hi := by
    obtain ⟨b, j, hat⟩ := exists_at_of_mem hi
    exact hf.conforms hat

end Function.Certified

end Ember.Ir
