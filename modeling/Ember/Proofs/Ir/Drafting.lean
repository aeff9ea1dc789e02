import Ember.Proofs.Ir.Certificate

/-!
# Ember — drafts that fit a certificate

Every step of the construction of a function keeps a certificate of what is written so far, and only
ever adds to it. A block is left with its last instruction and never written again, so that the
number of open regions is known wherever writing goes on.

Main results: `yields_emitReturn`, `yields_finish`.
-/

namespace Ember

variable {α : Type}

/-- What a computation gives if it succeeds. -/
def Yields {ε σ α : Type} (x : EStateM ε σ α) (s : σ) (Q : α → σ → Prop) : Prop :=
  ∀ a s', x s = .ok a s' → Q a s'

namespace Yields

variable {ε σ α β : Type} {s : σ}

theorem mono {x : EStateM ε σ α} {Q R : α → σ → Prop} (hx : Yields x s Q)
    (hQ : ∀ a s', Q a s' → R a s') : Yields x s R :=
  fun a s' heq => hQ a s' (hx a s' heq)

theorem and {x : EStateM ε σ α} {Q R : α → σ → Prop} (hQ : Yields x s Q) (hR : Yields x s R) :
    Yields x s fun a s' => Q a s' ∧ R a s' :=
  fun a s' heq => ⟨hQ a s' heq, hR a s' heq⟩

theorem pure {a : α} {Q : α → σ → Prop} (ha : Q a s) : Yields (Pure.pure a : EStateM ε σ α) s Q := by
  rintro _ _ ⟨⟩
  exact ha

theorem throw {e : ε} {Q : α → σ → Prop} : Yields (MonadExcept.throw e : EStateM ε σ α) s Q :=
  fun _ _ heq => nomatch heq

theorem bind {x : EStateM ε σ α} {f : α → EStateM ε σ β} {R : α → σ → Prop} {Q : β → σ → Prop}
    (hx : Yields x s R) (hf : ∀ a s', R a s' → Yields (f a) s' Q) : Yields (x >>= f) s Q := by
  intro b s' heq
  cases hr : x s with
  | ok a s1 =>
    have hf' : f a s1 = .ok b s' := by simpa only [Bind.bind, EStateM.bind, hr] using heq
    exact hf a s1 (hx a s1 hr) b s' hf'
  | error e s1 =>
    simp only [Bind.bind, EStateM.bind, hr] at heq
    cases heq

theorem get_bind {f : σ → EStateM ε σ β} {Q : β → σ → Prop} (hf : Yields (f s) s Q) :
    Yields (MonadState.get >>= f) s Q :=
  hf

theorem set {s' : σ} {Q : PUnit → σ → Prop} (hs : Q ⟨⟩ s') :
    Yields (MonadState.set s' : EStateM ε σ PUnit) s Q := by
  rintro _ _ ⟨⟩
  exact hs

theorem modifyGet {f : σ → α × σ} {Q : α → σ → Prop} (hs : Q (f s).1 (f s).2) :
    Yields (MonadState.modifyGet f : EStateM ε σ α) s Q := by
  rintro _ _ ⟨⟩
  exact hs

theorem modify_bind {g : σ → σ} {f : PUnit → EStateM ε σ α} {Q : α → σ → Prop}
    (hf : Yields (f ⟨⟩) (g s) Q) : Yields (modify g >>= f) s Q :=
  hf

end Yields

theorem Table.size_push (t : Table α) (a : α) : (t.push a).size = t.size + 1 :=
  Array.size_push a

theorem Table.get?_push (t : Table α) (a : α) (i : Nat) :
    (t.push a).get? i = if i = t.size then some a else t.get? i :=
  Array.getElem?_push

end Ember

namespace Ember.Ir

open Machine (destOf)

variable {callee : Callee} {i j : Instr} {added l l' : List Instr} {more new : List Nat}
  {arguments : List Typed} {b base depth index r s size : Nat} {make : Nat → Instr}
  {o rhs : Operand} {name : Option String} {ρ : Role} {blocks blocks' : Table Block}
  {registers : Table Register} {ty : Ty} {t : Typed} {width : Width}

variable {I : Interface} {G : List String} {k : Convention} {c c' : Cert} {n : Nat}

/-! ## Trails -/

/-- Instructions that neither end a block nor have to do with protected regions. -/
def Instr.isCalm : Instr → Bool
  | .call _ _ (.entry .tryPush) _ | .call _ _ (.entry .tryPop) _
  | .call _ _ (.intrinsic .setjmp) _ => false
  | .branch .. | .jump _ | .ret _ | .unreachable => false
  | _ => true

theorem Steady.cons {before : List Instr} (hs : Steady before) (hi : i.isCalm) :
    Steady (i :: before) := by
  unfold Steady at hs ⊢
  split <;> simp_all [Instr.isCalm]

theorem Instr.tries_of_isCalm (hi : i.isCalm) (n : Nat) : i.tries n = n := by
  unfold Instr.tries
  split <;> simp_all [Instr.isCalm]

theorem pushes_append (l l' : List Instr) : pushes (l ++ l') = pushes l ++ pushes l' :=
  List.filterMap_append

theorem Assigns.mono (hr : Assigns l r) (hl : l ⊆ l') : Assigns l' r := by
  obtain ⟨i, hi, hdest⟩ := hr
  exact ⟨i, hl hi, hdest⟩

theorem isTerminated_eq (b : Block) : b.isTerminated = Ended b.trail := by
  unfold Block.isTerminated Ended Block.trail
  rw [List.head?_reverse, Array.getLast?_toList]

theorem trailOf_of_size_le (hb : blocks.size ≤ b) : trailOf blocks b = [] := by
  unfold trailOf Table.get?
  rw [Array.getElem?_eq_none hb]
  rfl

theorem trailOf_push (blocks : Table Block) (label : String) (b : Nat) :
    trailOf (blocks.push { label }) b = trailOf blocks b := by
  unfold trailOf Table.get? Table.push
  rw [Array.getElem?_push]
  split
  · next hb => simp [hb, Block.trail]
  · rfl

/-- An instruction was added to a block, and nothing else happened. -/
structure Appends (b : Nat) (i : Instr) (blocks blocks' : Table Block) : Prop where
  size : blocks'.size = blocks.size
  trail : ∀ b', trailOf blocks' b' = if b' = b then i :: trailOf blocks b else trailOf blocks b'

theorem appends_set {blk : Block} (hblk : blocks.get? b = some blk)
    (hset : blocks.set b { blk with instrs := blk.instrs.push i } = .ok blocks') :
    Appends b i blocks blocks' := by
  unfold Table.set at hset
  split at hset
  case isFalse => cases hset
  case isTrue hb =>
    cases hset
    refine ⟨Array.size_setIfInBounds .., fun b' => ?_⟩
    unfold trailOf
    unfold Table.get? at hblk ⊢
    rw [Array.getElem?_setIfInBounds]
    by_cases hbb : b' = b
    · subst hbb
      have hb' : b' < blocks.entries.size := hb
      rw [if_pos rfl, if_pos rfl, if_pos hb', hblk]
      simp [Block.trail]
    · rw [if_neg (Ne.symm hbb), if_neg hbb]

theorem Appends.suffix (ha : Appends b i blocks blocks') (b' : Nat) :
    trailOf blocks b' <:+ trailOf blocks' b' := by
  rw [ha.trail]
  split
  · next heq => exact heq ▸ List.suffix_cons ..
  · exact List.suffix_refl _

/-- Instructions were added to the prologue, the last one first, and nothing else happened. -/
structure Prefaces (added : List Instr) (blocks blocks' : Table Block) : Prop where
  size : blocks'.size = blocks.size
  first : trailOf blocks' 0 = added ++ trailOf blocks 0
  rest : ∀ b, b ≠ 0 → trailOf blocks' b = trailOf blocks b

theorem Prefaces.refl (blocks : Table Block) : Prefaces [] blocks blocks :=
  ⟨rfl, rfl, fun _ _ => rfl⟩

theorem Prefaces.of_appends (ha : Appends 0 i blocks blocks') : Prefaces [i] blocks blocks' where
  size := ha.size
  first := by rw [ha.trail, if_pos rfl]; rfl
  rest b hb := by rw [ha.trail, if_neg hb]

theorem Prefaces.cons {blocks'' : Table Block} (hp : Prefaces added blocks blocks')
    (hi : Prefaces [i] blocks' blocks'') :
    Prefaces (i :: added) blocks blocks'' where
  size := hi.size.trans hp.size
  first := by rw [hi.first, hp.first]; rfl
  rest b hb := (hi.rest b hb).trans (hp.rest b hb)

namespace Cert

variable {r : Nat} {σ : Role}

/-- A certificate with one more register. -/
def addRole (c : Cert) (ρ : Role) : Cert :=
  { c with roles := c.roles ++ [ρ] }

/-- A certificate with one more block. -/
def addContext (c : Cert) (x : Context) : Cert :=
  { c with contexts := c.contexts ++ [x] }

theorem le_addRole (c : Cert) (ρ : Role) : c ≤ c.addRole ρ :=
  ⟨List.prefix_append .., List.prefix_refl _, List.prefix_refl _, List.Subset.refl _⟩

theorem le_addContext (c : Cert) (x : Context) : c ≤ c.addContext x :=
  ⟨List.prefix_refl _, List.prefix_append .., List.prefix_refl _, List.Subset.refl _⟩

theorem getElem?_concat_iff {α : Type} {l : List α} {a a' : α} {i : Nat} :
    (l ++ [a])[i]? = some a' ↔ l[i]? = some a' ∨ (i = l.length ∧ a' = a) := by
  rcases Nat.lt_trichotomy i l.length with hi | rfl | hi
  · rw [List.getElem?_append_left hi]
    simp [Nat.ne_of_lt hi]
  · simp [eq_comm]
  · rw [List.getElem?_eq_none (by simp; omega), List.getElem?_eq_none (by omega)]
    simp [Nat.ne_of_gt hi]

theorem hasRole_addRole (c : Cert) (ρ : Role) :
    (c.addRole ρ).HasRole r σ ↔ c.HasRole r σ ∨ (r = c.roles.length ∧ σ = ρ) :=
  getElem?_concat_iff

theorem hasContext_addContext (c : Cert) (x : Context) {y : Context} :
    (c.addContext x).HasContext b y ↔ c.HasContext b y ∨ (b = c.contexts.length ∧ y = x) :=
  getElem?_concat_iff

theorem HasRole.lt (hr : c.HasRole r σ) : r < c.roles.length :=
  (List.getElem?_eq_some_iff.mp hr).1

end Cert

theorem exists_role_of_assigns (hl : Checked (Opens G k c) l) (hr : Assigns l r) :
    ∃ ρ, c.HasRole r ρ := by
  induction l with
  | nil =>
    obtain ⟨i, hi, -⟩ := hr
    cases hi
  | cons i before ih =>
    obtain ⟨j, hj, hdest⟩ := hr
    rcases List.mem_cons.mp hj with rfl | hj
    · cases hl.1 with
      | slots role => exact ⟨_, Option.some.inj hdest ▸ role⟩
      | cell _ role => exact ⟨_, Option.some.inj hdest ▸ role⟩
      | _ => cases hdest
    · exact ih hl.2 ⟨j, hj, hdest⟩

namespace Coded

variable {registers : Table Register} {blocks blocks' : Table Block} {prologue : List Instr}
  {b : Nat} {i : Instr}

section

variable (hc : Coded I G k c registers blocks prologue)

include hc

theorem fresh (hj : j ∈ prologue) : destOf j ≠ some registers.size := by
  intro hdest
  obtain ⟨ρ, hρ⟩ := exists_role_of_assigns hc.opens ⟨j, hj, hdest⟩
  exact absurd hc.roles (Nat.ne_of_gt hρ.lt)

theorem append (ha : Appends b i blocks blocks')
    (hfits : ∀ x, c.HasContext b x → Fits I G k c b x (trailOf blocks b) i) :
    Coded I G k c registers blocks' prologue := by
  refine { hc with contexts := hc.contexts.trans ha.size.symm, fits := ?_, defs := ?_ }
  · intro b' x hb0 hb2 hx
    rw [ha.trail]
    split
    · next heq =>
      subst heq
      exact ⟨hfits x hx, hc.fits b' x hb0 hb2 hx⟩
    · exact hc.fits b' x hb0 hb2 hx
  · intro p r hr
    obtain ⟨hp0, hp2, hass⟩ := hc.defs p r hr
    exact ⟨hp0, hp2, hass.mono (ha.suffix p).subset⟩

theorem addPrologue
    (hp : Prefaces added blocks blocks') (hopens : Checked (Opens G k c) (added ++ prologue)) :
    Coded I G k c registers blocks' (added ++ prologue) := by
  refine { hc with contexts := hc.contexts.trans hp.size.symm, opens := hopens, fits := ?_,
                   stored := ?_, rooted := ?_, globals := ?_, defs := ?_ }
  · intro b x hb0 hb2 hx
    rw [hp.rest b hb0]
    exact hc.fits b x hb0 hb2 hx
  · exact fun r ρ hr hρ => (hc.stored r ρ hr hρ).mono (List.subset_append_right ..)
  · intro r hr
    rw [pushes_append]
    exact List.mem_append_right _ (hc.rooted r hr)
  · intro hk s hs
    rw [pushes_append]
    exact List.mem_append_right _ (hc.globals hk s hs)
  · intro p r hr
    obtain ⟨hp0, hp2, hass⟩ := hc.defs p r hr
    exact ⟨hp0, hp2, (hp.rest p hp0).symm ▸ hass⟩

theorem addStorage (reg : Register) (hty : reg.ty = ρ.ty) (hp : Prefaces added blocks blocks')
    (hopens : Checked (Opens G k (c.addRole ρ)) (added ++ prologue))
    (hstored : ρ.isStorage → Assigns added registers.size)
    (hrooted : ρ = .slot → .reg registers.size ∈ pushes added) :
    Coded I G k (c.addRole ρ) (registers.push reg) blocks' (added ++ prologue) where
  roles := by rw [Table.size_push, ← hc.roles, Cert.addRole, List.length_append]; rfl
  contexts := hc.contexts.trans hp.size.symm
  typed r reg' σ hreg hσ := by
    rw [Table.get?_push, ← hc.roles] at hreg
    rcases (c.hasRole_addRole ρ).mp hσ with hσ | ⟨rfl, rfl⟩
    · rw [if_neg (Nat.ne_of_lt hσ.lt)] at hreg
      exact hc.typed r reg' σ hreg hσ
    · rw [if_pos rfl] at hreg
      exact Option.some.inj hreg ▸ hty
  inputs := by
    obtain ⟨ρs, hρs, htakes⟩ := hc.inputs
    exact ⟨ρs, hρs.imp fun _ _ h => h.mono (c.le_addRole ρ), htakes⟩
  body := hc.body
  result hk := (hc.result hk).mono (c.le_addRole ρ)
  opens := hopens
  fits b x hb0 hb2 hx := by
    rw [hp.rest b hb0]
    exact (hc.fits b x hb0 hb2 hx).mono fun _ _ hi => hi.mono (c.le_addRole ρ) fun _ h => h
  stored r σ hσ hstor := by
    rcases (c.hasRole_addRole ρ).mp hσ with hσ | ⟨rfl, rfl⟩
    · exact (hc.stored r σ hσ hstor).mono (List.subset_append_right ..)
    · exact (hc.roles ▸ hstored hstor).mono (List.subset_append_left ..)
  rooted r hr := by
    rw [pushes_append]
    rcases (c.hasRole_addRole ρ).mp hr with hr | ⟨rfl, heq⟩
    · exact List.mem_append_right _ (hc.rooted r hr)
    · exact List.mem_append_left _ (hc.roles ▸ hrooted heq.symm)
  globals hk s hs := by
    rw [pushes_append]
    exact List.mem_append_right _ (hc.globals hk s hs)
  defs p r hr := by
    obtain ⟨hp0, hp2, hass⟩ := hc.defs p r hr
    exact ⟨hp0, hp2, (hp.rest p hp0).symm ▸ hass⟩

theorem addRole (reg : Register) (hρ : ρ.isStorage = false) (hty : reg.ty = ρ.ty) :
    Coded I G k (c.addRole ρ) (registers.push reg) blocks prologue := by
  refine hc.addStorage reg hty (.refl blocks) ?_ (fun h => ?_) (fun h => ?_)
  · exact hc.opens.mono fun _ _ hi => hi.mono (c.le_addRole ρ) fun _ h => h
  · rw [hρ] at h
    cases h
  · subst h
    cases hρ

theorem addContext (label : String) (x : Context) :
    Coded I G k (c.addContext x) registers (blocks.push { label }) prologue where
  roles := hc.roles
  contexts := by rw [Table.size_push, ← hc.contexts, Cert.addContext, List.length_append]; rfl
  typed := hc.typed
  inputs := hc.inputs
  body := hc.body.mono (c.le_addContext x)
  result := hc.result
  opens := hc.opens.mono fun _ _ hi => hi.mono (c.le_addContext x) fun _ h => h
  fits b y hb0 hb2 hy := by
    rw [trailOf_push]
    rcases (c.hasContext_addContext x).mp hy with hy | ⟨rfl, -⟩
    · exact (hc.fits b y hb0 hb2 hy).mono fun _ _ hi => hi.mono (c.le_addContext x) fun _ h => h
    · rw [trailOf_of_size_le (Nat.le_of_eq hc.contexts.symm)]
      trivial
  stored := hc.stored
  rooted := hc.rooted
  globals := hc.globals
  defs p r hr := by
    rw [trailOf_push]
    exact hc.defs p r hr

theorem withPlace (now owed : List Nat) :
    Coded I G k { c with now, owed } registers blocks prologue :=
  have hle : c ≤ { c with now, owed } := le_refl c
  { hc with
    opens := hc.opens.mono fun _ _ hi => hi.mono hle fun _ h => h
    fits := fun b x hb0 hb2 hx => (hc.fits b x hb0 hb2 hx).mono fun _ _ hi =>
      hi.mono hle fun _ h => h }

end

end Coded

/-- A register that nothing has written, and that is no parameter. -/
structure Unwritten (size : Nat) (inputs : List Nat) (blocks : Table Block) (r : Nat) : Prop where
  lt : r < size
  input : r ∉ inputs
  block : ∀ b, ¬ Assigns (trailOf blocks b) r

theorem assigns_iff : Assigns l r ↔ r ∈ l.filterMap destOf := by
  simp [Assigns]

namespace Single

variable {size : Nat} {inputs : List Nat} {blocks blocks' : Table Block} {b r : Nat} {i : Instr}

section

variable (hs : Single size inputs blocks)

include hs

theorem extend {l : List Nat} (htrail : ∀ b', (trailOf blocks' b').filterMap destOf =
      (if b' = b then l else []) ++ (trailOf blocks b').filterMap destOf)
    (hnd : l.Nodup) (hl : ∀ r ∈ l, Unwritten size inputs blocks r) :
    Single size inputs blocks' := by
  have hass : ∀ {b' r}, Assigns (trailOf blocks' b') r →
      (b' = b ∧ r ∈ l) ∨ Assigns (trailOf blocks b') r := by
    intro b' r hr
    rw [assigns_iff, htrail] at hr
    rw [assigns_iff]
    split at hr
    · next heq => exact (List.mem_append.mp hr).imp_left fun h => ⟨heq, h⟩
    · exact .inr hr
  refine ⟨hs.nodup, fun b' => ?_, fun b1 b2 r h1 h2 => ?_, fun r hr => ⟨(hs.passed r hr).1, ?_⟩,
    fun b' r h => ?_⟩
  · rw [htrail]
    split
    · refine List.nodup_append.mpr ⟨hnd, hs.distinct b', fun r hr r' hr' => ?_⟩
      rintro rfl
      exact (hl r hr).block b' (assigns_iff.mpr hr')
    · exact hs.distinct b'
  · rcases hass h1 with ⟨rfl, h1⟩ | h1
    · rcases hass h2 with ⟨rfl, -⟩ | h2
      · rfl
      · exact absurd h2 ((hl r h1).block _)
    · rcases hass h2 with ⟨rfl, h2⟩ | h2
      · exact absurd h1 ((hl r h2).block _)
      · exact hs.apart b1 b2 r h1 h2
  · intro b' h
    rcases hass h with ⟨-, h⟩ | h
    · exact (hl r h).input hr
    · exact (hs.passed r hr).2 b' h
  · rcases hass h with ⟨-, h⟩ | h
    · exact (hl r h).lt
    · exact hs.below b' r h

theorem append (ha : Appends b i blocks blocks')
    (hi : ∀ r, destOf i = some r → Unwritten size inputs blocks r) : Single size inputs blocks' := by
  refine hs.extend (b := b) (l := (destOf i).toList) (fun b' => ?_) ?_ fun r hr => ?_
  · rw [ha.trail]
    split
    · next heq => cases hdest : destOf i <;> simp [heq, hdest]
    · rfl
  · cases destOf i <;> simp
  · exact hi r (Option.mem_toList.mp hr)

theorem congr
    (htrail : ∀ b, (trailOf blocks' b).filterMap destOf = (trailOf blocks b).filterMap destOf) :
    Single size inputs blocks' :=
  hs.extend (b := 0) (l := []) (fun b => by simp [htrail]) List.nodup_nil nofun

theorem mono {size' : Nat} (hle : size ≤ size') : Single size' inputs blocks :=
  ⟨hs.nodup, hs.distinct, hs.apart, fun r hr => ⟨(hs.passed r hr).1.trans_le hle, (hs.passed r hr).2⟩,
    fun b r hr => (hs.below b r hr).trans_le hle⟩

end

theorem push (hs : Single registers.size inputs blocks) (reg : Register) :
    Single (registers.push reg).size inputs blocks := by
  rw [Table.size_push]
  exact hs.mono (Nat.le_succ _)

theorem unwritten (hs : Single registers.size inputs blocks) (reg : Register) :
    Unwritten (registers.push reg).size inputs blocks registers.size := by
  rw [Table.size_push]
  exact ⟨Nat.lt_succ_self _, fun h => Nat.lt_irrefl _ (hs.passed _ h).1,
    fun b h => Nat.lt_irrefl _ (hs.below b _ h)⟩

theorem addInput (hs : Single size inputs blocks) (hr : Unwritten size inputs blocks r) :
    Single size (inputs ++ [r]) blocks := by
  refine ⟨?_, hs.distinct, hs.apart, fun r' hr' => ?_, hs.below⟩
  · refine List.nodup_append.mpr ⟨hs.nodup, List.nodup_singleton _, fun r' hr' r'' hr'' => ?_⟩
    rintro rfl
    exact hr.input (List.mem_singleton.mp hr'' ▸ hr')
  · rcases List.mem_append.mp hr' with hr' | hr'
    · exact hs.passed r' hr'
    · rw [List.mem_singleton.mp hr']
      exact ⟨hr.lt, hr.block⟩

end Single

/-! ## Drafts -/

/-- The instructions of the current block, the last one first. -/
def Draft.trail (d : Draft) : List Instr :=
  trailOf d.blocks d.current

/-- The targets of a loop are blocks that are entered with as many regions open as the loop. -/
structure LoopTargets.Within (l : LoopTargets) (c : Cert) (depth : Nat) : Prop where
  leave : c.Leads c.now l.tryDepth l.leave
  next : c.Leads c.now l.tryDepth l.next
  depth : l.tryDepth ≤ depth

theorem LoopTargets.Within.mono {l : LoopTargets} (hl : l.Within c depth) (hle : c ≤ c')
    (hnow : c.now ⊆ c'.now) : l.Within c' depth :=
  ⟨hl.leave.mono hle hnow, hl.next.mono hle hnow, hl.depth⟩

/-- A draft whose instructions fit a certificate. Blocks that were left are complete, or they are
empty and either still to be written or dead. -/
structure Draft.Written (I : Interface) (G : List String) (k : Convention) (c : Cert)
    (d : Draft) : Prop extends Coded I G k c d.registers d.blocks (trailOf d.blocks 0) where
  named : k.Names I d.symbol
  parameters : d.parameters = c.inputs
  main : k = .main → d.result = .i32 ∧ d.resultSlot = none
  inner : k ≠ .main → d.result = .value ∧ d.resultSlot = some 0
  layout : d.prologue = 0 ∧ d.body = 1 ∧ d.exit = 2
  room : 3 ≤ d.blocks.size
  exit : trailOf d.blocks 2 = []
  current : d.current ≠ 0 ∧ d.current ≠ 2
  idle : ∀ b, b ≠ 0 → b ≠ 2 → b ≠ d.current → Ended (trailOf d.blocks b) = false →
    trailOf d.blocks b = [] ∧ (b < d.blocks.size → b ∈ c.owed ∨ c.IsDead b)
  loops : ∀ l ∈ d.loops, l.Within c d.tryDepth
  roots : (pushes (trailOf d.blocks 0)).length = d.rootCount + k.registered G
  single : Single d.registers.size d.parameters d.blocks

/-- A register that a draft has not written, and that is no parameter. -/
abbrev Draft.Unwritten (d : Draft) (r : Nat) : Prop :=
  Ir.Unwritten d.registers.size d.parameters d.blocks r

/-- Writing goes on with `n` regions open. -/
def Draft.Stands (c : Cert) (d : Draft) (n : Nat) : Prop :=
  ∃ x, c.HasContext d.current x ∧ c.now ⊆ d.current :: x.after ∧
    (Ended d.trail = false → Steady d.trail ∧ triesAfter x.tries d.trail = n)

/-- A draft that fits a certificate, at a place where `n` regions are open. -/
structure Draft.Sound (I : Interface) (G : List String) (k : Convention) (n : Nat) (c : Cert)
    (d : Draft) : Prop extends d.Written I G k c where
  stands : d.Stands c n

/-- What later drafts keep of a draft. -/
structure Draft.Follows (c : Cert) (d : Draft) (c' : Cert) (d' : Draft) : Prop where
  le : c ≤ c'
  symbol : d'.symbol = d.symbol
  tryDepth : d'.tryDepth = d.tryDepth
  loops : d'.loops = d.loops
  grows : ∀ b, trailOf d.blocks b <:+ trailOf d'.blocks b

/-- Writing goes on in the same block, and the blocks `new` were reserved. -/
structure Draft.Continues (c : Cert) (d : Draft) (new : List Nat) (c' : Cert)
    (d' : Draft) : Prop extends Draft.Follows c d c' d' where
  current : d'.current = d.current
  now : c'.now = c.now
  owed : c'.owed = new ++ c.owed

/-- Nothing is written in the current block, and no way leads to it. -/
def Draft.Left (c : Cert) (d : Draft) : Prop :=
  d.trail = [] ∧ c.IsDead d.current

/-- A register is written wherever writing goes on. -/
def Draft.Knows (c : Cert) (d : Draft) (r : Nat) : Prop :=
  ∃ x, c.HasContext d.current x ∧ c.Knows x d.trail r

/-- A register holds something of a role wherever writing goes on. -/
def Draft.Holds (c : Cert) (d : Draft) (r : Nat) (ρ : Role) : Prop :=
  c.HasRole r ρ ∧ d.Knows c r

/-- What an operand gives wherever writing goes on. -/
def Draft.Gives (I : Interface) (c : Cert) (d : Draft) (t : Typed) (ρ : Role) : Prop :=
  c.Gives I (d.Knows c) t ρ

namespace Draft

variable {d d' d'' : Draft} {c'' : Cert} {i : Instr} {b m r : Nat} {x : Context} {ρ : Role}

theorem Follows.refl (c : Cert) (d : Draft) : Follows c d c d :=
  ⟨le_refl c, rfl, rfl, rfl, fun _ => List.suffix_refl _⟩

theorem Follows.trans (h1 : Follows c d c' d') (h2 : Follows c' d' c'' d'') :
    Follows c d c'' d'' :=
  ⟨h1.le.trans h2.le, h2.symbol.trans h1.symbol, h2.tryDepth.trans h1.tryDepth,
    h2.loops.trans h1.loops, fun b => (h1.grows b).trans (h2.grows b)⟩

namespace Continues

variable {new new' : List Nat}

theorem refl (c : Cert) (d : Draft) : Continues c d [] c d :=
  ⟨.refl c d, rfl, rfl, rfl⟩

theorem trans (h1 : Continues c d new c' d') (h2 : Continues c' d' new' c'' d'') :
    Continues c d (new' ++ new) c'' d'' :=
  ⟨h1.toFollows.trans h2.toFollows, h2.current.trans h1.current, h2.now.trans h1.now, by
    rw [h2.owed, h1.owed, List.append_assoc]⟩

theorem trail (h : Continues c d new c' d') : d.trail <:+ d'.trail := by
  unfold Draft.trail
  rw [h.current]
  exact h.grows d.current

end Continues

theorem Knows.mono (hr : d.Knows c r) (hle : c ≤ c') (hcur : d'.current = d.current)
    (htrail : d.trail <:+ d'.trail) : d'.Knows c' r := by
  obtain ⟨x, hx, hr⟩ := hr
  exact ⟨x, hcur ▸ hx.mono hle, hr.mono hle htrail.subset⟩

theorem Holds.mono (hr : d.Holds c r ρ) (h : Continues c d new c' d') : d'.Holds c' r ρ :=
  ⟨hr.1.mono h.le, hr.2.mono h.le h.current h.trail⟩

theorem Holds.gives (hr : d.Holds c r ρ) : d.Gives I c ⟨ρ.ty, .reg r⟩ ρ :=
  .reg rfl hr.1 hr.2

theorem Gives.mono (ht : d.Gives I c t ρ) (h : Continues c d new c' d') : d'.Gives I c' t ρ :=
  Cert.Gives.mono ht h.le fun _ hr => hr.mono h.le h.current h.trail

theorem Knows.at (hr : d.Knows c r) (hx : c.HasContext d.current x) (hle : c ≤ c') :
    c'.Knows x d.trail r := by
  obtain ⟨y, hy, hr⟩ := hr
  obtain rfl := hx.unique hy
  exact hr.mono hle (List.Subset.refl _)

theorem Gives.at (ht : d.Gives I c t ρ) (hx : c.HasContext d.current x) (hle : c ≤ c') :
    c'.Gives I (c'.Knows x d.trail) t ρ :=
  Cert.Gives.mono ht hle fun _ hr => hr.at hx hle

theorem Stands.mono (hs : d.Stands c n) (hle : c ≤ c') (hnow : c'.now = c.now)
    (hcur : d'.current = d.current) (htrail : d'.trail = d.trail) : d'.Stands c' n := by
  obtain ⟨x, hx, hbeh, h⟩ := hs
  refine ⟨x, hcur ▸ hx.mono hle, hnow ▸ hcur ▸ hbeh, ?_⟩
  rw [htrail]
  exact h

theorem Stands.open (hs : d.Stands c n) (hopen : Ended d.trail = false)
    (hx : c.HasContext d.current x) : Steady d.trail ∧ triesAfter x.tries d.trail = n := by
  obtain ⟨y, hy, -, h⟩ := hs
  obtain rfl := hx.unique hy
  exact h hopen

theorem Stands.leads (hs : d.Stands c n) (hx : c.HasContext d.current x)
    (hb : c.Leads (d.current :: c.now) m b) : c.Leads (d.current :: x.after) m b := by
  obtain ⟨y, hy, hbeh, -⟩ := hs
  obtain rfl := hx.unique hy
  refine hb.mono (le_refl c) fun p hp => ?_
  rcases List.mem_cons.mp hp with rfl | hp
  · exact .head _
  · exact hbeh hp

theorem yields_append (b : Nat) (i : Instr) (d : Draft) :
    Yields (append b i) d fun _ d' =>
      ∃ blocks, d' = { d with blocks } ∧ Appends b i d.blocks blocks := by
  refine .get_bind ?_
  split
  · exact .throw
  · next blk hblk =>
    split
    · next blocks hset => exact .set ⟨blocks, rfl, appends_set hblk hset⟩
    · exact .throw

theorem yields_pushRaw (i : Instr) (d : Draft) :
    Yields (push i) d fun _ d' => Ended d.trail = false ∧
      ∃ blocks, d' = { d with blocks } ∧ Appends d.current i d.blocks blocks := by
  refine .get_bind ?_
  split
  · exact .throw
  · next blk hblk =>
    split
    · exact .throw
    · next hopen =>
      refine (yields_append d.current i d).mono fun _ d' h => ⟨?_, h⟩
      rw [isTerminated_eq] at hopen
      simpa [trail, trailOf, hblk] using hopen

theorem trail_appends (ha : Appends d.current i d.blocks blocks) :
    trail { d with blocks } = i :: d.trail := by
  unfold trail
  rw [ha.trail, if_pos rfl]

theorem Follows.appends (ha : Appends b i d.blocks blocks) : Follows c d c { d with blocks } :=
  ⟨le_refl c, rfl, rfl, rfl, ha.suffix⟩

theorem Written.append (hw : d.Written I G k c) (ha : Appends d.current i d.blocks blocks)
    (hfits : ∀ x, c.HasContext d.current x → Fits I G k c d.current x d.trail i)
    (hdest : ∀ r, destOf i = some r → d.Unwritten r) : Written I G k c { d with blocks } := by
  have h0 : trailOf blocks 0 = trailOf d.blocks 0 := by
    rw [ha.trail, if_neg (Ne.symm hw.current.1)]
  have hcoded : Coded I G k c d.registers blocks (trailOf blocks 0) :=
    h0.symm ▸ hw.toCoded.append ha hfits
  refine { hw with toCoded := hcoded, room := ?_, exit := ?_, idle := ?_, roots := ?_,
                   single := hw.single.append ha hdest }
  · exact ha.size ▸ hw.room
  · show trailOf blocks 2 = []
    rw [ha.trail, if_neg (Ne.symm hw.current.2)]
    exact hw.exit
  · intro b hb0 hb2 hb
    show Ended (trailOf blocks b) = false → trailOf blocks b = [] ∧ (b < blocks.size → _)
    rw [ha.trail, if_neg hb, ha.size]
    exact hw.idle b hb0 hb2 hb
  · show (pushes (trailOf blocks 0)).length = _
    rw [h0]
    exact hw.roots

/-- A step that writes to the current block: the later draft fits a certificate, and its current
block has got some instructions more. -/
structure Extends (I : Interface) (G : List String) (k : Convention) (c : Cert) (d : Draft)
    (added : List Instr) (c' : Cert) (d' : Draft) : Prop where
  written : d'.Written I G k c'
  follows : Follows c d c' d'
  current : d'.current = d.current
  trail : d'.trail = added ++ d.trail
  now : c'.now = c.now

/-- Such a step that leaves no region half open and creates no block. -/
structure Writes (I : Interface) (G : List String) (k : Convention) (n : Nat) (c : Cert)
    (d : Draft) (added : List Instr) (c' : Cert) (d' : Draft) : Prop
    extends Extends I G k c d added c' d' where
  stands : d'.Stands c' n
  owed : c'.owed = c.owed

theorem Extends.trans (h1 : Extends I G k c d l c' d') (h2 : Extends I G k c' d' l' c'' d'') :
    Extends I G k c d (l' ++ l) c'' d'' :=
  ⟨h2.written, h1.follows.trans h2.follows, h2.current.trans h1.current, by
    rw [h2.trail, h1.trail, List.append_assoc], h2.now.trans h1.now⟩

namespace Writes

variable {l l' : List Instr}

theorem sound (h : Writes I G k n c d l c' d') : d'.Sound I G k n c' :=
  ⟨h.written, h.stands⟩

theorem continues (h : Writes I G k n c d l c' d') : Continues c d [] c' d' :=
  ⟨h.follows, h.current, h.now, h.owed⟩

theorem refl (hs : d.Sound I G k n c) : Writes I G k n c d [] c d :=
  ⟨⟨hs.toWritten, .refl c d, rfl, rfl, rfl⟩, hs.stands, rfl⟩

theorem trans (h1 : Writes I G k n c d l c' d') (h2 : Writes I G k m c' d' l' c'' d'') :
    Writes I G k m c d (l' ++ l) c'' d'' :=
  ⟨h1.toExtends.trans h2.toExtends, h2.stands, h2.owed.trans h1.owed⟩

end Writes

theorem extends_push (hw : d.Written I G k c) (hdest : ∀ r, destOf i = some r → d.Unwritten r)
    (hfits : Ended d.trail = false → ∀ x, c.HasContext d.current x →
      Fits I G k c d.current x d.trail i) :
    Yields (push i) d fun _ d' => Extends I G k c d [i] c d' ∧ Ended d.trail = false := by
  refine (yields_pushRaw i d).mono ?_
  rintro _ _ ⟨hopen, blocks, rfl, ha⟩
  exact ⟨⟨hw.append ha (hfits hopen) hdest, .appends ha, rfl, trail_appends ha, rfl⟩, hopen⟩

theorem triesAfter_cons (m : Nat) (i : Instr) (before : List Instr) :
    triesAfter m (i :: before) = i.tries (triesAfter m before) :=
  rfl

theorem yields_pushCalm (hs : d.Sound I G k n c) (hcalm : i.isCalm)
    (hdest : ∀ r, destOf i = some r → d.Unwritten r)
    (hfits : ∀ x, c.HasContext d.current x → Steady d.trail → triesAfter x.tries d.trail = n →
      Fits I G k c d.current x d.trail i) :
    Yields (push i) d fun _ d' => Writes I G k n c d [i] c d' := by
  refine (extends_push hs.toWritten hdest fun hopen x hx => ?_).mono fun _ d' h => ⟨h.1, ?_, rfl⟩
  · obtain ⟨hstdy, hdep⟩ := hs.stands.open hopen hx
    exact hfits x hx hstdy hdep
  · obtain ⟨h, hopen⟩ := h
    obtain ⟨x, hx, hbeh, hstd⟩ := hs.stands
    obtain ⟨hstdy, hdep⟩ := hstd hopen
    refine ⟨x, h.current ▸ hx, h.current ▸ hbeh, fun _ => ?_⟩
    rw [h.trail, List.singleton_append, triesAfter_cons, Instr.tries_of_isCalm hcalm]
    exact ⟨hstdy.cons hcalm, hdep⟩

theorem hasRole_size (hw : d.Written I G k c) (ρ : Role) :
    (c.addRole ρ).HasRole d.registers.size ρ := by
  rw [← hw.roles]
  exact (c.hasRole_addRole ρ).mpr (.inr ⟨rfl, rfl⟩)

theorem extends_register (hw : d.Written I G k c) (ρ : Role) (hρ : ρ.isStorage = false)
    (hty : ty = ρ.ty) :
    Yields (register ty name) d fun r d' =>
      Extends I G k c d [] (c.addRole ρ) d' ∧ (c.addRole ρ).HasRole r ρ ∧ d'.Unwritten r := by
  refine .modifyGet ⟨⟨?_, ?_, rfl, rfl, rfl⟩, hasRole_size hw ρ, hw.single.unwritten _⟩
  · have hloops : ∀ l ∈ d.loops, l.Within (c.addRole ρ) d.tryDepth :=
      fun l hl => (hw.loops l hl).mono (c.le_addRole ρ) fun _ h => h
    exact { hw with toCoded := hw.toCoded.addRole ⟨ty, name⟩ hρ hty, loops := hloops,
                    single := hw.single.push _ }
  · exact ⟨c.le_addRole ρ, rfl, rfl, rfl, fun _ => List.suffix_refl _⟩

theorem Writes.assigns (h : Writes I G k n c d l c' d') (hj : j ∈ l) (hdest : destOf j = some r) :
    Assigns d'.trail r := by
  refine ⟨j, ?_, hdest⟩
  rw [h.trail]
  exact List.mem_append_left _ hj

theorem holds_of_trail (h : Writes I G k n c d l c' d') (hj : j ∈ l) (hdest : destOf j = some r)
    (hr : c'.HasRole r ρ) : d'.Holds c' r ρ := by
  obtain ⟨x, hx, -⟩ := h.stands
  exact ⟨hr, x, hx, .inr (.inr (.inl (h.assigns hj hdest)))⟩

theorem yields_fresh (hs : d.Sound I G k n c) {ty : Ty} {name : Option String} {ρ : Role}
    {make : Nat → Instr} (hρ : ρ.isStorage = false) (hty : ty = ρ.ty)
    (hcalm : ∀ r, (make r).isCalm) (hdest : ∀ r, destOf (make r) = some r)
    (hfits : ∀ r c', c ≤ c' → c'.HasRole r ρ → ∀ x, c.HasContext d.current x → Steady d.trail →
      triesAfter x.tries d.trail = n → Fits I G k c' d.current x d.trail (make r)) :
    Yields (do let r ← register ty name; push (make r); return r) d fun r d' =>
      ∃ c', Writes I G k n c d [make r] c' d' ∧ d'.Holds c' r ρ := by
  refine (extends_register hs.toWritten ρ hρ hty).bind ?_
  rintro r d1 ⟨h1, hr, hfresh⟩
  have hunwritten : ∀ r', destOf (make r) = some r' → d1.Unwritten r' := by
    intro r' hr'
    rw [hdest] at hr'
    exact Option.some.inj hr' ▸ hfresh
  have hw1 : Writes I G k n c d [] (c.addRole ρ) d1 :=
    ⟨h1, hs.stands.mono (c.le_addRole ρ) rfl h1.current h1.trail, rfl⟩
  refine (yields_pushCalm hw1.sound (hcalm r) hunwritten fun x hx hstdy hdep => ?_).bind fun _ d2 h2 =>
    .pure ⟨_, hw1.trans h2, holds_of_trail h2 (.head _) (hdest r) hr⟩
  rw [h1.trail] at hstdy hdep ⊢
  rw [h1.current] at hx ⊢
  exact hfits r _ (c.le_addRole ρ) hr x hx hstdy hdep

/-! ## Calls and other instructions -/

theorem isStorage_role (ty : Ty) : ty.role.isStorage = false := by
  cases ty <;> rfl

theorem call_eq (callee : Callee) (arguments : List Typed) :
    call callee arguments =
      (if callee.result = .void then pure none else some <$> register callee.result) >>= fun dest =>
        do push (.call dest callee.result callee arguments); return dest := by
  unfold call
  split <;> rfl

theorem callFor_eq (hres : callee.result ≠ .void) (arguments : List Typed) :
    callFor callee arguments = do
      let r ← register callee.result
      push (.call (some r) callee.result callee arguments)
      return r := by
  unfold callFor
  rw [call_eq, if_neg hres, map_eq_pure_bind]
  simp only [bind_assoc, pure_bind]

theorem callVoid_eq (hres : callee.result = .void) (arguments : List Typed) :
    callVoid callee arguments = push (.call none .void callee arguments) := by
  unfold callVoid
  rw [call_eq, if_pos hres, hres]
  simp only [bind_assoc, pure_bind]
  exact bind_pure _

section

variable (hs : d.Sound I G k n c)

include hs

theorem yields_callFor {callee : Callee} {arguments : List Typed} (hres : callee.result ≠ .void)
    (hcalm : ∀ dest, (Instr.call dest callee.result callee arguments).isCalm)
    (hfits : ∀ r c', c ≤ c' → c'.HasRole r callee.result.role → ∀ x, c.HasContext d.current x →
      Steady d.trail → triesAfter x.tries d.trail = n →
      Fits I G k c' d.current x d.trail (.call (some r) callee.result callee arguments)) :
    Yields (callFor callee arguments) d fun r d' => ∃ c',
      Writes I G k n c d [.call (some r) callee.result callee arguments] c' d' ∧
        d'.Holds c' r callee.result.role := by
  rw [callFor_eq hres]
  exact yields_fresh hs (isStorage_role _) (Ty.ty_role hres).symm (fun r => hcalm (some r))
    (fun _ => rfl) hfits

theorem yields_callVoid {callee : Callee} {arguments : List Typed}
    (hres : callee.result = .void) (hcalm : (Instr.call none .void callee arguments).isCalm)
    (hfits : ∀ x, c.HasContext d.current x → Steady d.trail → triesAfter x.tries d.trail = n →
      Fits I G k c d.current x d.trail (.call none .void callee arguments)) :
    Yields (callVoid callee arguments) d fun _ d' =>
      Writes I G k n c d [.call none .void callee arguments] c d' := by
  rw [callVoid_eq hres]
  exact yields_pushCalm hs hcalm nofun hfits

theorem yields_store (hr : d.Holds c r .value) (ho : c.Keeps G o) :
    Yields (store (.value r) o) d fun _ d' => Writes I G k n c d [.store (.value r) o] c d' :=
  yields_pushCalm hs rfl nofun fun _ hx hstdy _ =>
    .store hstdy (Gives.at hr.gives hx (le_refl c)) ho

theorem yields_storeEntry (hr : d.Holds c r .value) (hcell : d.Holds c s .entry) :
    Yields (store (.value r) (.reg s)) d fun _ d' =>
      Writes I G k n c d [.store (.value r) (.reg s)] c d' :=
  yields_pushCalm hs rfl nofun fun _ hx hstdy _ =>
    .storeEntry hstdy (Gives.at hr.gives hx (le_refl c)) hcell.1 (hcell.2.at hx (le_refl c))

theorem yields_storeCell (ht : d.Gives I c t (.int .full)) (hcell : c.HasRole s .cell) :
    Yields (store t (.reg s)) d fun _ d' => Writes I G k n c d [.store t (.reg s)] c d' :=
  yields_pushCalm hs rfl nofun fun _ hx hstdy _ => .storeCell hstdy (ht.at hx (le_refl c)) hcell

theorem yields_load (ho : c.Keeps G o) :
    Yields (load .value o) d fun r d' => ∃ c',
      Writes I G k n c d [.load r .value o] c' d' ∧ d'.Holds c' r .value :=
  yields_fresh hs rfl rfl (fun _ => rfl) (fun _ => rfl) fun _ _ hle hr _ _ hstdy _ =>
    .load hstdy hr (ho.mono hle fun _ h => h)

theorem yields_loadArgument {slot : Nat} (hslot : d.Holds c slot .argument)
    (hfst : d.current = 1) (hq : ∀ i ∈ d.trail, i.isQuiet) :
    Yields (load .value (.reg slot)) d fun r d' => ∃ c',
      Writes I G k n c d [.load r .value (.reg slot)] c' d' ∧ d'.Holds c' r .value :=
  yields_fresh hs rfl rfl (fun _ => rfl) (fun _ => rfl) fun _ _ hle hr _ hx _ _ =>
    .loadArgument hfst hq hr (hslot.1.mono hle) (hslot.2.at hx hle)

theorem yields_elementOfBuffer (hbase : c.HasRole base (.buffer size)) (hidx : index < size) :
    Yields (element base index) d fun r d' => ∃ c',
      Writes I G k n c d [.element r .value (.reg base) (.i64 (Int64.ofNat index))] c' d' ∧
        d'.Holds c' r .entry :=
  yields_fresh hs rfl rfl (fun _ => rfl) (fun _ => rfl) fun _ _ hle hr _ _ hstdy _ =>
    .entry hstdy hr (hbase.mono hle) hidx

theorem yields_elementOfArguments
    (hbase : c.HasRole base (.arguments size)) (hinput : base ∈ c.inputs) (hidx : index < size) :
    Yields (element base index) d fun r d' => ∃ c',
      Writes I G k n c d [.element r .value (.reg base) (.i64 (Int64.ofNat index))] c' d' ∧
        d'.Holds c' r .argument :=
  yields_fresh hs rfl rfl (fun _ => rfl) (fun _ => rfl) fun _ _ hle hr _ _ hstdy _ =>
    .argument hstdy hr (hbase.mono hle) (hle.2.2.1.subset hinput) hidx

theorem yields_int {ty : Ty} {make : Nat → Instr} {width : Width}
    (hty : ty = width.ty) (hcalm : ∀ r, (make r).isCalm) (hdest : ∀ r, destOf (make r) = some r)
    (hfits : ∀ r c', c ≤ c' → c'.HasRole r (.int width) → ∀ x, c.HasContext d.current x →
      Steady d.trail → Fits I G k c' d.current x d.trail (make r)) :
    Yields (do let r ← register ty; push (make r); return r) d fun r d' =>
      ∃ c', Writes I G k n c d [make r] c' d' ∧ d'.Holds c' r (.int width) :=
  yields_fresh hs rfl hty hcalm hdest fun r c' hle hr x hx hstdy _ =>
    hfits r c' hle hr x hx hstdy

theorem yields_compare (predicate : Predicate) {lhs : Typed}
    (hlhs : d.Gives I c lhs (.int width)) (hrhs : d.Gives I c ⟨width.ty, rhs⟩ (.int width)) :
    Yields (compare predicate lhs rhs) d fun r d' =>
      ∃ c', Writes I G k n c d [.compare r predicate lhs rhs] c' d' ∧ d'.Holds c' r (.int .bit) :=
  yields_int hs rfl (fun _ => rfl) (fun _ => rfl) fun _ _ hle hr _ hx hstdy =>
    .compare hstdy hr (hlhs.at hx hle) (hrhs.at hx hle)

theorem yields_arith (op : IntOp) {lhs : Nat}
    (hlhs : d.Holds c lhs (.int .full)) (hrhs : d.Gives I c ⟨.i64, rhs⟩ (.int .full)) :
    Yields (arith op lhs rhs) d fun r d' =>
      ∃ c', Writes I G k n c d [.arith r op ⟨.i64, .reg lhs⟩ rhs] c' d' ∧
        d'.Holds c' r (.int .full) :=
  yields_int hs rfl (fun _ => rfl) (fun _ => rfl) fun _ _ hle hr _ hx hstdy =>
    .arith hstdy hr (Gives.at hlhs.gives hx hle) (hrhs.at hx hle)

theorem yields_count {counter : Nat} (hcounter : c.HasRole counter .cell) :
    Yields (count counter) d fun r d' =>
      ∃ c', Writes I G k n c d [.load r .i64 (.reg counter)] c' d' ∧ d'.Holds c' r (.int .full) :=
  yields_int hs rfl (fun _ => rfl) (fun _ => rfl) fun _ _ hle hr _ _ hstdy =>
    .loadCell hstdy hr (hcounter.mono hle)

end

end Draft

/-! ## Blocks -/

namespace Cert

/-- A certificate in which a block is no longer to be written. -/
def settle (c : Cert) (b : Nat) : Cert :=
  { c with owed := c.owed.filter (· ≠ b) }

/-- A certificate that says of a block that it writes a register. -/
def note (c : Cert) (b r : Nat) : Cert :=
  { c with defs := (b, r) :: c.defs }

theorem le_note (c : Cert) (b r : Nat) : c ≤ c.note b r :=
  ⟨List.prefix_refl _, List.prefix_refl _, List.prefix_refl _, List.subset_cons_self ..⟩

/-- A block that is to be entered with `n` regions open. The blocks `more` will be behind, and those
that are behind now. -/
def Reserves (c : Cert) (more : List Nat) (n b : Nat) : Prop :=
  3 ≤ b ∧ c.HasContext b ⟨n, more ++ c.now, true⟩

theorem Reserves.mono (hb : c.Reserves more n b) (hle : c ≤ c') (hnow : c'.now = c.now) :
    c'.Reserves more n b :=
  ⟨hb.1, hnow ▸ hb.2.mono hle⟩

theorem Reserves.leads {behind : List Nat} (hb : c.Reserves more n b) (hmore : more ⊆ behind)
    (hnow : c.now ⊆ behind) : c.Leads behind n b :=
  ⟨hb.1, _, hb.2, rfl, rfl, List.append_subset.mpr ⟨hmore, hnow⟩⟩

end Cert

namespace Draft

variable {d d' d'' : Draft} {c'' : Cert} {i : Instr} {b m r : Nat} {x : Context} {ρ : Role}

theorem Written.addBlock (hw : d.Written I G k c) (label : String) (x : Context) {owed : List Nat}
    (hsubset : c.owed ⊆ owed) (hnew : c.contexts.length ∈ owed ∨ x.live = false) :
    Written I G k { c.addContext x with owed } { d with blocks := d.blocks.push { label } } := by
  have h0 : trailOf (d.blocks.push { label }) 0 = trailOf d.blocks 0 := trailOf_push ..
  have hcoded := (hw.toCoded.addContext label x).withPlace c.now owed
  rw [← h0] at hcoded
  have hle : c ≤ { c.addContext x with owed } := c.le_addContext x
  refine { hw with toCoded := hcoded, room := ?_, exit := ?_, idle := ?_, loops := ?_, roots := ?_,
                   single := hw.single.congr fun b => by rw [trailOf_push] }
  · show 3 ≤ (d.blocks.push { label }).size
    rw [Table.size_push]
    exact Nat.le_succ_of_le hw.room
  · show trailOf (d.blocks.push { label }) 2 = []
    rw [trailOf_push]
    exact hw.exit
  · intro b hb0 hb2 hb hopen
    have hopen : Ended (trailOf (d.blocks.push { label }) b) = false := hopen
    rw [trailOf_push] at hopen
    obtain ⟨hempty, howed⟩ := hw.idle b hb0 hb2 hb hopen
    refine ⟨(trailOf_push ..).trans hempty, fun hlt => ?_⟩
    have hlt : b < (d.blocks.push { label }).size := hlt
    rw [Table.size_push] at hlt
    rcases Nat.lt_succ_iff_lt_or_eq.mp hlt with hlt | rfl
    · exact (howed hlt).imp (hsubset ·) fun h => h.mono hle
    · rw [← hw.contexts]
      refine hnew.imp id fun h => ⟨x, ?_, h⟩
      exact (c.hasContext_addContext x).mpr (.inr ⟨rfl, rfl⟩)
  · exact fun l hl => (hw.loops l hl).mono hle fun _ h => h
  · show (pushes (trailOf (d.blocks.push { label }) 0)).length = _
    rw [h0]
    exact hw.roots

theorem Follows.addBlock (c : Cert) (d : Draft) (label : String) (x : Context)
    (owed : List Nat) :
    Follows c d { c.addContext x with owed } { d with blocks := d.blocks.push { label } } :=
  ⟨c.le_addContext x, rfl, rfl, rfl, fun b => by rw [trailOf_push]⟩

theorem hasContext_size (hw : d.Written I G k c) (x : Context) :
    (c.addContext x).HasContext d.blocks.size x := by
  rw [← hw.contexts]
  exact (c.hasContext_addContext x).mpr (.inr ⟨rfl, rfl⟩)

theorem extends_block (hw : d.Written I G k c) (label : String) (m : Nat) (more : List Nat) :
    Yields (block label) d fun b d' => ∃ c', Extends I G k c d [] c' d' ∧
      c'.Reserves more m b ∧ c'.owed = b :: c.owed := by
  refine .modifyGet ⟨{ c.addContext ⟨m, more ++ c.now, true⟩ with owed := d.blocks.size :: c.owed },
    ⟨?_, .addBlock c d label _ _, rfl, trailOf_push d.blocks label _, rfl⟩,
    ⟨hw.room, hasContext_size hw _⟩, rfl⟩
  refine hw.addBlock label _ (List.subset_cons_self ..) (.inl ?_)
  rw [hw.contexts]
  exact .head _

theorem yields_block (hs : d.Sound I G k n c) (label : String) (m : Nat) (more : List Nat) :
    Yields (block label) d fun b d' => ∃ c', d'.Sound I G k n c' ∧ Continues c d [b] c' d' ∧
      c'.Reserves more m b := by
  refine (extends_block hs.toWritten label m more).mono ?_
  rintro b d' ⟨c', h, hb, howed⟩
  exact ⟨c', ⟨h.written, hs.stands.mono h.follows.le h.now h.current h.trail⟩,
    ⟨h.follows, h.current, h.now, howed⟩, hb⟩

theorem Written.moveTo (hw : d.Written I G k c) (hleft : d.Left c) (hb : c.Reserves more m b) :
    Sound I G k m (c.settle b) { d with current := b } := by
  have hcur : b ≠ 0 ∧ b ≠ 2 := by
    have := hb.1
    omega
  have hcoded := hw.toCoded.withPlace c.now (c.owed.filter (· ≠ b))
  have hloops : ∀ l ∈ d.loops, l.Within (c.settle b) d.tryDepth :=
    fun l hl => (hw.loops l hl).mono (le_refl c) fun _ h => h
  refine ⟨{ hw with toCoded := hcoded, current := hcur, loops := hloops, idle := ?_ }, _, hb.2, ?_,
    fun hopen => ?_⟩
  · intro b' hb0 hb2 hne hopen
    by_cases hb' : b' = d.current
    · subst hb'
      exact ⟨hleft.1, fun _ => .inr hleft.2⟩
    · obtain ⟨hempty, howed⟩ := hw.idle b' hb0 hb2 hb' hopen
      refine ⟨hempty, fun hlt => (howed hlt).imp (fun hmem => ?_) id⟩
      exact List.mem_filter.mpr ⟨hmem, by simpa using hne⟩
  · show c.now ⊆ b :: (more ++ c.now)
    exact List.Subset.trans (List.subset_append_right ..) (List.subset_cons_self ..)
  · have htrail : trailOf d.blocks b = [] := by
      by_cases hb' : b = d.current
      · exact hb' ▸ hleft.1
      · exact (hw.idle b hcur.1 hcur.2 hb' hopen).1
    show Steady (trailOf d.blocks b) ∧ triesAfter m (trailOf d.blocks b) = m
    rw [htrail]
    exact ⟨trivial, rfl⟩

theorem yields_moveTo (hs : d.Sound I G k n c) (hleft : d.Left c) (hb : c.Reserves more m b) :
    Yields (moveTo b) d fun _ d' => d'.Sound I G k m (c.settle b) ∧ Follows c d (c.settle b) d' ∧
      d'.current = b :=
  .modifyGet ⟨hs.toWritten.moveTo hleft hb, ⟨le_refl c, rfl, rfl, rfl, fun _ => List.suffix_refl _⟩,
    rfl⟩

/-- A block was left, and what follows is not reached. -/
structure Leaves (I : Interface) (G : List String) (k : Convention) (m : Nat) (c : Cert)
    (d : Draft) (c' : Cert) (d' : Draft) : Prop where
  sound : d'.Sound I G k m c'
  follows : Follows c d c' d'
  left : d'.Left c'
  now : c'.now = c.now
  owed : c'.owed = c.owed

/-- The end of a block. What follows is not reached, and may be written as if any number of regions
were open. -/
theorem yields_terminate (hw : d.Written I G k c)
    (hfits : Ended d.trail = false → ∀ x, c.HasContext d.current x →
      Fits I G k c d.current x d.trail i) (m : Nat) :
    Yields (terminate i) d fun _ d' => ∃ c', Leaves I G k m c d c' d' := by
  unfold terminate
  split
  case isFalse => exact .throw
  case isTrue hterm =>
    refine (yields_pushRaw i d).bind ?_
    rintro _ _ ⟨hopen, blocks, rfl, ha⟩
    have hdest : destOf i = none := by
      cases i <;> first | rfl | cases hterm
    have hw1 := hw.append ha (hfits hopen) fun r hr => nomatch hdest.symm.trans hr
    have htrail : trailOf blocks d.current = i :: d.trail := trail_appends ha
    have hended : Ended (trailOf blocks d.current) = true := by
      rw [htrail]
      exact hterm
    -- what is written behind a terminator goes to a block that nothing reaches
    refine (Yields.modifyGet (Q := fun b d' => b = blocks.size ∧
      d' = { d with blocks := blocks.push { label := "dead" } }) ⟨rfl, rfl⟩).bind ?_
    rintro b d' ⟨rfl, rfl⟩
    have hw2 := hw1.addBlock "dead" ⟨m, c.now, false⟩ (List.Subset.refl _) (.inr rfl)
    have hdead : (c.addContext ⟨m, c.now, false⟩).HasContext blocks.size ⟨m, c.now, false⟩ :=
      hasContext_size hw1 _
    have hnew : trailOf (blocks.push { label := "dead" }) blocks.size = [] := by
      rw [trailOf_push]
      exact trailOf_of_size_le (Nat.le_refl _)
    have hroom : 3 ≤ blocks.size := hw1.room
    have hcur : blocks.size ≠ 0 ∧ blocks.size ≠ 2 := ⟨by omega, by omega⟩
    have hfollows := (Follows.appends (c := c) ha).trans
      (.addBlock c { d with blocks } "dead" ⟨m, c.now, false⟩ c.owed)
    refine .modifyGet ⟨c.addContext ⟨m, c.now, false⟩, ⟨{ hw2 with current := hcur, idle := ?_ },
      _, hdead, List.subset_cons_self .., fun _ => ?_⟩, ⟨hfollows.le, rfl, rfl, rfl, hfollows.grows⟩,
      ⟨hnew, _, hdead, rfl⟩, rfl, rfl⟩
    · intro b hb0 hb2 _ hopen
      by_cases hb : b = d.current
      · have hopen : Ended (trailOf (blocks.push { label := "dead" }) b) = false := hopen
        rw [trailOf_push, hb, hended] at hopen
        cases hopen
      · exact hw2.idle b hb0 hb2 hb hopen
    · show Steady (trailOf _ _) ∧ triesAfter m (trailOf _ _) = m
      rw [hnew]
      exact ⟨trivial, rfl⟩

theorem yields_end (hs : d.Sound I G k n c)
    (hfits : ∀ x, c.HasContext d.current x → Steady d.trail → triesAfter x.tries d.trail = n →
      Fits I G k c d.current x d.trail i) (m : Nat) :
    Yields (terminate i) d fun _ d' => ∃ c', Leaves I G k m c d c' d' := by
  refine yields_terminate hs.toWritten (fun hopen x hx => ?_) m
  obtain ⟨hstdy, hdep⟩ := hs.stands.open hopen hx
  exact hfits x hx hstdy hdep

theorem yields_jump (hs : d.Sound I G k n c) {dest : Nat}
    (hdest : c.Leads (d.current :: c.now) n dest) (m : Nat) :
    Yields (jump dest) d fun _ d' => ∃ c', Leaves I G k m c d c' d' :=
  yields_end hs (fun _ hx hstdy hdep => .jump hstdy (hdep ▸ hs.stands.leads hx hdest)) m

theorem yields_branch (hs : d.Sound I G k n c) {condition pos neg : Nat}
    (hcond : d.Holds c condition (.int .bit)) (hpos : c.Leads (d.current :: c.now) n pos)
    (hneg : c.Leads (d.current :: c.now) n neg) (m : Nat) :
    Yields (branch condition pos neg) d fun _ d' => ∃ c', Leaves I G k m c d c' d' :=
  yields_end hs (fun _ hx hstdy hdep => .branch hstdy
    (Gives.at hcond.gives hx (le_refl c)) (hdep ▸ hs.stands.leads hx hpos)
    (hdep ▸ hs.stands.leads hx hneg)) m

theorem yields_leave (hs : d.Sound I G k 0 c)
    (hstored : k ≠ .main → ∃ r rest, d.trail = .store (.value r) (.reg 0) :: rest) (m : Nat) :
    Yields (jump 2) d fun _ d' => ∃ c', Leaves I G k m c d c' d' :=
  yields_end hs (fun _ _ hstdy hdep => .leave hstdy hdep hstored) m

section

variable (hs : d.Sound I G k n c)

include hs

theorem Sound.note (hr : Assigns d.trail r) : d.Sound I G k n (c.note d.current r) := by
  have hle := c.le_note d.current r
  refine ⟨{ hs.toWritten with opens := ?_, fits := ?_, defs := ?_, loops := ?_ }, hs.stands⟩
  · exact hs.opens.mono fun _ _ hi => hi.mono hle fun _ h => h
  · exact fun b x hb0 hb2 hx => (hs.fits b x hb0 hb2 hx).mono fun _ _ hi => hi.mono hle fun _ h => h
  · intro p r' hmem
    rcases List.mem_cons.mp hmem with heq | hmem
    · cases heq
      exact ⟨hs.current.1, hs.current.2, hr⟩
    · exact hs.defs p r' hmem
  · exact fun l hl => (hs.loops l hl).mono hle fun _ h => h

theorem Sound.remember : d.Sound I G k n { c with now := d.current :: c.now } := by
  have hcoded := hs.toCoded.withPlace (d.current :: c.now) c.owed
  obtain ⟨x, hx, hbeh, hstd⟩ := hs.stands
  refine ⟨{ hs.toWritten with toCoded := hcoded, loops := ?_ }, x, hx, ?_, hstd⟩
  · exact fun l hl => (hs.loops l hl).mono (le_refl c) (List.subset_cons_self ..)
  · exact List.cons_subset.mpr ⟨.head _, hbeh⟩

theorem Sound.forget {now : List Nat} (hnow : now ⊆ c.now)
    (hloops : ∀ l ∈ d.loops, l.Within { c with now } d.tryDepth) :
    d.Sound I G k n { c with now } := by
  have hcoded := hs.toCoded.withPlace now c.owed
  obtain ⟨x, hx, hbeh, hstd⟩ := hs.stands
  exact ⟨{ hs.toWritten with toCoded := hcoded, loops := hloops }, x, hx,
    List.Subset.trans hnow hbeh, hstd⟩

theorem Sound.knows {p : Nat} (hp : p ∈ c.now) (hdef : (p, r) ∈ c.defs) : d.Knows c r := by
  obtain ⟨x, hx, hbeh, -⟩ := hs.stands
  refine ⟨x, hx, ?_⟩
  rcases List.mem_cons.mp (hbeh hp) with rfl | hp
  · exact .inr (.inr (.inl (hs.defs _ _ hdef).2.2))
  · exact .inr (.inr (.inr ⟨p, hp, hdef⟩))

/-! ## Storage of the frame -/

theorem writes_prologue {G' : List String} {rootCount : Nat} (hle : c ≤ c')
    (hins : c'.inputs = c.inputs) (hnow : c'.now = c.now) (howed : c'.owed = c.owed)
    (hp : Prefaces added d.blocks blocks)
    (hcoded : Coded I G' k c' registers blocks (added ++ trailOf d.blocks 0))
    (hrts : (pushes added).length + (d.rootCount + k.registered G) = rootCount + k.registered G')
    (hsingle : Single registers.size d.parameters d.blocks)
    (hnd : (added.filterMap destOf).Nodup)
    (hadded : ∀ r ∈ added.filterMap destOf, Ir.Unwritten registers.size d.parameters d.blocks r) :
    Writes I G' k n c d [] c' { d with registers, blocks, rootCount } := by
  -- only block 0 grows, and it is not the block that is being written
  have hcur : trailOf blocks d.current = trailOf d.blocks d.current := hp.rest _ hs.current.1
  refine ⟨⟨?_, ⟨hle, rfl, rfl, rfl, fun b => ?_⟩, rfl, hcur, hnow⟩,
    hs.stands.mono hle hnow rfl hcur, howed⟩
  · refine { hs.toWritten with toCoded := hp.first.symm ▸ hcoded, parameters := ?_, room := ?_, exit := ?_,
                               idle := ?_, loops := ?_, roots := ?_, single := ?_ }
    · exact hs.parameters.trans hins.symm
    · exact hp.size ▸ hs.room
    · exact (hp.rest 2 (by decide)).trans hs.exit
    · intro b hb0 hb2 hb
      show Ended (trailOf blocks b) = false → trailOf blocks b = [] ∧ (b < blocks.size → _)
      rw [hp.rest b hb0, hp.size, howed]
      intro hopen
      obtain ⟨hempty, hb⟩ := hs.idle b hb0 hb2 hb hopen
      exact ⟨hempty, fun hlt => (hb hlt).imp id fun h => h.mono hle⟩
    · exact fun l hl => (hs.loops l hl).mono hle (hnow ▸ fun _ h => h)
    · show (pushes (trailOf blocks 0)).length = _
      rw [hp.first, pushes_append, List.length_append, hs.roots]
      exact hrts
    · refine hsingle.extend (b := 0) (fun b => ?_) hnd hadded
      split
      · next hb => rw [hb, hp.first, List.filterMap_append]
      · next hb => rw [hp.rest b hb, List.nil_append]
  · show trailOf d.blocks b <:+ trailOf blocks b
    by_cases hb : b = 0
    · rw [hb, hp.first]
      exact List.suffix_append ..
    · rw [hp.rest b hb]

end

theorem yields_pushPrologueRaw (i : Instr) (d : Draft) :
    Yields (pushPrologue i) d fun _ d' =>
      ∃ blocks, d' = { d with blocks } ∧ (d.prologue = 0 → Prefaces [i] d.blocks blocks) := by
  refine .get_bind ((yields_append d.prologue i d).mono ?_)
  rintro _ _ ⟨blocks, rfl, ha⟩
  exact ⟨blocks, rfl, fun hd => .of_appends (hd ▸ ha)⟩

section

variable (hs : d.Sound I G k n c)

include hs

theorem yields_pushPrologue (hopens : Opens G k c (trailOf d.blocks 0) i)
    (hrts : pushes [i] = []) (hdest : destOf i = none) :
    Yields (pushPrologue i) d fun _ d' => Writes I G k n c d [] c d' ∧
      trailOf d'.blocks 0 = i :: trailOf d.blocks 0 := by
  refine (yields_pushPrologueRaw i d).mono ?_
  rintro _ _ ⟨blocks, rfl, hp⟩
  have hp := hp hs.layout.1
  have hcoded := hs.toCoded.addPrologue hp ⟨hopens, hs.opens⟩
  refine ⟨writes_prologue hs (le_refl c) rfl rfl rfl hp hcoded ?_ hs.single ?_ ?_, hp.first⟩
  · rw [hrts]
    exact Nat.zero_add _
  · simp [hdest]
  · simp [hdest]

theorem yields_storage {ρ : Role} {make : Nat → Instr} {name : Option String}
    (hρ : ρ ≠ .slot ∧ ρ.ty = .ptr) (hnone : ∀ r, pushes [make r] = [])
    (hdest : ∀ r, destOf (make r) = some r)
    (hopens : ∀ c' r before, c'.HasRole r ρ → (∀ i ∈ before, destOf i ≠ some r) →
      (before = trailOf d.blocks 0) → Opens G k c' before (make r)) :
    Yields (do let r ← register .ptr name; pushPrologue (make r); return r) d fun r d' =>
      ∃ c', Writes I G k n c d [] c' d' ∧ c'.HasRole r ρ ∧
        trailOf d'.blocks 0 = make r :: trailOf d.blocks 0 := by
  refine (Yields.modifyGet (Q := fun r d' => r = d.registers.size ∧
    d' = { d with registers := d.registers.push ⟨.ptr, name⟩ }) ⟨rfl, rfl⟩).bind ?_
  rintro _ _ ⟨rfl, rfl⟩
  refine (yields_pushPrologueRaw _ _).bind ?_
  rintro _ _ ⟨blocks, rfl, hp⟩
  have hp := hp hs.layout.1
  have hrole := hasRole_size hs.toWritten ρ
  have hcoded := hs.toCoded.addStorage ⟨.ptr, name⟩ (ρ := ρ) hρ.2.symm hp
    ⟨hopens _ _ _ hrole (fun i hi => hs.toCoded.fresh hi) rfl,
      hs.opens.mono fun _ _ hi => hi.mono (c.le_addRole ρ) fun _ h => h⟩
    (fun _ => ⟨_, List.mem_singleton_self _, hdest _⟩) fun h => absurd h hρ.1
  refine .pure ⟨_, writes_prologue hs (c.le_addRole ρ) rfl rfl rfl hp hcoded ?_ (hs.single.push _)
    ?_ ?_, hrole, hp.first⟩
  · rw [hnone]
    exact Nat.zero_add _
  · simp [hdest]
  · simpa [hdest] using hs.single.unwritten _

theorem yields_cells (count : Nat) :
    Yields (cells count) d fun r d' => ∃ c', Writes I G k n c d [] c' d' ∧
      c'.HasRole r (.buffer count) :=
  (yields_storage hs (ρ := .buffer count) ⟨nofun, rfl⟩ (fun _ => rfl) (fun _ => rfl)
    fun _ _ _ hr hfresh _ => .slots hr rfl hfresh).mono fun _ _ ⟨c', h, hr, _⟩ => ⟨c', h, hr⟩

omit hs in
/-- Below 2³² values the count of 32 bits is the count itself. -/
theorem scratch_eq_cells {count : Nat} (hcount : count < 0x100000000) :
    scratch count = cells (max count 1) := by
  rw [scratch, Nat.mod_eq_of_lt (by omega)]

theorem yields_stackSlot (ty : Ty) (hty : ty ≠ .value) :
    Yields (stackSlot ty) d fun r d' => ∃ c', Writes I G k n c d [] c' d' ∧ c'.HasRole r .cell :=
  (yields_storage hs (ρ := .cell) ⟨nofun, rfl⟩ (fun _ => rfl) (fun _ => rfl)
    fun _ _ _ hr hfresh _ => .cell hty hr hfresh).mono fun _ _ ⟨c', h, hr, _⟩ => ⟨c', h, hr⟩

theorem yields_counter {initial : Operand} (hinitial : d.Gives I c ⟨.i64, initial⟩ (.int .full)) :
    Yields (counter initial) d fun r d' => ∃ c' l, Writes I G k n c d l c' d' ∧
      c'.HasRole r .cell := by
  refine (yields_stackSlot hs .i64 nofun).bind ?_
  rintro r d1 ⟨c1, h1, hr⟩
  refine (yields_storeCell h1.sound (hinitial.mono h1.continues) hr).bind fun _ d2 h2 => ?_
  exact .pure ⟨c1, _, h1.trans h2, hr⟩

theorem yields_advance {counter : Nat} (hcounter : c.HasRole counter .cell)
    {amount : Operand} (hamount : d.Gives I c ⟨.i64, amount⟩ (.int .full)) :
    Yields (advance counter amount) d fun _ d' => ∃ c' l, Writes I G k n c d l c' d' := by
  refine (yields_count hs hcounter).bind ?_
  rintro current d1 ⟨c1, h1, hcur⟩
  refine (yields_arith h1.sound .add hcur (hamount.mono h1.continues)).bind ?_
  rintro next d2 ⟨c2, h2, hnext⟩
  refine (yields_storeCell h2.sound hnext.gives
    (hcounter.mono (h1.follows.le.trans h2.follows.le))).mono fun _ d3 h3 => ?_
  exact ⟨c2, _, (h1.trans h2).trans h3⟩

/-- The instructions that make a register a registered slot, the last one first. -/
def rooting (slot : Nat) : List Instr :=
  [.pushRoot (.reg slot), .clear slot, .alloca slot .value 1]

theorem yields_slot (name : Option String) :
    Yields (do let slot ← register .ptr name; rootSlot slot; return slot) d fun r d' =>
      ∃ c', Writes I G k n c d [] c' d' ∧ c'.HasRole r .slot ∧ c'.inputs = c.inputs ∧
        c'.slots = c.slots + 1 := by
  refine (Yields.modifyGet (Q := fun r d' => r = d.registers.size ∧
    d' = { d with registers := d.registers.push ⟨.ptr, name⟩ }) ⟨rfl, rfl⟩).bind ?_
  rintro _ _ ⟨rfl, rfl⟩
  have hroot : Yields (rootSlot d.registers.size) { d with registers := d.registers.push ⟨.ptr, name⟩ }
      fun _ d' => ∃ blocks, d' = { d with
          registers := d.registers.push ⟨.ptr, name⟩, blocks, rootCount := d.rootCount + 1 } ∧
        Prefaces (rooting d.registers.size) d.blocks blocks := by
    have hd := hs.layout.1
    refine (yields_pushPrologueRaw _ _).bind ?_
    rintro _ _ ⟨blocks1, rfl, hp1⟩
    refine (yields_pushPrologueRaw _ _).bind ?_
    rintro _ _ ⟨blocks2, rfl, hp₂⟩
    refine (yields_pushPrologueRaw _ _).bind ?_
    rintro _ _ ⟨blocks3, rfl, hp3⟩
    exact .modifyGet ⟨blocks3, rfl, ((hp1 hd).cons (hp₂ hd)).cons (hp3 hd)⟩
  refine hroot.bind ?_
  rintro _ _ ⟨blocks, rfl, hp⟩
  have hslot := hasRole_size hs.toWritten .slot
  have hcoded := hs.toCoded.addStorage ⟨.ptr, name⟩ (ρ := .slot) rfl hp
    ⟨.root hslot rfl, .clear hslot rfl, .slots hslot rfl fun i hi => hs.toCoded.fresh hi,
      hs.opens.mono fun _ _ hi => hi.mono (c.le_addRole .slot) fun _ h => h⟩
    (fun _ => ⟨.alloca d.registers.size .value 1, .tail _ (.tail _ (.head _)), rfl⟩)
    fun _ => .head _
  refine .pure ⟨_, writes_prologue hs (c.le_addRole .slot) rfl rfl rfl hp hcoded ?_
    (hs.single.push _) (List.nodup_singleton _) ?_, hslot, rfl, ?_⟩
  · show 1 + (d.rootCount + k.registered G) = d.rootCount + 1 + k.registered G
    omega
  · intro r hr
    rw [List.mem_singleton.mp hr]
    exact hs.single.unwritten _
  · show (c.roles ++ [Role.slot]).count .slot = c.roles.count .slot + 1
    simp

end

theorem yields_globalRoot (hs : d.Sound I G .main n c) (symbol : String) :
    Yields (globalRoot symbol) d fun _ d' => Writes I (G ++ [symbol]) .main n c d [] c d' := by
  refine (yields_pushPrologueRaw _ d).mono ?_
  rintro _ _ ⟨blocks, rfl, hp⟩
  have hp := hp hs.layout.1
  have hG : G ⊆ G ++ [symbol] := List.subset_append_left ..
  have hopens : Checked (Opens (G ++ [symbol]) .main c)
      ([.pushRoot (.global (.slot symbol))] ++ trailOf d.blocks 0) :=
    ⟨.globalRoot rfl (by simp), hs.opens.mono fun _ _ hi => hi.mono (le_refl c) hG⟩
  have hrts : 1 + (d.rootCount + G.length) = d.rootCount + (G ++ [symbol]).length := by
    rw [List.length_append, List.length_singleton]
    omega
  refine writes_prologue hs (le_refl c) rfl rfl rfl hp ?_ hrts hs.single List.nodup_nil nofun
  refine { hs.toCoded with contexts := hs.contexts.trans hp.size.symm, opens := hopens, fits := ?_,
                           stored := ?_, rooted := ?_, globals := ?_, defs := ?_ }
  · intro b x hb0 hb2 hx
    rw [hp.rest b hb0]
    exact (hs.fits b x hb0 hb2 hx).mono fun _ _ hi => hi.mono (le_refl c) hG
  · exact fun r ρ hr hρ => (hs.stored r ρ hr hρ).mono (List.subset_append_right ..)
  · exact fun r hr => .tail _ (hs.rooted r hr)
  · intro hk s hmem
    rcases List.mem_append.mp hmem with hmem | hmem
    · exact .tail _ (hs.globals hk s hmem)
    · exact List.mem_singleton.mp hmem ▸ List.mem_cons_self
  · intro p r hr
    obtain ⟨hp0, hp2, hass⟩ := hs.defs p r hr
    exact ⟨hp0, hp2, (hp.rest p hp0).symm ▸ hass⟩

/-! ## Loops and protected regions -/

theorem Sound.pushLoop (hs : d.Sound I G k n c) {leave next : Nat}
    (hleave : c.Leads c.now d.tryDepth leave) (hnext : c.Leads c.now d.tryDepth next) :
    Sound I G k n c { d with loops := ⟨leave, next, d.tryDepth⟩ :: d.loops } :=
  ⟨{ hs.toWritten with
      loops := fun l hl => by
        rcases List.mem_cons.mp hl with rfl | hl
        · exact ⟨hleave, hnext, Nat.le_refl _⟩
        · exact hs.loops l hl }, hs.stands⟩

theorem Sound.popLoop (hs : d.Sound I G k n c) : Sound I G k n c { d with loops := d.loops.tail } :=
  ⟨{ hs.toWritten with loops := fun l hl => hs.loops l (List.mem_of_mem_tail hl) }, hs.stands⟩

theorem Sound.setTries (hs : d.Sound I G k n c) (hloops : ∀ l ∈ d.loops, l.tryDepth ≤ depth) :
    Sound I G k n c { d with tryDepth := depth } :=
  ⟨{ hs.toWritten with
      loops := fun l hl => ⟨(hs.loops l hl).leave, (hs.loops l hl).next, hloops l hl⟩ }, hs.stands⟩

theorem yields_tryPop (hs : d.Sound I G k (n + 1) c) :
    Yields (callVoid (.entry .tryPop) []) d fun _ d' => ∃ l, Writes I G k n c d l c d' := by
  rw [callVoid_eq rfl]
  refine (extends_push (i := .call none .void (.entry .tryPop) []) hs.toWritten nofun
    fun hopen x hx => ?_).mono fun _ d' h => ⟨_, h.1, ?_, rfl⟩
  · obtain ⟨hstdy, hdep⟩ := hs.stands.open hopen hx
    exact .tryPop hstdy (by omega)
  · obtain ⟨x, hx, hbeh, hstd⟩ := hs.stands
    obtain ⟨-, hdep⟩ := hstd h.2
    refine ⟨x, h.1.current ▸ hx, h.1.current ▸ hbeh, fun _ => ?_⟩
    rw [h.1.trail]
    refine ⟨trivial, ?_⟩
    show triesAfter x.tries d.trail - 1 = n
    omega

theorem yields_popTries (j : Nat) (hs : d.Sound I G k (n + j) c) :
    Yields (popTries j) d fun _ d' => ∃ l, Writes I G k n c d l c d' := by
  induction j generalizing d with
  | zero => exact .pure ⟨[], .refl hs⟩
  | succ j ih =>
    refine (yields_tryPop hs).bind ?_
    rintro _ d1 ⟨l1, h1⟩
    refine (ih h1.sound).mono ?_
    rintro _ d2 ⟨l2, h2⟩
    exact ⟨_, h1.trans h2⟩

theorem yields_unwindTriesTo (hs : d.Sound I G k d.tryDepth c) (hdep : depth ≤ d.tryDepth) :
    Yields (unwindTriesTo depth) d fun _ d' => ∃ l, Writes I G k depth c d l c d' := by
  refine .get_bind (yields_popTries _ ?_)
  rwa [Nat.add_sub_cancel' hdep]

theorem Leaves.after (h1 : Writes I G k n c d l c' d') (h2 : Leaves I G k m c' d' c'' d'') :
    Leaves I G k m c d c'' d'' :=
  ⟨h2.sound, h1.follows.trans h2.follows, h2.left, h2.now.trans h1.now, h2.owed.trans h1.owed⟩

theorem yields_emitReturn (hs : d.Sound I G k d.tryDepth c) {value : Option Nat}
    (hval : k ≠ .main → ∃ r, value = some r ∧ d.Holds c r .value) :
    Yields (emitReturn value) d fun _ d' => ∃ c', Leaves I G k d.tryDepth c d c' d' := by
  refine (yields_unwindTriesTo hs (Nat.zero_le _)).bind ?_
  rintro _ d1 ⟨l1, h1⟩
  refine .get_bind ?_
  have hexit := h1.sound.layout.2.2
  by_cases hk : k = .main
  · rw [(h1.sound.main hk).2, hexit]
    refine (yields_leave h1.sound (absurd hk) d.tryDepth).mono ?_
    rintro _ d2 ⟨c2, h2⟩
    exact ⟨c2, .after h1 h2⟩
  · obtain ⟨r, rfl, hr⟩ := hval hk
    rw [(h1.sound.inner hk).2, hexit]
    have hr := hr.mono h1.continues
    have hstore : Yields (push (.store (.value r) (.reg 0))) d1 fun _ d' =>
        Writes I G k 0 c d1 [.store (.value r) (.reg 0)] c d' :=
      yields_pushCalm h1.sound rfl nofun fun x hx hstdy _ =>
        .storeResult hstdy hk (Gives.at hr.gives hx (le_refl c))
    refine hstore.bind fun _ d2 h2 => ?_
    refine (yields_leave h2.sound (fun _ => ⟨r, d1.trail, h2.trail⟩) d.tryDepth).mono ?_
    rintro _ d3 ⟨c3, h3⟩
    exact ⟨c3, .after (h1.trans h2) h3⟩

/-- The opening of a region: a checkpoint, a resume point, and a branch that tells the first arrival
from a resumption. Writing goes on inside. -/
def openRegion : Drafting (Nat × Nat) := do
  let checkpoint ← callFor (.entry .tryPush) []
  let resumed ← callFor (.intrinsic .setjmp) [.ptr checkpoint]
  let inside ← block "try.body"
  let caught ← block "try.catch"
  let done ← block "try.end"
  let first ← compare .eq ⟨.i32, .reg resumed⟩ (.imm (.int 0))
  branch first inside caught
  moveTo inside
  enterTry
  return (caught, done)

theorem extends_callFor (hw : d.Written I G k c) {callee : Callee} {arguments : List Typed}
    (hres : callee.result ≠ .void)
    (hfits : ∀ r c', c'.HasRole r callee.result.role → Ended d.trail = false →
      ∀ x, c.HasContext d.current x →
        Fits I G k c' d.current x d.trail (.call (some r) callee.result callee arguments)) :
    Yields (callFor callee arguments) d fun r d' => ∃ c',
      Extends I G k c d [.call (some r) callee.result callee arguments] c' d' ∧
        c'.owed = c.owed ∧ Ended d.trail = false := by
  rw [callFor_eq hres]
  refine (extends_register hw _ (isStorage_role _) (Ty.ty_role hres).symm).bind ?_
  rintro r d1 ⟨h1, hr, hfresh⟩
  have htrail : d1.trail = d.trail := h1.trail
  refine (extends_push (i := .call (some r) callee.result callee arguments) h1.written
    (fun _ h => Option.some.inj h ▸ hfresh) fun hopen x hx => ?_).bind fun _ d2 h2 =>
    .pure ⟨_, h1.trans h2.1, rfl, htrail ▸ h2.2⟩
  rw [htrail] at hopen ⊢
  rw [h1.current] at hx ⊢
  exact hfits r _ hr hopen x hx

/-- A region was opened: its handler and what follows it are reserved. -/
structure Opened (I : Interface) (G : List String) (k : Convention) (n : Nat) (c : Cert)
    (d : Draft) (caught done : Nat) (c' : Cert) (d' : Draft) : Prop where
  sound : d'.Sound I G k (n + 1) c'
  follows : Follows c d c' { d' with tryDepth := d.tryDepth }
  tryDepth : d'.tryDepth = d.tryDepth + 1
  handler : c'.Reserves [] n caught
  rest : c'.Reserves [] n done
  now : c'.now = c.now
  owed : ∀ b ∈ c'.owed, b = caught ∨ b = done ∨ b ∈ c.owed

theorem yields_openRegion (hs : d.Sound I G k n c) :
    Yields openRegion d fun p d' => ∃ c', Opened I G k n c d p.1 p.2 c' d' := by
  obtain ⟨x, hx, hbeh, hstd⟩ := hs.stands
  refine (extends_callFor hs.toWritten (by decide) fun r c' hr hopen x hx => ?_).bind ?_
  · exact .tryPush (hs.stands.open hopen hx).1 hr
  rintro checkpoint d1 ⟨c1, h1, howed1, hopen⟩
  have hdep := (hstd hopen).2
  have htrail1 : d1.trail = .tryPush checkpoint :: d.trail := h1.trail
  refine (extends_callFor h1.written (by decide) fun r c' hr _ x _ => .setjmp htrail1 hr).bind ?_
  rintro resumed d2 ⟨c2, h2, howed2, -⟩
  have h2 := h1.trans h2
  have htrail2 : d2.trail = .setjmp resumed checkpoint :: .tryPush checkpoint :: d.trail := h2.trail
  -- reserving blocks leaves the trail alone, so that the test still follows `setjmp`
  refine (extends_block h2.written "try.body" (n + 1) []).bind ?_
  rintro inside d3 ⟨c3, h3, hin, howed3⟩
  refine (extends_block h3.written "try.catch" n []).bind ?_
  rintro caught d4 ⟨c4, h4, hcaught, howed4⟩
  refine (extends_block h4.written "try.end" n []).bind ?_
  rintro done d5 ⟨c5, h5, hdone, howed5⟩
  have htrail5 : d5.trail = d2.trail := h5.trail.trans (h4.trail.trans h3.trail)
  refine Yields.bind (R := fun first d6 => ∃ c6, Extends I G k c5 d5 [.entered first resumed] c6 d6 ∧
    c6.owed = c5.owed) ?_ ?_
  · refine (extends_register h5.written (.int .bit) rfl rfl).bind ?_
    rintro first d6 ⟨h6, hfst, hfresh⟩
    refine (extends_push (i := .entered first resumed) h6.written
      (fun _ h => Option.some.inj h ▸ hfresh) fun _ x _ => ?_).bind fun _ d7 h7 =>
      .pure ⟨_, h6.trans h7.1, rfl⟩
    exact .entered ((h6.trail.trans htrail5).trans htrail2) hfst
  rintro first d6 ⟨c6, h6, howed6⟩
  have htrail6 : d6.trail = .entered first resumed :: .setjmp resumed checkpoint ::
      .tryPush checkpoint :: d.trail := by
    rw [h6.trail, htrail5, htrail2]
    rfl
  have hall := ((h2.trans h3).trans (h4.trans h5)).trans h6
  have hin := hin.mono ((h4.trans h5).trans h6).follows.le ((h4.trans h5).trans h6).now
  have hcaught := hcaught.mono (h5.trans h6).follows.le (h5.trans h6).now
  have hdone := hdone.mono h6.follows.le h6.now
  have hnow : ∀ p ∈ c6.now, p ∈ d6.current :: x.after := by
    rw [hall.now, hall.current]
    exact hbeh
  -- the two ways out differ in the number of open regions: one more inside, the old one behind
  refine (yields_terminate h6.written (fun _ y hy => ?_) (n + 1)).bind ?_
  · have hx6 : c6.HasContext d6.current x := hall.current ▸ hx.mono hall.follows.le
    obtain rfl := hx6.unique hy
    refine .choose htrail6 ?_ ?_
    · rw [hdep]
      exact hin.leads (List.nil_subset _) hnow
    · rw [hdep]
      exact hcaught.leads (List.nil_subset _) hnow
  rintro _ d7 ⟨c7, h7⟩
  have hin := hin.mono h7.follows.le h7.now
  have hcaught := hcaught.mono h7.follows.le h7.now
  have hdone := hdone.mono h7.follows.le h7.now
  refine (yields_moveTo h7.sound h7.left hin).bind ?_
  rintro _ d8 ⟨hs8, hf8, -⟩
  have hf := (hall.follows.trans h7.follows).trans hf8
  refine (Yields.modifyGet (Q := fun _ d' => d' = { d8 with tryDepth := d8.tryDepth + 1 }) rfl).bind ?_
  rintro _ _ rfl
  refine .pure ⟨c7.settle inside, hs8.setTries fun l hl => Nat.le_succ_of_le (hs8.loops l hl).depth,
    ⟨hf.le, hf.symbol, rfl, hf.loops, hf.grows⟩, by rw [hf.tryDepth], hcaught, hdone,
    h7.now.trans hall.now, fun b hb => ?_⟩
  have hmem := List.mem_filter.mp hb
  rw [h7.owed, howed6, howed5, howed4, howed3, howed2, howed1] at hmem
  simp only [List.mem_cons, decide_eq_true_eq] at hmem
  tauto

theorem yields_closeRegion (hs : d.Sound I G k (n + 1) c) (hdep : d.tryDepth = n + 1)
    (hloops : ∀ l ∈ d.loops, l.tryDepth ≤ n) :
    Yields (do exitTry; callVoid (.entry .tryPop) []) d fun _ d' =>
      d'.Sound I G k n c ∧ Follows c { d with tryDepth := n } c d' := by
  refine Yields.bind (R := fun _ d' => d' = { d with tryDepth := n }) ?_ ?_
  · refine .get_bind ?_
    rw [hdep, if_neg (Nat.succ_ne_zero n)]
    exact .set rfl
  · rintro _ _ rfl
    refine (yields_tryPop (hs.setTries hloops)).mono ?_
    rintro _ d' ⟨l, h⟩
    exact ⟨h.sound, h.follows⟩

/-! ## Beginning and end -/

/-- The blocks that a function begins with. -/
def threeBlocks (prologue : Array Instr) : Table Block :=
  ⟨#[⟨"entry", prologue⟩, ⟨"body", #[]⟩, ⟨"exit", #[]⟩]⟩

theorem trailOf_threeBlocks (prologue : Array Instr) (b : Nat) :
    trailOf (threeBlocks prologue) b = if b = 0 then prologue.toList.reverse else [] := by
  match b with
  | 0 | 1 | 2 => rfl
  | b + 3 =>
    rw [trailOf_of_size_le (by show 3 ≤ b + 3; omega)]
    rfl

theorem single_threeBlocks {prologue : Array Instr}
    (hnd : (prologue.toList.reverse.filterMap destOf).Nodup)
    (hlt : ∀ r ∈ prologue.toList.reverse.filterMap destOf, r < size) :
    Single size [] (threeBlocks prologue) := by
  refine ⟨List.nodup_nil, fun b => ?_, fun b b' r hb hb' => ?_, nofun, fun b r hr => ?_⟩
  · rw [trailOf_threeBlocks]
    split
    · exact hnd
    · exact List.nodup_nil
  · rw [trailOf_threeBlocks, assigns_iff] at hb hb'
    split at hb
    · next h =>
      split at hb'
      · next h' => rw [h, h']
      · cases hb'
    · cases hb
  · rw [trailOf_threeBlocks, assigns_iff] at hr
    split at hr
    · exact hlt r hr
    · cases hr

/-- The certificate of a function that was just begun. -/
def fresh (roles : List Role) : Cert :=
  { roles, contexts := [{}, {}, {}] }

theorem sound_threeBlocks (prologue : Array Instr) (registers : Table Register) {roles : List Role}
    (hd : d.blocks = threeBlocks prologue ∧ d.registers = registers ∧ d.parameters = [] ∧
      d.loops = [] ∧ d.current = 1 ∧ d.rootCount = 0)
    (hroles : roles.length = registers.size)
    (htyped : ∀ r reg ρ, registers.get? r = some reg → roles[r]? = some ρ → reg.ty = ρ.ty)
    (hstored : ∀ r ρ, roles[r]? = some ρ → ρ.isStorage → Assigns prologue.toList.reverse r)
    (hslt : ∀ r : Nat, roles[r]? ≠ some Role.slot) (hnmd : k.Names I d.symbol)
    (hlayout : d.prologue = 0 ∧ d.body = 1 ∧ d.exit = 2)
    (hmain : k = .main → d.result = .i32 ∧ d.resultSlot = none)
    (hinn : k ≠ .main → d.result = .value ∧ d.resultSlot = some 0)
    (hres : k ≠ .main → roles[0]? = some Role.result)
    (hopens : Checked (Opens G k (fresh roles)) prologue.toList.reverse)
    (hpushes : pushes prologue.toList.reverse = []) (hG : k = .main → G = [])
    (hsingle : Single registers.size [] (threeBlocks prologue)) :
    d.Sound I G k 0 (fresh roles) := by
  obtain ⟨hblks, hregs, hparms, hloops, hcur, hcnt⟩ := hd
  have htrail : ∀ b, trailOf d.blocks b = if b = 0 then prologue.toList.reverse else [] := by
    rw [hblks]
    exact trailOf_threeBlocks prologue
  have hbody : trailOf d.blocks 1 = [] := htrail 1
  have hstd : d.Stands (fresh roles) 0 := by
    refine ⟨{}, by rw [hcur]; rfl, List.nil_subset _, fun _ => ?_⟩
    unfold trail
    rw [hcur, hbody]
    exact ⟨trivial, rfl⟩
  have h0 := htrail 0
  rw [if_pos rfl] at h0
  -- only the prologue has instructions, so that in the other blocks there is nothing to fit
  have hcoded : Coded I G k (fresh roles) d.registers d.blocks (trailOf d.blocks 0) := by
    rw [h0]
    refine ⟨?_, ?_, ?_, ⟨[], .nil, List.nil_prefix⟩, rfl, hres, hopens, ?_, hstored, ?_, ?_, nofun⟩
    · exact hregs ▸ hroles
    · rw [hblks]; rfl
    · exact hregs ▸ htyped
    · intro b x hb0 _ _
      rw [htrail, if_neg hb0]
      trivial
    · exact fun r hr => absurd hr (hslt r)
    · intro hk s hs
      rw [hG hk] at hs
      cases hs
  refine ⟨⟨hcoded, hnmd, hparms, hmain, hinn, hlayout, ?_, htrail 2, ?_, ?_, ?_, ?_, ?_⟩,
    hstd⟩
  · rw [hblks]
    exact Nat.le_refl 3
  · rw [hcur]
    exact ⟨by decide, by decide⟩
  · intro b hb0 hb2 hb _
    refine ⟨by rw [htrail, if_neg hb0], fun hlt => ?_⟩
    have hlt : b < 3 := by
      rw [hblks] at hlt
      exact hlt
    rw [hcur] at hb
    omega
  · rw [hloops]
    exact nofun
  · have hregd : k.registered G = 0 := by
      cases k with
      | main => simp [Convention.registered, hG rfl]
      | _ => rfl
    rw [h0, hpushes, hcnt, hregd]
    rfl
  · rw [hparms, hblks, hregs]
    exact hsingle

theorem sound_start {symbol : String} (hk : k ≠ .main) (hnmd : k.Names I symbol) :
    (start symbol .value).Sound I G k 0 (fresh [.result]) := by
  refine sound_threeBlocks #[.alloca 0 .value 1] ⟨#[⟨.ptr, some "result"⟩]⟩
    ⟨rfl, rfl, rfl, rfl, rfl, rfl⟩ rfl ?_ ?_ ?_ hnmd ⟨rfl, rfl, rfl⟩ (fun h => absurd h hk)
    (fun _ => ⟨rfl, rfl⟩) (fun _ => rfl) ?_ rfl (fun h => absurd h hk)
    (single_threeBlocks (List.nodup_singleton _) (by simp [destOf, Table.size]))
  · intro r reg ρ hreg hρ
    match r with
    | 0 =>
      cases hreg
      obtain rfl := Option.some.inj hρ
      rfl
    | r + 1 => cases hρ
  · intro r ρ hρ _
    match r with
    | 0 => exact ⟨_, List.mem_singleton_self _, rfl⟩
    | r + 1 => cases hρ
  · intro r hr
    match r with
    | 0 => cases hr
    | r + 1 => cases hr
  · have hrole : (fresh [.result]).HasRole 0 .result := rfl
    exact ⟨.slots hrole rfl fun _ hi => absurd hi List.not_mem_nil, trivial⟩

theorem sound_startMain : (start "main" .i32).Sound I [] .main 0 (fresh []) :=
  sound_threeBlocks #[] {} ⟨rfl, rfl, rfl, rfl, rfl, rfl⟩ rfl
    (fun _ _ _ _ hρ => nomatch hρ) (fun _ _ hρ => nomatch hρ) (fun _ hr => nomatch hr) rfl
    ⟨rfl, rfl, rfl⟩ (fun _ => ⟨rfl, rfl⟩) (fun h => absurd rfl h) (fun h => absurd rfl h) trivial rfl
    (fun _ => rfl) (single_threeBlocks List.nodup_nil nofun)

theorem yields_parameter (hs : d.Sound I G k n c) {name : String} (ρ : Role)
    (hρ : ρ.isStorage = false) (hty : ty = ρ.ty) (hplace : k.roles[c.inputs.length]? = some ρ) :
    Yields (parameter ty name) d fun r d' => ∃ c', Writes I G k n c d [] c' d' ∧ c'.HasRole r ρ ∧
      c'.inputs = c.inputs ++ [r] := by
  have hregister : Yields (register ty (some name)) d fun r d' =>
      (Extends I G k c d [] (c.addRole ρ) d' ∧ (c.addRole ρ).HasRole r ρ ∧ d'.Unwritten r) ∧
        d'.parameters = d.parameters :=
    fun r d' heq => ⟨extends_register hs.toWritten ρ hρ hty r d' heq, by cases heq; rfl⟩
  refine hregister.bind ?_
  rintro r d1 ⟨⟨h1, hr, hfresh⟩, hparms⟩
  refine (Yields.modifyGet (Q := fun _ d' => d' = { d1 with parameters := d1.parameters ++ [r] })
    rfl).bind ?_
  rintro _ _ rfl
  have hle : c.addRole ρ ≤ { c.addRole ρ with inputs := c.inputs ++ [r] } :=
    ⟨List.prefix_refl _, List.prefix_refl _, List.prefix_append .., List.Subset.refl _⟩
  have hins : ∃ ρs, List.Forall₂ (c.addRole ρ).HasRole (c.inputs ++ [r]) ρs ∧ ρs <+: k.roles := by
    obtain ⟨ρs, hρs, rest, hrest⟩ := hs.inputs
    rw [← hrest, hρs.length_eq, List.getElem?_append_right (Nat.le_refl _), Nat.sub_self] at hplace
    cases rest with
    | nil => cases hplace
    | cons ρ' rest =>
      obtain rfl := Option.some.inj hplace
      refine ⟨ρs ++ [ρ'], ?_, rest, by rw [← hrest]; simp⟩
      exact List.rel_append (hρs.imp fun _ _ h => h.mono (c.le_addRole ρ')) (.cons hr .nil)
  refine .pure ⟨{ c.addRole ρ with inputs := c.inputs ++ [r] }, ⟨⟨?_, ⟨h1.follows.le.trans hle,
    h1.follows.symbol, h1.follows.tryDepth, h1.follows.loops, h1.follows.grows⟩, h1.current, h1.trail,
    rfl⟩, hs.stands.mono (h1.follows.le.trans hle) rfl h1.current h1.trail, rfl⟩, hr, rfl⟩
  refine { h1.written with inputs := hins, parameters := ?_, opens := ?_, fits := ?_, loops := ?_,
                           single := h1.written.single.addInput hfresh }
  · exact h1.written.opens.mono fun _ _ hi => hi.mono hle fun _ h => h
  · exact fun b x hb0 hb2 hx => (h1.written.fits b x hb0 hb2 hx).mono fun _ _ hi =>
      hi.mono hle fun _ h => h
  · show d1.parameters ++ [r] = c.inputs ++ [r]
    rw [hparms, hs.parameters]
  · exact fun l hl => (h1.written.loops l hl).mono hle fun _ h => h

theorem trailOf_seal (blocks : Table Block) (b : Nat) :
    (trailOf ⟨blocks.entries.map sealBlock⟩ b = .unreachable :: trailOf blocks b ∧
      Ended (trailOf blocks b) = false ∧ b < blocks.size) ∨
    (trailOf ⟨blocks.entries.map sealBlock⟩ b = trailOf blocks b ∧
      (b < blocks.size → Ended (trailOf blocks b) = true)) := by
  unfold trailOf Table.get?
  rw [Array.getElem?_map]
  cases hblk : blocks.entries[b]? with
  | none =>
    refine .inr ⟨rfl, fun hlt => ?_⟩
    have hlt : b < blocks.entries.size := hlt
    exact absurd hlt (Nat.not_lt.mpr (Array.getElem?_eq_none_iff.mp hblk))
  | some blk =>
    have hlt : b < blocks.size := (Array.getElem?_eq_some_iff.mp hblk).1
    show ((sealBlock blk).trail = .unreachable :: blk.trail ∧ Ended blk.trail = false ∧ _) ∨
      ((sealBlock blk).trail = blk.trail ∧ (_ → Ended blk.trail = true))
    unfold sealBlock
    rw [isTerminated_eq]
    split
    · next hended => exact .inr ⟨rfl, fun _ => hended⟩
    · next hopen => exact .inl ⟨by simp [Block.trail], by simpa using hopen, hlt⟩

theorem yields_exitInstrs (hw : d.Written I G k c) (blocks : Table Block) :
    Yields exitInstrs { d with blocks } fun code d' => ∃ c' registers, c ≤ c' ∧ c'.owed = c.owed ∧
      c'.inputs = c.inputs ∧ d' = { d with blocks, registers } ∧
      Coded I G k c' registers d.blocks (trailOf d.blocks 0) ∧
      Exits G k c' (pushes (trailOf d.blocks 0)).length code.toList.reverse ∧
      Single registers.size d.parameters d.blocks ∧
      (code.toList.reverse.filterMap destOf).Nodup ∧
      ∀ r ∈ code.toList.reverse.filterMap destOf,
        Ir.Unwritten registers.size d.parameters d.blocks r := by
  refine .get_bind ?_
  generalize he : ({ d with blocks } : Draft) = e
  have hres : e.result = d.result := he ▸ rfl
  have hslot : e.resultSlot = d.resultSlot := he ▸ rfl
  have hcnt : e.rootCount = d.rootCount := he ▸ rfl
  -- the main function leaves the globals registered; all others pop whatever they pushed
  by_cases hk : k = .main
  · rw [hres.trans (hw.main hk).1, hcnt]
    subst he
    refine .pure ⟨c, d.registers, le_refl c, rfl, rfl, rfl, hw.toCoded, ?_⟩
    have hbal : d.rootCount + G.length = (pushes (trailOf d.blocks 0)).length := by
      rw [hw.roots, hk]
      rfl
    have hcode : (Array.push (if d.rootCount = 0 then #[]
        else #[Instr.call none .void (.entry .popRoots) [.i32 d.rootCount]])
        (.ret (some (.i32 0)))).toList.reverse = .ret (some (.i32 0)) :: popping d.rootCount := by
      unfold popping
      split <;> rfl
    have hdests : (Instr.ret (some (.i32 0)) :: popping d.rootCount).filterMap destOf = [] := by
      unfold popping
      split <;> rfl
    rw [hcode, hdests]
    exact ⟨.main hk hbal, hw.single, List.nodup_nil, nofun⟩
  · rw [hres.trans (hw.inner hk).1, hslot.trans (hw.inner hk).2, hcnt]
    subst he
    refine (Yields.modifyGet (Q := fun r (d' : Draft) => r = d.registers.size ∧
      d' = { d with blocks, registers := d.registers.push ⟨.value, none⟩ }) ⟨rfl, rfl⟩).bind ?_
    rintro _ _ ⟨rfl, rfl⟩
    have hrole := hasRole_size hw .value
    refine .pure ⟨c.addRole .value, _, c.le_addRole .value, rfl, rfl, rfl,
      hw.toCoded.addRole ⟨.value, none⟩ rfl rfl, ?_⟩
    have hcode : ((if d.rootCount = 0 then #[]
        else #[Instr.call none .void (.entry .popRoots) [.i32 d.rootCount]]) ++
        #[Instr.load d.registers.size .value (.reg 0), .ret (some (.value d.registers.size))]
        ).toList.reverse = .ret (some (.value d.registers.size)) ::
          .load d.registers.size .value (.reg 0) :: popping d.rootCount := by
      unfold popping
      split <;> rfl
    have hrts : (pushes (trailOf d.blocks 0)).length = d.rootCount := by
      rw [hw.roots]
      cases k with
      | main => exact absurd rfl hk
      | _ => rfl
    have hdests : (Instr.ret (some (.value d.registers.size)) ::
        .load d.registers.size .value (.reg 0) :: popping d.rootCount).filterMap destOf =
          [d.registers.size] := by
      unfold popping
      split <;> rfl
    rw [hcode, hrts, hdests]
    refine ⟨.inner hk hrole, hw.single.push _, List.nodup_singleton _, fun r hr => ?_⟩
    rw [List.mem_singleton.mp hr]
    exact hw.single.unwritten _

theorem trailOf_setBlock {label : String} {code : Array Instr}
    (hset : blocks.set b { label, instrs := code } = .ok blocks') :
    blocks'.size = blocks.size ∧
      ∀ b', trailOf blocks' b' = if b' = b then code.toList.reverse else trailOf blocks b' := by
  unfold Table.set at hset
  split at hset
  case isFalse => cases hset
  case isTrue hb =>
    cases hset
    refine ⟨Array.size_setIfInBounds .., fun b' => ?_⟩
    unfold trailOf Table.get?
    rw [Array.getElem?_setIfInBounds]
    by_cases hbb : b' = b
    · subst hbb
      have hb' : b' < blocks.entries.size := hb
      rw [if_pos rfl, if_pos rfl, if_pos hb']
      rfl
    · rw [if_neg (Ne.symm hbb), if_neg hbb]

theorem ended_of_exits {roots : Nat} (hl : Exits G k c roots l) : Ended l = true := by
  cases hl <;> rfl

theorem yields_finish (hs : d.Sound I G k n c) (hleft : d.Left c) (howed : c.owed = [])
    (hfull : c.inputs.length = k.roles.length) (hroom : k.passed ≤ c.slots) :
    Yields finish d fun f _ => ∃ c', c ≤ c' ∧ f.Certified I G k c' ∧ f.symbol = d.symbol ∧
      ∀ b, trailOf d.blocks b <:+ trailOf f.blocks b := by
  refine .get_bind ?_
  rw [hs.layout.2.1]
  refine (yields_pushPrologueRaw _ d).bind ?_
  rintro _ _ ⟨blocks1, rfl, hp⟩
  have hp := hp hs.layout.1
  have h0 : trailOf blocks1 0 = .jump 1 :: trailOf d.blocks 0 := hp.first
  refine (yields_exitInstrs hs.toWritten blocks1).bind ?_
  rintro code _ ⟨c2, registers, hle, howed2, hins, rfl, hcoded, hexits, hsingle, hnd, hcode⟩
  refine .get_bind ?_
  rw [hs.layout.2.2]
  split
  · exact .throw
  · split
    · exact .throw
    · next blocks hset =>
      obtain ⟨hsize, htrail⟩ := trailOf_setBlock hset
      have hsize : blocks.size = d.blocks.size := hsize.trans hp.size
      have hrest : ∀ b, b ≠ 2 → trailOf blocks b = trailOf blocks1 b := fun b hb => by
        rw [htrail, if_neg hb]
      have hseal := trailOf_seal blocks
      have hseal0 : trailOf ⟨blocks.entries.map sealBlock⟩ 0 = .jump 1 :: trailOf d.blocks 0 := by
        rcases hseal 0 with ⟨-, hopen, -⟩ | ⟨heq, -⟩
        · rw [hrest 0 (by decide), h0] at hopen
          cases hopen
        · rw [heq, hrest 0 (by decide), h0]
      have hseal2 : trailOf ⟨blocks.entries.map sealBlock⟩ 2 = code.toList.reverse := by
        rcases hseal 2 with ⟨-, hopen, -⟩ | ⟨heq, -⟩
        · rw [htrail, if_pos rfl, ended_of_exits hexits] at hopen
          cases hopen
        · rw [heq, htrail, if_pos rfl]
      have hoth : ∀ b, b ≠ 0 → b ≠ 2 → trailOf blocks b = trailOf d.blocks b := fun b hb0 hb2 => by
        rw [hrest b hb2, hp.rest b hb0]
      -- a block that is still open is dead
      have hdead : ∀ b, b ≠ 0 → b ≠ 2 → b < d.blocks.size → Ended (trailOf d.blocks b) = false →
          c2.IsDead b := by
        intro b hb0 hb2 hlt hopen
        by_cases hb : b = d.current
        · exact hb ▸ hleft.2.mono hle
        · rcases (hs.idle b hb0 hb2 hb hopen).2 hlt with hmem | hdead
          · rw [howed] at hmem
            cases hmem
          · exact hdead.mono hle
      have hprol : (trailOf ⟨blocks.entries.map sealBlock⟩ 0).tail = trailOf d.blocks 0 := by
        rw [hseal0]
        rfl
      have hfn : Coded I G k c2 registers ⟨blocks.entries.map sealBlock⟩
          (trailOf d.blocks 0) := by
        refine { hcoded with contexts := ?_, fits := ?_, defs := ?_ }
        · show c2.contexts.length = (blocks.entries.map sealBlock).size
          rw [Array.size_map]
          exact hcoded.contexts.trans hsize.symm
        · intro b x hb0 hb2 hx
          have hfits := hcoded.fits b x hb0 hb2 hx
          rw [← hoth b hb0 hb2] at hfits
          rcases hseal b with ⟨heq, hopen, hlt⟩ | ⟨heq, -⟩
          · rw [hoth b hb0 hb2] at hopen
            obtain ⟨y, hy, hdead⟩ := hdead b hb0 hb2 (hsize ▸ hlt) hopen
            obtain rfl := hx.unique hy
            rw [← hoth b hb0 hb2] at hopen
            exact heq ▸ ⟨.dead hdead hopen, hfits⟩
          · exact heq ▸ hfits
        · intro p r hr
          obtain ⟨hp0, hp2, hass⟩ := hcoded.defs p r hr
          refine ⟨hp0, hp2, hass.mono ?_⟩
          rw [← hoth p hp0 hp2]
          rcases hseal p with ⟨heq, -⟩ | ⟨heq, -⟩
          · exact heq ▸ List.subset_cons_self ..
          · exact heq ▸ List.Subset.refl _
      refine .pure ⟨c2, hle, ⟨?_, hs.named, hs.parameters.trans hins.symm, ?_,
        hroom.trans (Cert.slots_mono hle), ?_, ?_, ?_, ?_⟩, rfl, fun b => ?_⟩
      · show Coded I G k c2 registers ⟨blocks.entries.map sealBlock⟩ (List.tail _)
        rw [hprol]
        exact hfn
      · rw [hins, hfull]
      · show trailOf _ 0 = .jump 1 :: List.tail _
        rw [hprol, hseal0]
      · show Exits G k c2 (pushes (List.tail _)).length (trailOf ⟨blocks.entries.map sealBlock⟩ 2)
        rw [hprol, hseal2]
        exact hexits
      · intro b hlt
        have hlt : b < blocks.size := by
          have hlt : b < (blocks.entries.map sealBlock).size := hlt
          rwa [Array.size_map] at hlt
        show Ended (trailOf ⟨blocks.entries.map sealBlock⟩ b) = true
        rcases hseal b with ⟨heq, -, -⟩ | ⟨heq, hended⟩
        · rw [heq]
          rfl
        · rw [heq]
          exact hended hlt
      · refine hsingle.extend (b := 2) (fun b => ?_) hnd hcode
        have hsealed : (trailOf ⟨blocks.entries.map sealBlock⟩ b).filterMap destOf =
            (trailOf blocks b).filterMap destOf := by
          rcases hseal b with ⟨heq, -⟩ | ⟨heq, -⟩ <;> rw [heq]
          rfl
        refine hsealed.trans ?_
        by_cases hb2 : b = 2
        · subst hb2
          rw [htrail, if_pos rfl, if_pos rfl, hs.exit, List.filterMap_nil, List.append_nil]
        · rw [if_neg hb2, hrest b hb2, List.nil_append]
          by_cases hb0 : b = 0
          · subst hb0
            rw [h0]
            rfl
          · rw [hp.rest b hb0]
      · by_cases hb0 : b = 0
        · subst hb0
          show _ <:+ trailOf ⟨blocks.entries.map sealBlock⟩ 0
          rw [hseal0]
          exact List.suffix_cons ..
        by_cases hb2 : b = 2
        · subst hb2
          rw [hs.exit]
          exact List.nil_suffix
        · rw [← hoth b hb0 hb2]
          rcases hseal b with ⟨heq, -⟩ | ⟨heq, -⟩
          · exact heq ▸ List.suffix_cons ..
          · exact heq ▸ List.suffix_refl _

end Draft

end Ember.Ir
