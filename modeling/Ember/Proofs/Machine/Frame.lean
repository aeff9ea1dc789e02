import Ember.Proofs.Machine.Layout
import Ember.Proofs.Lowering.Program
import Ember.Proofs.Host.Likeness

/-!
# Ember — frames that fit a certificate

What the registers of an active function hold agrees with their roles, and the values among it are
kept on the machine stack, where a collection finds them. Then every operand that a certified
instruction names can be read, and is of the kind that the instruction asks for.

Main result: `Frame.typed`.
-/

namespace Ember.Machine

open Ir (Role Convention Cert Interface Typed Ty)

variable {a : Activation} {d r r' : Nat} {known : Nat → Prop} {ty : Ty}

/-- A loaded module with its certificates. -/
structure World where
  interface : Interface
  globals : List String
  certificate : Ir.Function → Convention × Cert
  image : Image

namespace World

/-- The symbol of a method tells how many parameters it has. -/
def Linked (W : World) : Prop :=
  ∀ symbol n n', W.interface.HasMethod symbol n → W.interface.HasMethod symbol n' → n = n'

/-- How an active function was called. -/
def kind (W : World) (a : Activation) : Convention :=
  (W.certificate a.routine.function).1

/-- The certificate of an active function. -/
def cert (W : World) (a : Activation) : Cert :=
  (W.certificate a.routine.function).2

/-- The functions of a loaded module fit their certificates, and what the interface names is
defined. -/
structure Sound (W : World) : Prop where
  texts : W.image.texts.size = W.interface.texts
  layouts : ∀ r ∈ W.image.routines, r.layout = .of r.function
  certified : ∀ r ∈ W.image.routines, r.function.Certified W.interface W.globals
    (W.certificate r.function).1 (W.certificate r.function).2
  defined : ∀ (k : Convention) (symbol : String), k.Names W.interface symbol →
    ∃ r ∈ W.image.routines, r.function.symbol = symbol
  arities : ∀ symbol n n', W.interface.HasFunction symbol n → W.interface.HasFunction symbol n' →
    n = n'

/-- Classes have members that the interface names. -/
def linkage (W : World) : Linkage where
  field f := W.interface.HasField f.initializer
  method m := ∃ n, W.interface.HasMethod m.code n ∧ m.arity = countOf (Int64.ofNat n)

end World

/-- What frames look at: which values are alive, which constructions are under way, the words of the
machine stack and the slots. -/
structure View where
  live : Value → Prop
  making : Host.Construction → Prop
  words : Array UInt64
  slots : Array Value

/-- The view of two hosts side by side. -/
def View.of (L : Linkage) (h1 h2 : Host) : View where
  live := Heap.Live h1.heap h2.heap
  making := Host.Making L h1.heap h2.heap
  words := h1.stack.words
  slots := h1.slots

/-! ## Roles -/

/-- What a register of a role may hold, in a frame with so many cells above its base, where there
are `size` slots. -/
def Holds (W : World) (size base cells : Nat) : Role → Scalar → Prop
  | .value, s => ∃ x, s = .value x
  | .int _, s => ∃ n, s = .int n
  | .float, s => ∃ x, s = .float x
  | .slot, s | .result, s => ∃ i, s = .ptr (.values #[i] 0) ∧ i < size
  | .buffer n, s => ∃ slots, s = .ptr (.values slots 0) ∧ slots.size = n ∧ ∀ i ∈ slots, i < size
  | .entry, s => ∃ slots offset, s = .ptr (.values slots offset) ∧ offset < slots.size ∧
      ∀ i ∈ slots, i < size
  | .cell, s => ∃ offset, s = .ptr (.word (base + offset)) ∧ offset < cells
  | .checkpoint, s => ∃ depth, s = .ptr (.checkpoint depth)
  | .arguments n, s => ∃ slots, s = .ptr (.values slots 0) ∧
      (W.Linked → slots.size = countOf (Int64.ofNat n)) ∧ ∀ i ∈ slots, i < size
  | .argument, s => ∃ slots offset, s = .ptr (.values slots offset) ∧
      (W.Linked → offset < slots.size) ∧ ∀ i ∈ slots, i < size
  | .argc, s => s = .int (Int64.ofNat W.image.arguments.length)
  | .vector, s => s = .ptr .arguments
  | .text, s => ∃ id, s = .ptr (.text id) ∧ id < W.image.texts.size
  | .operator, s => ∃ op : Operator, s = .int (Int64.ofNat op.code)

section

variable {W : World} {size size' base cells : Nat} {ρ : Role} {s : Scalar}

theorem Holds.mono (hs : Holds W size base cells ρ s) (hsize : size ≤ size') :
    Holds W size' base cells ρ s := by
  have hall : ∀ {slots : Array Nat}, (∀ i ∈ slots, i < size) → ∀ i ∈ slots, i < size' :=
    fun h i hi => (h i hi).trans_le hsize
  cases ρ with
  | slot | result =>
    obtain ⟨i, rfl, hi⟩ := hs
    exact ⟨i, rfl, hi.trans_le hsize⟩
  | buffer n =>
    obtain ⟨slots, rfl, hn, h⟩ := hs
    exact ⟨slots, rfl, hn, hall h⟩
  | entry =>
    obtain ⟨slots, offset, rfl, ho, h⟩ := hs
    exact ⟨slots, offset, rfl, ho, hall h⟩
  | arguments n =>
    obtain ⟨slots, rfl, hn, h⟩ := hs
    exact ⟨slots, rfl, hn, hall h⟩
  | argument =>
    obtain ⟨slots, offset, rfl, ho, h⟩ := hs
    exact ⟨slots, offset, rfl, ho, hall h⟩
  | _ => exact hs

theorem holds_of_hasType (hs : s.hasType ty = true) (hty : ty ≠ .ptr) (hvoid : ty ≠ .void) :
    Holds W size base cells ty.role s := by
  cases s <;> cases ty <;>
    first
      | exact ⟨_, rfl⟩
      | exact absurd rfl hty
      | exact absurd rfl hvoid
      | cases hs

theorem ne_ptr_of_hasType (hs : s.hasType ty = true) (hty : ty ≠ .ptr) (p : Pointer) :
    s ≠ .ptr p := by
  rintro rfl
  cases ty <;> first | exact hty rfl | cases hs

end

/-! ## Frames -/

/-- An active function whose registers hold what their roles say. Values among it are alive and stand
on the machine stack. -/
structure Frame (W : World) (v : View) (a : Activation) : Prop where
  routine : a.routine ∈ W.image.routines
  size : a.registers.size = a.routine.function.registers.size
  roles : ∀ (r : Nat) s ρ, a.registers[r]? = some (some s) → (W.cert a).HasRole r ρ →
    Holds W v.slots.size a.base (Layout.cellCount a.routine.function) ρ s
  values : ∀ (r : Nat) x, a.registers[r]? = some (some (.value x)) → v.live x ∧
    ∃ d, a.spillWord r = some d ∧ v.words[d + 1]? = some x.word

/-- A register was written. -/
def Activation.Defined (a : Activation) (r : Nat) : Prop :=
  ∃ s, a.registers[r]? = some (some s)

/-- An activation with a register written. -/
def Activation.put (a : Activation) (r : Nat) (s : Scalar) : Activation :=
  { a with registers := a.registers.setIfInBounds r (some s) }

/-- The machine stack after a register was written. -/
def Activation.kept (a : Activation) (r : Nat) (s : Scalar) (stack : Stack) : Stack :=
  match s, a.spillWord r with
  | .value x, some depth => stack.putValue depth x
  | _, _ => stack

theorem Activation.getElem?_put (hr : r < a.registers.size) (s : Scalar) (r' : Nat) :
    (a.put r s).registers[r']? =
      if r' = r then some (some s) else a.registers[r']? := by
  unfold Activation.put
  rw [Array.getElem?_setIfInBounds]
  split
  · next h =>
    subst h
    rw [if_pos rfl]
  · next h => rw [if_neg (Ne.symm h)]

theorem Activation.Defined.put (hr' : a.Defined r') (hr : r < a.registers.size) (s : Scalar) :
    (a.put r s).Defined r' := by
  unfold Defined
  rw [getElem?_put hr]
  split
  · exact ⟨s, rfl⟩
  · exact hr'

theorem Activation.kept_bottom (a : Activation) (r : Nat) (s : Scalar) (stack : Stack) :
    (a.kept r s stack).bottom = stack.bottom := by
  unfold kept
  split <;> rfl

theorem Activation.kept_depth (a : Activation) (r : Nat) (s : Scalar) (stack : Stack) :
    (a.kept r s stack).depth = stack.depth := by
  unfold kept
  split
  · simp [Stack.putValue, Stack.depth]
  · rfl

namespace Frame

variable {W : World} {v v' : View} {a : Activation} {r : Nat} {s : Scalar} {ρ : Role}

section

variable (ha : Frame W v a) (hW : W.Sound)

include ha hW

theorem layout : a.routine.layout = .of a.routine.function :=
  hW.layouts _ ha.routine

theorem certified : a.routine.function.Certified W.interface W.globals (W.kind a) (W.cert a) :=
  hW.certified _ ha.routine

theorem spillWord_bounds (hd : a.spillWord r = some d) :
    a.base + Layout.cellCount a.routine.function ≤ d ∧ d + 2 ≤ a.base + a.routine.layout.words := by
  unfold Activation.spillWord at hd
  obtain ⟨w, hw, rfl⟩ := Option.map_eq_some_iff.mp hd
  rw [Option.join_eq_some_iff] at hw
  have hlayout := ha.layout hW
  rw [hlayout] at hw ⊢
  have := (Layout.separate_of a.routine.function).within r w hw
  omega

theorem spillWord_apart {d' : Nat} (hd : a.spillWord r = some d)
    (hd' : a.spillWord r' = some d') (hne : r ≠ r') : d + 2 ≤ d' ∨ d' + 2 ≤ d := by
  unfold Activation.spillWord at hd hd'
  obtain ⟨w, hw, rfl⟩ := Option.map_eq_some_iff.mp hd
  obtain ⟨w', hw', rfl⟩ := Option.map_eq_some_iff.mp hd'
  rw [Option.join_eq_some_iff] at hw hw'
  rw [ha.layout hW] at hw hw'
  have := (Layout.separate_of a.routine.function).apart r r' w w' hw hw' hne
  omega

theorem lt_size (hr : (W.cert a).HasRole r ρ) : r < a.registers.size := by
  rw [ha.size]
  have hlen := (ha.certified hW).roles
  have hlt := (List.getElem?_eq_some_iff.mp hr).1
  rw [hlen] at hlt
  exact hlt

theorem exists_spillWord (hr : (W.cert a).HasRole r .value) : ∃ d, a.spillWord r = some d := by
  have hlt : r < a.routine.function.registers.size := ha.size ▸ ha.lt_size hW hr
  obtain ⟨reg, hreg⟩ : ∃ reg, a.routine.function.registers.get? r = some reg :=
    ⟨_, Array.getElem?_eq_getElem hlt⟩
  have hty : reg.ty = .value := (ha.certified hW).typed r reg .value hreg hr
  obtain ⟨w, hw⟩ := Layout.exists_spill hreg
  rw [if_pos hty, ← ha.layout hW] at hw
  refine ⟨a.base + w, ?_⟩
  unfold Activation.spillWord
  rw [hw]
  rfl

theorem mono
    (hlv : ∀ x i, i < a.base + a.routine.layout.words → v.words[i]? = some (Value.word x) →
      v.live x → v'.live x)
    (hwds : ∀ i, i < a.base + a.routine.layout.words → v'.words[i]? = v.words[i]?)
    (hsize : v.slots.size ≤ v'.slots.size) : Frame W v' a where
  routine := ha.routine
  size := ha.size
  roles r s ρ hs hr := (ha.roles r s ρ hs hr).mono hsize
  values r x hx := by
    obtain ⟨hx, d, hd, hword⟩ := ha.values r x hx
    have hlt : d + 1 < a.base + a.routine.layout.words := by
      have := ha.spillWord_bounds hW hd
      omega
    exact ⟨hlv x (d + 1) hlt hword hx, d, hd, (hwds _ hlt).trans hword⟩

theorem define_eq (hr : (W.cert a).HasRole r ρ) (s : Scalar)
    {h : Host} (hdep : a.base + a.routine.layout.words ≤ h.stack.depth) :
    a.define r s h = .ok (a.put r s) { h with stack := a.kept r s h.stack } := by
  have hlt := ha.lt_size hW hr
  have hput : ∀ h : Host, (do
      if r < a.registers.size then
        return { a with registers := a.registers.setIfInBounds r (some s) }
      else Host.fault (.outOfRange r) : Act Activation) h = .ok (a.put r s) h := by
    intro h
    rw [if_pos hlt]
    rfl
  unfold Activation.define Activation.kept
  cases s with
  | value x =>
    cases hd : a.spillWord r with
    | none => exact hput h
    | some d =>
      have hbounds := ha.spillWord_bounds hW hd
      have hspill : Activation.spill d x h =
          .ok () { h with stack := h.stack.putValue d x } := by
        unfold Activation.spill
        rw [if_pos (by omega)]
      exact (Host.bind_ok hspill).trans (hput _)
  | _ => exact hput h

theorem getElem?_kept_below (stack : Stack) {i : Nat}
    (hi : i < a.base) : (a.kept r s stack).words[i]? = stack.words[i]? := by
  unfold Activation.kept
  split
  · next x d hd =>
    have := ha.spillWord_bounds hW hd
    simp only [Stack.putValue]
    rw [Array.getElem?_setIfInBounds_ne (by omega), Array.getElem?_setIfInBounds_ne (by omega)]
  · rfl

theorem put (hr : (W.cert a).HasRole r ρ)
    (hs : Holds W v.slots.size a.base (Layout.cellCount a.routine.function) ρ s)
    (hlv : ∀ x, s = .value x → v.live x) {stack : Stack} (hwds : v.words = stack.words)
    (hdep : a.base + a.routine.layout.words ≤ stack.depth) :
    Frame W { v with words := (a.kept r s stack).words } (a.put r s) where
  routine := ha.routine
  size := by
    show (a.registers.setIfInBounds r (some s)).size = _
    rw [Array.size_setIfInBounds]
    exact ha.size
  roles := by
    intro r' s' ρ' hs' hr'
    rw [Activation.getElem?_put (ha.lt_size hW hr)] at hs'
    split at hs'
    · next heq =>
      subst heq
      cases hs'
      obtain rfl := hr.unique hr'
      exact hs
    · exact ha.roles r' s' ρ' hs' hr'
  values := by
    intro r' x hx
    rw [Activation.getElem?_put (ha.lt_size hW hr)] at hx
    split at hx
    · next heq =>
      subst heq
      cases hx
      obtain rfl : ρ = .value := by
        cases ρ <;> first | rfl | simp [Holds] at hs
      obtain ⟨d, hd⟩ := ha.exists_spillWord hW hr
      -- the word of the register on the stack is written along with it
      refine ⟨hlv x rfl, d, hd, ?_⟩
      have hbounds := ha.spillWord_bounds hW hd
      have hlt : d + 1 < stack.words.size := by
        unfold Stack.depth at hdep
        omega
      show (a.kept r' (.value x) stack).words[d + 1]? = some x.word
      simp only [Activation.kept, hd, Stack.putValue]
      rw [Array.getElem?_setIfInBounds_self_of_lt (by simpa using hlt)]
    · next hne =>
      obtain ⟨hx, d', hd', hword⟩ := ha.values r' x hx
      refine ⟨hx, d', hd', ?_⟩
      show (a.kept r s stack).words[d' + 1]? = some x.word
      rw [hwds] at hword
      unfold Activation.kept
      split
      · next y d hd =>
        -- words of different registers do not overlap
        have := ha.spillWord_apart hW hd hd' (Ne.symm hne)
        simp only [Stack.putValue]
        rw [Array.getElem?_setIfInBounds_ne (by omega), Array.getElem?_setIfInBounds_ne (by omega)]
        exact hword
      · exact hword

end

/-! ## Operands -/

/-- What an operand of a role gives. -/
structure Gives (W : World) (v : View) (a : Activation) (t : Typed) (ρ : Role) (s : Scalar) : Prop where
  typed : a.typed W.image t = .ok s
  holds : Holds W v.slots.size a.base (Layout.cellCount a.routine.function) ρ s
  live : ∀ x, s = .value x → v.live x

theorem register (ha : Frame W v a) (hr : (W.cert a).HasRole r ρ) (hdefd : a.Defined r) (ty : Ty) :
    ∃ s, Gives W v a ⟨ty, .reg r⟩ ρ s ∧ a.registers[r]? = some (some s) := by
  obtain ⟨s, hs⟩ := hdefd
  refine ⟨s, ⟨?_, ha.roles r s ρ hs hr, ?_⟩, hs⟩
  · have hread : a.register r = .ok s := by
      unfold Activation.register
      rw [hs]
    unfold Activation.typed
    split <;> first | exact hread | (next h => cases h)
  · rintro x rfl
    exact (ha.values r x hs).1

theorem typed (ha : Frame W v a) (hW : W.Sound) {t : Typed}
    (ht : (W.cert a).Gives W.interface known t ρ) (hknown : ∀ r, known r → a.Defined r) :
    ∃ s, Gives W v a t ρ s := by
  cases ht with
  | reg type role written =>
    obtain ⟨s, hs, -⟩ := ha.register role (hknown _ written) _
    exact ⟨s, hs⟩
  | @int n ty width =>
    refine ⟨.int n, ?_, ⟨n, rfl⟩, nofun⟩
    cases ty <;> rfl
  | @bool b => exact ⟨.ofBool b, rfl, ⟨_, rfl⟩, nofun⟩
  | @float x => exact ⟨.float x, rfl, ⟨x, rfl⟩, nofun⟩
  | @text id pooled =>
    exact ⟨.ptr (.text id), rfl, ⟨id, rfl, hW.texts ▸ pooled⟩, nofun⟩
  | @operator op =>
    exact ⟨.int (Int64.ofNat op.code), rfl, ⟨op, rfl⟩, nofun⟩

theorem mapM_typed (ha : Frame W v a) (hW : W.Sound) {ts : List Typed} {ρs : List Role}
    (hts : List.Forall₂ ((W.cert a).Gives W.interface known) ts ρs)
    (hknown : ∀ r, known r → a.Defined r) :
    ∃ ss, ts.mapM (a.typed W.image) = .ok ss ∧
      List.Forall₂ (fun ρ s => Holds W v.slots.size a.base (Layout.cellCount a.routine.function) ρ s ∧
        ∀ x, s = .value x → v.live x) ρs ss := by
  induction hts with
  | nil => exact ⟨[], rfl, .nil⟩
  | @cons t ρ ts ρs ht hts ih =>
    obtain ⟨s, hs⟩ := ha.typed hW ht hknown
    obtain ⟨ss, hss, hall⟩ := ih
    refine ⟨s :: ss, ?_, .cons ⟨hs.holds, hs.live⟩ hall⟩
    rw [List.mapM_cons, hs.typed, hss]
    rfl

end Frame

end Ember.Machine
