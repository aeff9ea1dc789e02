import Ember.Proofs.Ir.Comments
import Ember.Proofs.Ir.Naming

/-!
# Ember — the steps that code is written by

Whatever is compiled, the code for it is written by a few kinds of steps: registers without names,
blocks, instructions, and notes about loops and protected regions. What all these steps keep, the
construction keeps. So it gives no register a name, and comments make no difference to it.

Main results: `Draft.Composed.quiet`, `Draft.Composed.indifferent`.
-/

namespace Ember.Ir.Draft

variable {α β : Type}

/-- Construction by steps that name no register and add no comment. -/
class inductive Composed : {α : Type} → Drafting α → Prop
  | pure {α : Type} (a : α) : Composed (Pure.pure a)
  | fail {α : Type} (f : Fault) : Composed (fail f : Drafting α)
  | look {α : Type} {f : Draft → Drafting α} (same : ∀ d, f d.strip = f d)
      (next : ∀ d, Composed (f d)) : Composed (get >>= f)
  | bind {α β : Type} {x : Drafting α} {f : α → Drafting β} (first : Composed x)
      (next : ∀ a, Composed (f a)) : Composed (x >>= f)
  | register (ty : Ty) : Composed (register ty)
  | block {label : String} (known : label ∈ labels) : Composed (block label)
  | push {i : Instr} (code : i.isComment = false) : Composed (push i)
  | pushPrologue {i : Instr} (code : i.isComment = false) : Composed (pushPrologue i)
  /-- A change that is neither to the registers nor to the blocks. -/
  | note {g : Draft → Draft} (same : ∀ d, (g d).symbol = d.symbol ∧
      (g d).registers = d.registers ∧ (g d).blocks = d.blocks) (strips : ∀ d, g d.strip = (g d).strip) :
      Composed (modify g)
  | exitTry : Composed exitTry

theorem Composed.quiet {x : Drafting α} (hx : Composed x) : Quiet x := by
  induction hx with
  | pure a => exact .pure a
  | fail f => exact .fail f
  | look _ _ hf => exact .bind .get hf
  | bind _ _ hx hf => exact .bind hx hf
  | register ty => exact quiet_register ty
  | block known => exact quiet_block known
  | push => exact quiet_push _
  | pushPrologue => exact quiet_pushPrologue _
  | note same => exact .modify same
  | exitTry => exact quiet_exitTry

theorem Composed.indifferent {x : Drafting α} (hx : Composed x) : Inert x := by
  induction hx with
  | pure a => exact fun _ => rfl
  | fail f => exact fun _ => rfl
  | look same _ hf => exact .look same hf
  | bind _ _ hx hf => exact .bind hx hf
  | register ty => exact inert_register ty none
  | block => exact inert_block _
  | push code => exact inert_push code
  | pushPrologue code => exact inert_pushPrologue code
  | note _ strips => exact .modify strips
  | exitTry => exact inert_exitTry

attribute [instance] Composed.pure Composed.fail Composed.register Composed.exitTry

instance (x : Drafting α) (f : α → Drafting β) [hx : Composed x] [hf : ∀ a, Composed (f a)] :
    Composed (x >>= f) :=
  .bind hx hf

/-! ## Instructions -/

theorem composed_computed {ty : Ty} {make : Nat → Instr} (hmake : ∀ r, (make r).isComment = false) :
    Composed (do
      let r ← register ty
      push (make r)
      return r) :=
  .bind (.register ty) fun r => .bind (.push (hmake r)) fun _ => .pure r

instance (value : Typed) (dest : Operand) : Composed (store value dest) :=
  .push rfl

instance (ty : Ty) (source : Operand) : Composed (load ty source) :=
  composed_computed fun _ => rfl

instance (base index : Nat) : Composed (element base index) :=
  composed_computed fun _ => rfl

instance (predicate : Predicate) (lhs : Typed) (rhs : Operand) :
    Composed (compare predicate lhs rhs) :=
  composed_computed fun _ => rfl

instance (op : IntOp) (lhs : Nat) (rhs : Operand) : Composed (arith op lhs rhs) :=
  composed_computed fun _ => rfl

instance (callee : Callee) (arguments : List Typed) : Composed (call callee arguments) := by
  have hcall : ∀ dest, Composed (push (.call dest callee.result callee arguments)) :=
    fun _ => .push rfl
  unfold call
  split
  · infer_instance
  · rw [map_eq_pure_bind]
    infer_instance

instance (callee : Callee) (arguments : List Typed) : Composed (callFor callee arguments) := by
  refine .bind inferInstance fun dest => ?_
  cases dest <;> infer_instance

instance (callee : Callee) (arguments : List Typed) : Composed (callVoid callee arguments) := by
  refine .bind inferInstance fun dest => ?_
  cases dest <;> infer_instance

instance (b : Nat) : Composed (moveTo b) :=
  .note (fun _ => ⟨rfl, rfl, rfl⟩) fun _ => rfl

instance (i : Instr) : Composed (terminate i) := by
  unfold terminate
  split
  · next hi =>
    have hcode : i.isComment = false := by
      cases i with
      | comment => cases hi
      | _ => rfl
    exact .bind (.push hcode) fun _ => .bind (.block (by decide)) inferInstance
  · infer_instance

instance (dest : Nat) : Composed (jump dest) :=
  inferInstanceAs (Composed (terminate _))

instance (condition positive negative : Nat) : Composed (branch condition positive negative) :=
  inferInstanceAs (Composed (terminate _))

/-! ## Storage of the frame -/

instance (slot : Nat) : Composed (rootSlot slot) :=
  .bind (.pushPrologue rfl) fun _ => .bind (.pushPrologue rfl) fun _ => .bind (.pushPrologue rfl)
    fun _ => .note (fun _ => ⟨rfl, rfl, rfl⟩) fun _ => rfl

instance : Composed hiddenSlot := by
  unfold hiddenSlot
  infer_instance

instance (symbol : String) : Composed (globalRoot symbol) :=
  .pushPrologue rfl

instance (count : Nat) : Composed (cells count) :=
  .bind (.register .ptr) fun _ => .bind (.pushPrologue rfl) inferInstance

instance (initial : Operand) : Composed (counter initial) :=
  .bind (.bind (.register .ptr) fun _ => .bind (.pushPrologue rfl) inferInstance) inferInstance

instance (counter : Nat) : Composed (count counter) :=
  inferInstanceAs (Composed (load _ _))

instance (counter : Nat) (amount : Operand) : Composed (advance counter amount) := by
  unfold advance
  infer_instance

/-! ## Loops and protected regions -/

instance (leave next : Nat) : Composed (pushLoop leave next) :=
  .note (fun _ => ⟨rfl, rfl, rfl⟩) fun _ => rfl

instance : Composed popLoop :=
  .note (fun _ => ⟨rfl, rfl, rfl⟩) fun _ => rfl

instance : Composed innermostLoop :=
  .look (fun _ => rfl) inferInstance

instance : Composed enterTry :=
  .note (fun _ => ⟨rfl, rfl, rfl⟩) fun _ => rfl

instance (n : Nat) : Composed (popTries n) := by
  induction n with
  | zero => exact .pure ()
  | succ n ih =>
    unfold popTries
    infer_instance

instance (depth : Nat) : Composed (unwindTriesTo depth) :=
  .look (fun _ => rfl) inferInstance

instance (value : Option Nat) : Composed (emitReturn value) := by
  refine .bind inferInstance fun _ => .look (fun _ => rfl) fun d => ?_
  dsimp only
  split
  · exact .bind (.push rfl) inferInstance
  · infer_instance

/-! ## Registers with names -/

theorem gaining_localSlot (symbol : String) : Gaining [symbol] (localSlot symbol) :=
  .before (gaining_register .ptr (some symbol)) fun slot =>
    .bind (Composed.quiet inferInstance) fun _ => .pure slot

theorem inert_localSlot (symbol : String) : Inert (localSlot symbol) :=
  .bind (inert_register .ptr (some symbol)) fun _ =>
    .bind (Composed.indifferent inferInstance) fun _ _ => rfl

end Ember.Ir.Draft
