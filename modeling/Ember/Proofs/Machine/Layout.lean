import Mathlib
import Ember.Machine.Image

/-!
# Ember — where frames keep things

The words of a frame are apart: first come the cells, then two words for every register that holds
values. So what is written for one register leaves what is kept for another one alone.

Main results: `exists_cell`, `first_cell`.
-/

namespace Ember.Machine

open Ir (Instr Register)

variable {f : Ir.Function} {ty : Ir.Ty} {cells : List (Nat × Nat)} {is : List Instr}
  {rs : List Register} {count d i w : Nat} {r : Register}

namespace Layout

variable {l : Layout} {n : Nat}

/-- The number of cells of a function. -/
def cellCount (f : Ir.Function) : Nat :=
  (f.instrs.foldl addCell {}).words

/-- The words of registers lie behind the first `n` words, within the frame and apart. -/
structure Separate (n : Nat) (l : Layout) : Prop where
  within : ∀ (r w : Nat), l.spills[r]? = some (some w) → n ≤ w ∧ w + 2 ≤ l.words
  apart : ∀ (r r' w w' : Nat), l.spills[r]? = some (some w) → l.spills[r']? = some (some w') → r ≠ r' →
    w + 2 ≤ w' ∨ w' + 2 ≤ w
  room : n ≤ l.words

theorem Separate.addRegister (hl : l.Separate n) (r : Register) : (l.addRegister r).Separate n := by
  have hroom := hl.room
  unfold Layout.addRegister
  split
  · constructor
    · intro i w hw
      rw [Array.getElem?_push] at hw
      split at hw
      · cases hw
        exact ⟨hroom, Nat.le_refl _⟩
      · obtain ⟨hlow, hhigh⟩ := hl.within i w hw
        exact ⟨hlow, Nat.le_add_right_of_le hhigh⟩
    · intro i j w w' hw hw' hne
      rw [Array.getElem?_push] at hw hw'
      split at hw
      · split at hw'
        · omega
        · cases hw
          exact .inr (hl.within j w' hw').2
      · split at hw'
        · cases hw'
          exact .inl (hl.within i w hw).2
        · exact hl.apart i j w w' hw hw' hne
    · exact Nat.le_add_right_of_le hroom
  · have hold : ∀ (i w : Nat), (l.spills.push none)[i]? = some (some w) → l.spills[i]? = some (some w) := by
      intro i w hw
      rw [Array.getElem?_push] at hw
      split at hw
      · cases hw
      · exact hw
    exact ⟨fun i w hw => hl.within i w (hold i w hw),
      fun i j w w' hw hw' => hl.apart i j w w' (hold i w hw) (hold j w' hw'), hroom⟩

theorem Separate.addRegisters (hl : l.Separate n) (rs : List Register) :
    (rs.foldl Layout.addRegister l).Separate n := by
  induction rs generalizing l with
  | nil => exact hl
  | cons r rest ih => exact ih (hl.addRegister r)

theorem addCell_of_ne (l : Layout) (hty : ty ≠ .value) :
    l.addCell (.alloca d ty count) =
      { l with cells := (d, l.words) :: l.cells, words := l.words + 1 } :=
  if_neg hty

theorem addCell_cases (l : Layout) (i : Instr) : l.addCell i = l ∨ ∃ d ty count,
    i = .alloca d ty count ∧ ty ≠ .value ∧
      l.addCell i = { l with cells := (d, l.words) :: l.cells, words := l.words + 1 } := by
  cases i with
  | alloca d ty count =>
    by_cases hty : ty = .value
    · exact .inl (if_pos hty)
    · exact .inr ⟨d, ty, count, rfl, hty, addCell_of_ne l hty⟩
  | _ => exact .inl rfl

theorem spills_addCell (l : Layout) (i : Instr) : (l.addCell i).spills = l.spills := by
  rcases addCell_cases l i with h | ⟨d, ty, count, -, -, h⟩
  · rw [h]
  · rw [h]

theorem spills_addCells (l : Layout) (is : List Instr) : (is.foldl addCell l).spills = l.spills := by
  induction is generalizing l with
  | nil => rfl
  | cons i rest ih => exact (ih _).trans (spills_addCell l i)

theorem separate_of (f : Ir.Function) : (of f).Separate (cellCount f) := by
  refine Separate.addRegisters ⟨fun r w hw => ?_, fun r r' w w' hw => ?_, Nat.le_refl _⟩ _
  · rw [spills_addCells] at hw
    simp at hw
  · rw [spills_addCells] at hw
    simp at hw

/-! ## Registers that hold values -/

theorem getElem?_spills_addRegister (l : Layout) (r : Register) (i : Nat) :
    (l.addRegister r).spills[i]? = if i = l.spills.size then
      some (if r.ty = .value then some l.words else none) else l.spills[i]? := by
  unfold addRegister
  split
  · exact Array.getElem?_push
  · exact Array.getElem?_push

theorem getElem?_spills_addRegisters {w : Option Nat} (hw : l.spills[i]? = some w) :
    (rs.foldl addRegister l).spills[i]? = some w := by
  induction rs generalizing l with
  | nil => exact hw
  | cons r rest ih =>
    refine ih ?_
    rw [getElem?_spills_addRegister, if_neg, hw]
    have hlt := (Array.getElem?_eq_some_iff.mp hw).1
    omega

theorem exists_spill_addRegisters (hr : rs[i]? = some r) :
    ∃ w, (rs.foldl addRegister l).spills[l.spills.size + i]? =
      some (if r.ty = .value then some w else none) := by
  induction rs generalizing l i with
  | nil => simp at hr
  | cons r0 rest ih =>
    have hsize : (l.addRegister r0).spills.size = l.spills.size + 1 := by
      unfold addRegister
      split <;> simp
    cases i with
    | zero =>
      cases hr
      refine ⟨l.words, ?_⟩
      rw [List.foldl_cons]
      refine getElem?_spills_addRegisters ?_
      rw [getElem?_spills_addRegister, if_pos (Nat.add_zero _)]
    | succ i =>
      obtain ⟨w, hw⟩ := ih (l := l.addRegister r0) hr
      rw [hsize, Nat.add_assoc, Nat.add_comm 1] at hw
      exact ⟨w, hw⟩

theorem exists_spill (hr : f.registers.get? i = some r) :
    ∃ w, (of f).spills[i]? = some (if r.ty = .value then some w else none) := by
  have hlist : f.registers.toList[i]? = some r := by
    rw [Table.toList, Array.getElem?_toList]
    exact hr
  obtain ⟨w, hw⟩ := exists_spill_addRegisters (l := f.instrs.foldl addCell {}) hlist
  rw [spills_addCells, Array.size_empty, Nat.zero_add] at hw
  exact ⟨w, hw⟩

/-! ## Cells -/

theorem cells_addRegisters (l : Layout) (rs : List Register) :
    (rs.foldl addRegister l).cells = l.cells := by
  induction rs generalizing l with
  | nil => rfl
  | cons r rest ih =>
    refine (ih _).trans ?_
    unfold addRegister
    split <;> rfl

/-- Every cell is one of the words that were counted. -/
def Counted (l : Layout) : Prop :=
  ∀ p ∈ l.cells, p.2 < l.words

theorem Counted.addCell (hl : l.Counted) (i : Instr) : (l.addCell i).Counted := by
  rcases addCell_cases l i with h | ⟨d, ty, count, -, -, h⟩
  · rwa [h]
  · rw [h]
    exact List.forall_mem_cons.mpr ⟨Nat.lt_succ_self _, fun p hp => Nat.lt_succ_of_lt (hl p hp)⟩

theorem Counted.addCells (hl : l.Counted) (is : List Instr) : (is.foldl Layout.addCell l).Counted := by
  induction is generalizing l with
  | nil => exact hl
  | cons i rest ih => exact ih (hl.addCell i)

theorem mem_cells_addCells {p : Nat × Nat} (hp : p ∈ l.cells) : p ∈ (is.foldl addCell l).cells := by
  induction is generalizing l with
  | nil => exact hp
  | cons i rest ih =>
    refine ih ?_
    rcases addCell_cases l i with h | ⟨d, ty, count, -, -, h⟩
    · rwa [h]
    · rw [h]
      exact .tail _ hp

theorem mem_of_lookup (h : cells.lookup d = some w) : (d, w) ∈ cells := by
  obtain ⟨front, rest, rfl, -⟩ := List.lookup_eq_some_iff.mp h
  simp

theorem exists_lookup (h : (d, w) ∈ cells) : ∃ w', cells.lookup d = some w' := by
  cases hlookup : cells.lookup d with
  | some w' => exact ⟨w', rfl⟩
  | none =>
    have hall := List.lookup_eq_none_iff.mp hlookup (d, w) h
    simp at hall

theorem exists_cell (hi : .alloca d ty count ∈ f.instrs) (hty : ty ≠ .value) :
    ∃ w, (of f).cells.lookup d = some w ∧ w < cellCount f := by
  have hcells : (of f).cells = (f.instrs.foldl addCell {}).cells := cells_addRegisters _ _
  have hmem : ∃ w, (d, w) ∈ (f.instrs.foldl addCell {}).cells := by
    obtain ⟨front, rest, heq⟩ := List.append_of_mem hi
    rw [heq, List.foldl_append, List.foldl_cons]
    refine ⟨(front.foldl addCell {}).words, mem_cells_addCells ?_⟩
    rw [addCell_of_ne _ hty]
    exact .head _
  obtain ⟨w, hw⟩ := hmem
  obtain ⟨w', hw'⟩ := exists_lookup hw
  rw [hcells]
  exact ⟨w', hw', Counted.addCells (l := {}) nofun f.instrs _ (mem_of_lookup hw')⟩

theorem lookup_addCells (his : ∀ ty count, .alloca d ty count ∈ is → ty = .value)
    (hw : l.cells.lookup d = some w) : (is.foldl addCell l).cells.lookup d = some w := by
  induction is generalizing l with
  | nil => exact hw
  | cons i rest ih =>
    refine ih (fun ty count hi => his ty count (.tail _ hi)) ?_
    rcases addCell_cases l i with h | ⟨dest, ty, count, rfl, hty, h⟩
    · rwa [h]
    · have hne : dest ≠ d := by
        rintro rfl
        exact hty (his ty count (.head _))
      rw [h, List.lookup_cons, beq_eq_false_iff_ne.mpr hne.symm]
      exact hw

theorem first_cell {front rest : List Instr} (hf : f.instrs = front ++ .alloca d ty count :: rest)
    (hty : ty ≠ .value) (hfront : ∀ i ∈ front, ∀ d ty count, i ≠ .alloca d ty count)
    (hrest : ∀ ty count, .alloca d ty count ∈ rest → ty = .value) :
    (of f).cells.lookup d = some 0 := by
  have hcells : (of f).cells = (f.instrs.foldl addCell {}).cells := cells_addRegisters _ _
  have hnone : ∀ l : Layout, front.foldl addCell l = l := by
    intro l
    clear hf
    induction front with
    | nil => rfl
    | cons i tail ih =>
      have hi : l.addCell i = l := by
        rcases addCell_cases l i with h | ⟨d, ty, count, rfl, -, -⟩
        · exact h
        · exact absurd rfl (hfront _ (.head _) d ty count)
      rw [List.foldl_cons, hi]
      exact ih fun j hj => hfront j (.tail _ hj)
  rw [hcells, hf, List.foldl_append, List.foldl_cons, hnone]
  refine lookup_addCells hrest ?_
  rw [addCell_of_ne _ hty, List.lookup_cons, beq_self_eq_true]

end Layout

end Ember.Machine
