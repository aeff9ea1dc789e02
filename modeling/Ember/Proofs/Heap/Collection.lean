import Ember.Proofs.Heap.Ownership
import Ember.Proofs.Heap.Sweeping

/-!
# Ember — marking

Marking takes out of the white objects exactly those that can be reached from the queue, and leaves
the heap well-formed.

Main result: `getElem?_trace`.
-/

namespace Ember.Heap

variable {c : Cell} {h : Heap} {a : Nat}

/-! ## Reachability -/

/-- The smallest set of live addresses that has the live roots and follows references. -/
inductive Reaches (cells : NatMap Cell) (root : Nat → Prop) : Nat → Prop
  | root {a : Nat} : root a → a ∈ cells → Reaches cells root a
  | follow {a b : Nat} {c : Cell} : Reaches cells root a → cells[a]? = some c →
      b ∈ c.object.references → b ∈ cells → Reaches cells root b

namespace Reaches

variable {cells cells' : NatMap Cell} {root root' : Nat → Prop}

theorem mem (hr : Reaches cells root a) : a ∈ cells := by
  cases hr with
  | root _ hmem => exact hmem
  | follow _ _ _ hmem => exact hmem

theorem mono {a : Nat} (hr : Reaches cells root a)
    (hroot : ∀ a, root a → a ∈ cells → root' a)
    (hcell : ∀ a c, Reaches cells root a → cells[a]? = some c →
      ∃ d, cells'[a]? = some d ∧ d.object = c.object) : Reaches cells' root' a := by
  have hmem : ∀ {a : Nat}, Reaches cells root a → a ∈ cells' := by
    intro a ha
    obtain ⟨c, hc⟩ := (NatMap.mem_iff_getElem? _ _).mp ha.mem
    obtain ⟨d, hd, -⟩ := hcell a c ha hc
    exact (NatMap.mem_iff_getElem? _ _).mpr ⟨d, hd⟩
  induction hr with
  | root hr hm => exact .root (hroot _ hr hm) (hmem (.root hr hm))
  | follow hr hc href hm ih =>
    obtain ⟨d, hd, heq⟩ := hcell _ _ hr hc
    exact .follow ih hd (heq ▸ href) (hmem (.follow hr hc href hm))

theorem not_of_no_root (hroot : ∀ a, ¬ root a) : ¬ Reaches cells root a := by
  intro hr
  induction hr with
  | root hr _ => exact hroot _ hr
  | follow _ _ _ _ ih => exact ih

end Reaches

/-! ## Marking -/

theorem mem_erase {m : NatMap Cell} {k : Nat} : a ∈ m.erase k ↔ a ≠ k ∧ a ∈ m := by
  rw [NatMap.mem_iff_getElem?, NatMap.mem_iff_getElem?, NatMap.getElem?_erase]
  by_cases h : k = a
  · subst h
    simp
  · simp [h, Ne.symm h]

/-- Taking one queued object out of the white ones and queueing its references reaches the same
objects, apart from that one. -/
theorem reaches_erase {white : NatMap Cell} (hc : white[a]? = some c) (rest : List Nat) {b : Nat}
    (hb : b ≠ a) :
    Reaches (white.erase a) (· ∈ c.object.references ++ rest) b ↔
      Reaches white (· ∈ a :: rest) b := by
  have ha : a ∈ white := (NatMap.mem_iff_getElem? _ _).mpr ⟨c, hc⟩
  have hself : Reaches white (· ∈ a :: rest) a := .root (List.mem_cons_self ..) ha
  constructor
  · intro hr
    clear hb
    induction hr with
    | root hroot hmem =>
      have hmem := (mem_erase.mp hmem).2
      rcases List.mem_append.mp hroot with href | hrest
      · exact .follow hself hc href hmem
      · exact .root (.tail _ hrest) hmem
    | follow _ hd href hmem ih =>
      rw [NatMap.getElem?_erase] at hd
      split at hd
      · simp at hd
      · exact .follow ih hd href (mem_erase.mp hmem).2
  · intro hr
    -- a path that comes back to `a` can be cut there
    have hcut : ∀ {b : Nat}, Reaches white (· ∈ a :: rest) b →
        b = a ∨ Reaches (white.erase a) (· ∈ c.object.references ++ rest) b := by
      intro b hr
      induction hr with
      | @root b hroot hmem =>
        by_cases hba : b = a
        · exact Or.inl hba
        · refine Or.inr (.root (List.mem_append_right _ ?_) (mem_erase.mpr ⟨hba, hmem⟩))
          exact (List.mem_cons.mp hroot).resolve_left hba
      | @follow x b d hx hd href hmem ih =>
        by_cases hba : b = a
        · exact Or.inl hba
        · have hmem' : b ∈ white.erase a := mem_erase.mpr ⟨hba, hmem⟩
          rcases ih with rfl | ih
          · rw [hc] at hd
            cases hd
            exact Or.inr (.root (List.mem_append_left _ href) hmem')
          · have hxa := (mem_erase.mp ih.mem).1
            refine Or.inr (.follow ih ?_ href hmem')
            rw [NatMap.getElem?_erase, if_neg (Ne.symm hxa), hd]
    exact (hcut hr).resolve_left hb

theorem reaches_dropWhile (white : NatMap Cell) (queue : List Nat) :
    Reaches white (· ∈ queue) a ↔
      Reaches white (· ∈ queue.dropWhile fun a => !white.contains a) a := by
  constructor <;> intro hr
  · refine hr.mono (fun b hroot hmem => ?_) fun _ c _ hc => ⟨c, hc, rfl⟩
    rw [← List.takeWhile_append_dropWhile (p := fun a => !white.contains a) (l := queue)] at hroot
    refine (List.mem_append.mp hroot).resolve_left fun hskipped => ?_
    have := List.mem_takeWhile_imp hskipped
    simp [Std.TreeMap.mem_iff_contains.mp hmem] at this
  · exact hr.mono (fun b hroot _ => (List.dropWhile_sublist _).subset hroot)
      fun _ c _ hc => ⟨c, hc, rfl⟩

/-- **Marking is exact**: what stays white is what cannot be reached from the queue. -/
theorem mem_blacken_iff (white : NatMap Cell) (queue : List Nat) (a : Nat) :
    a ∈ blacken white queue ↔ a ∈ white ∧ ¬ Reaches white (· ∈ queue) a := by
  fun_induction blacken white queue with
  | case1 white queue hq =>
    have hnone : ¬ Reaches white (· ∈ queue) a := by
      rw [reaches_dropWhile, hq]
      exact Reaches.not_of_no_root (by simp)
    exact ⟨fun hmem => ⟨hmem, hnone⟩, fun hmem => hmem.1⟩
  | case2 white queue x rest hq hx ih =>
    obtain ⟨c, hc⟩ := (NatMap.mem_iff_getElem? _ _).mp hx
    have hget : white[x] = c := by
      have := Std.TreeMap.getElem?_eq_some_getElem hx
      rw [hc] at this
      exact (Option.some.inj this).symm
    rw [ih, hget, mem_erase, reaches_dropWhile white queue, hq]
    by_cases hax : a = x
    · subst hax
      have hself : Reaches white (· ∈ a :: rest) a := .root (List.mem_cons_self ..) hx
      exact iff_of_false (fun hleft => hleft.1.1 rfl) (fun hright => hright.2 hself)
    · rw [reaches_erase hc rest hax]
      simp [hax]

/-- No object is marked. -/
def Unmarked (h : Heap) : Prop :=
  ∀ (a : Nat) (c : Cell), h.cells[a]? = some c → c.marked = false

theorem getElem?_white (hu : h.Unmarked) (a : Nat) : h.white[a]? = h.cells[a]? := by
  unfold white
  rw [Std.TreeMap.getElem?_filter]
  cases hc : h.cells[a]? with
  | none => simp
  | some c =>
    rw [Option.pfilter_eq_some_iff]
    exact ⟨rfl, by simp [hu a c hc]⟩

theorem mem_white (hu : h.Unmarked) (a : Nat) : a ∈ h.white ↔ a ∈ h.cells := by
  rw [NatMap.mem_iff_getElem?, NatMap.mem_iff_getElem?, getElem?_white hu]

open Classical in
theorem getElem?_trace (hu : h.Unmarked) (a : Nat) :
    h.trace.cells[a]? = (h.cells[a]?).map fun c =>
      { c with marked := decide (Reaches h.cells (· ∈ h.pending) a) } := by
  show (Std.TreeMap.map _ h.cells)[a]? = _
  rw [NatMap.getElem?_map]
  cases hc : h.cells[a]? with
  | none => rfl
  | some c =>
    have hmem : a ∈ h.cells := (NatMap.mem_iff_getElem? _ _).mpr ⟨c, hc⟩
    have hiff : Reaches h.white (· ∈ h.pending) a ↔ Reaches h.cells (· ∈ h.pending) a := by
      constructor <;> intro hr
      · exact hr.mono (fun _ hroot _ => hroot) fun b d _ hd =>
          ⟨d, by rw [← getElem?_white hu, hd], rfl⟩
      · exact hr.mono (fun _ hroot _ => hroot) fun b d _ hd =>
          ⟨d, by rw [getElem?_white hu, hd], rfl⟩
    have hleft : (blacken h.white h.pending).contains a =
        !decide (Reaches h.cells (· ∈ h.pending) a) := by
      rw [Bool.eq_iff_iff, Std.TreeMap.contains_iff_mem, mem_blacken_iff, mem_white hu, hiff]
      simp [hmem]
    simp [hleft]

theorem sameLayout_trace (h : Heap) : h.SameLayout h.trace := by
  refine ⟨rfl, rfl, rfl, rfl, rfl, rfl, rfl, ?_⟩
  intro a
  show ((Std.TreeMap.map _ h.cells)[a]?).map Cell.size = _
  rw [NatMap.getElem?_map, Option.map_map]
  rfl

theorem unmarked_sweep (hw : h.WellFormed) : h.sweep.2.Unmarked := by
  intro a c hc
  obtain ⟨-, d, -, rfl⟩ := exists_of_sweep hw hc
  rfl

end Ember.Heap
