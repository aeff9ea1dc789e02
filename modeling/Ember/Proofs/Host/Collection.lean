import Ember.Host.Guest
import Ember.Proofs.Heap.Collection

/-!
# Ember — what a collection of the host keeps

The roots of a host are the owners of the words on its machine stack, the registered slots and the
current exception. A collection keeps what can be reached from them and the pinned objects, and
nothing else.

Main result: `retained_collected`.
-/

namespace Ember

open Heap (Reaches)

variable {h : Host} {a : Nat}

/-! ## Queueing -/

namespace Heap

/-- The heap with another queue. -/
def queued (h : Heap) (queue : List Nat) : Heap :=
  { h with pending := queue }

theorem searchDown_queued (h : Heap) (queue : List Nat) (byte region count : Nat) :
    (h.queued queue).searchDown byte region count = h.searchDown byte region count := by
  induction count generalizing region with
  | zero => rfl
  | succ count ih =>
    rw [searchDown, searchDown, ih]
    rfl

@[simp] theorem ownerOf_queued (h : Heap) (queue : List Nat) (byte : Nat) :
    (h.queued queue).ownerOf byte = h.ownerOf byte := by
  unfold ownerOf
  rw [searchDown_queued]
  rfl

theorem markWord_queued (h : Heap) (queue : List Nat) (word : Nat) :
    (h.queued queue).markWord word = h.queued ((h.ownerOf word).toList ++ queue) := by
  unfold markWord
  rw [ownerOf_queued]
  cases h.ownerOf word <;> rfl

theorem foldl_markWord (h : Heap) (words : List UInt64) (queue : List Nat) :
    words.foldl (fun heap w => heap.markWord w.toNat) (h.queued queue) =
      h.queued ((words.filterMap fun w => h.ownerOf w.toNat).reverse ++ queue) := by
  induction words generalizing queue with
  | nil => rfl
  | cons w rest ih =>
    rw [List.foldl_cons, markWord_queued, ih, List.filterMap_cons]
    cases h.ownerOf w.toNat <;> simp

theorem foldl_mark (h : Heap) (addresses : List (Option Nat)) (queue : List Nat) :
    addresses.foldl (fun heap a => a.elim heap heap.mark) (h.queued queue) =
      h.queued ((addresses.filterMap id).reverse ++ queue) := by
  induction addresses generalizing queue with
  | nil => rfl
  | cons a rest ih =>
    cases a with
    | none => exact ih queue
    | some a =>
      show List.foldl _ (h.queued (a :: queue)) rest = _
      rw [ih]
      simp

end Heap

namespace Host

/-! ## Roots -/

/-- The roots of a host: the owners of the words that are scanned, what the registered slots refer
to, and what the current exception refers to. -/
def IsRoot (h : Host) (a : Nat) : Prop :=
  (∃ w ∈ h.stack.scan, h.heap.ownerOf w.toNat = some a) ∨
  (∃ slot ∈ h.roots.slots, ∃ v, h.slots[slot]? = some v ∧ v.address? = some a) ∨
  (∃ v, h.exception = some v ∧ v.address? = some a)

/-- Whether an object is pinned. -/
def IsPinned (h : Heap) (a : Nat) : Prop :=
  ∃ c, h.cells[a]? = some c ∧ c.pinned = true

/-- What a collection keeps: the objects that the roots reach, and the pinned ones. -/
def Retained (h : Host) (a : Nat) : Prop :=
  Reaches h.heap.cells h.IsRoot a ∨ IsPinned h.heap a

/-- The heap is well-formed and no collection is under way, and the registered slots exist. -/
structure Orderly (h : Host) : Prop where
  wellFormed : h.heap.WellFormed
  unmarked : h.heap.Unmarked
  idle : h.heap.pending = []
  slots : ∀ slot ∈ h.roots.slots, slot < h.slots.size

theorem Orderly.withStack (ho : h.Orderly) (stack : Stack) : Orderly { h with stack } :=
  ⟨ho.wellFormed, ho.unmarked, ho.idle, ho.slots⟩

/-- The addresses of the registered slots. -/
def slotAddresses (h : Host) : List (Option Nat) :=
  h.roots.slots.toList.map fun slot => (h.slots[slot]?).bind Value.address?

/-- Everything that a collection starts from. -/
def rootQueue (h : Host) : List Nat :=
  ((h.slotAddresses ++ [h.exception.bind Value.address?]).filterMap id).reverse ++
    (h.stack.scan.filterMap fun w => h.heap.ownerOf w.toNat).reverse

theorem mapM_rootAddress (slots : Array Value) (l : List Nat) (hl : ∀ slot ∈ l, slot < slots.size) :
    l.mapM (rootAddress slots) = .ok (l.map fun slot => (slots[slot]?).bind Value.address?) := by
  induction l with
  | nil => rfl
  | cons slot rest ih =>
    have hslot : slot < slots.size := hl slot (List.mem_cons_self ..)
    have hrest := ih fun s hs => hl s (.tail _ hs)
    have hhead : rootAddress slots slot = .ok ((slots[slot]?).bind Value.address?) := by
      simp [rootAddress, hslot]
    rw [List.mapM_cons, hhead, hrest]
    rfl

theorem markRoots_eq (ho : h.Orderly) : h.markRoots = .ok (h.heap.queued h.rootQueue) := by
  have hidle : h.heap = h.heap.queued [] := by
    unfold Heap.queued
    rw [← ho.idle]
  have hslt : h.roots.slots.toList.mapM (rootAddress h.slots) = .ok h.slotAddresses :=
    mapM_rootAddress _ _ fun slot hs => ho.slots slot (Array.mem_toList_iff.mp hs)
  unfold markRoots
  rw [hslt]
  show Except.ok _ = _
  nth_rewrite 1 [hidle]
  rw [Heap.foldl_markWord, Heap.foldl_mark, List.append_nil]
  rfl

theorem mem_rootQueue : a ∈ h.rootQueue ↔ h.IsRoot a := by
  unfold rootQueue IsRoot slotAddresses
  simp only [List.mem_append, List.mem_reverse, List.mem_filterMap, List.mem_map, id_eq,
    exists_eq_right, List.mem_singleton, Array.mem_toList_iff]
  constructor
  · rintro ((⟨slot, hs, hv⟩ | hv) | ⟨w, hw, ho⟩)
    · exact Or.inr (Or.inl ⟨slot, hs, Option.bind_eq_some_iff.mp hv⟩)
    · exact Or.inr (Or.inr (Option.bind_eq_some_iff.mp hv.symm))
    · exact Or.inl ⟨w, hw, ho⟩
  · rintro (⟨w, hw, ho⟩ | ⟨slot, hs, hv⟩ | hv)
    · exact Or.inr ⟨w, hw, ho⟩
    · exact Or.inl (Or.inl ⟨slot, hs, Option.bind_eq_some_iff.mpr hv⟩)
    · exact Or.inl (Or.inr (Option.bind_eq_some_iff.mpr hv).symm)

/-! ## Collections -/

/-- The heap after a collection. -/
def collected (h : Host) : Heap :=
  (h.heap.queued h.rootQueue).trace.sweep.2

/-- The number of objects that a collection frees. -/
def freed (h : Host) : Nat :=
  (h.heap.queued h.rootQueue).trace.sweep.1

theorem sameLayout_marked (h : Host) : h.heap.SameLayout (h.heap.queued h.rootQueue).trace := by
  have hs := Heap.sameLayout_trace (h.heap.queued h.rootQueue)
  exact ⟨hs.links, hs.widest, hs.envelope, hs.nextFree, hs.liveObjects, hs.liveBytes, hs.stats,
    hs.sizes⟩

theorem collect_eq (ho : h.Orderly) : collect h = .ok h.freed { h with heap := h.collected } := by
  obtain ⟨-, -, hall, -⟩ := ((sameLayout_marked h).wellFormed ho.wellFormed).sweepAll_eq
  have hswept : (h.markRoots >>= fun heap => heap.trace.sweepAll) = .ok (h.freed, h.collected) := by
    rw [markRoots_eq ho]
    exact hall
  unfold collect
  rw [hswept]

open Classical in
theorem getElem?_marked (ho : h.Orderly) (a : Nat) :
    (h.heap.queued h.rootQueue).trace.cells[a]? = (h.heap.cells[a]?).map fun c =>
      { c with marked := decide (Reaches h.heap.cells h.IsRoot a) } := by
  have hu : (h.heap.queued h.rootQueue).Unmarked := ho.unmarked
  have hroot : (fun a => a ∈ h.rootQueue) = h.IsRoot := by
    funext a
    exact propext mem_rootQueue
  rw [Heap.getElem?_trace hu, ← hroot]
  rfl

theorem survives_marked (ho : h.Orderly) (a : Nat) :
    (h.heap.queued h.rootQueue).trace.survives a = true ↔ h.Retained a := by
  classical
  rw [Heap.survives_iff, getElem?_marked ho]
  unfold Retained IsPinned
  constructor
  · rintro ⟨c, hc, hmark⟩
    obtain ⟨d, hd, rfl⟩ := Option.map_eq_some_iff.mp hc
    rcases hmark with hmark | hpin
    · exact Or.inl (of_decide_eq_true hmark)
    · exact Or.inr ⟨d, hd, hpin⟩
  · rintro (hr | ⟨c, hc, hpin⟩)
    · obtain ⟨c, hc⟩ := (NatMap.mem_iff_getElem? _ _).mp hr.mem
      exact ⟨_, by rw [hc]; rfl, Or.inl (decide_eq_true hr)⟩
    · exact ⟨_, congrArg (Option.map _) hc, Or.inr hpin⟩

open Classical in
/-- **A collection is exact**: it keeps what is retained, as it was, and frees everything else. -/
theorem getElem?_collected (ho : h.Orderly) (a : Nat) :
    h.collected.cells[a]? = if h.Retained a then h.heap.cells[a]? else none := by
  have hw := (sameLayout_marked h).wellFormed ho.wellFormed
  show (h.heap.queued h.rootQueue).trace.sweep.2.cells[a]? = _
  rw [Heap.getElem?_sweep hw]
  by_cases hr : h.Retained a
  · rw [if_pos ((survives_marked ho a).mpr hr), if_pos hr, getElem?_marked ho, Option.map_map]
    cases hc : h.heap.cells[a]? with
    | none => rfl
    | some c =>
      have := ho.unmarked a c hc
      cases c
      simp_all
  · rw [if_neg (fun hs => hr ((survives_marked ho a).mp hs)), if_neg hr]

theorem orderly_collected (ho : h.Orderly) : Orderly { h with heap := h.collected } := by
  have hw := (sameLayout_marked h).wellFormed ho.wellFormed
  exact ⟨hw.sweep, Heap.unmarked_sweep hw, (Heap.trims_sweep _).pending, ho.slots⟩

theorem freed_add_size (ho : h.Orderly) : h.freed + h.collected.cells.size = h.heap.cells.size := by
  have hsame := sameLayout_marked h
  have hw := hsame.wellFormed ho.wellFormed
  have hcnt := hw.length_filter_survives
  have hafter := hw.sweep.objects_eq_size
  have hbef := ho.wellFormed.objects_eq_size
  rw [hw.sweep.objects_eq] at hafter
  rw [ho.wellFormed.objects_eq] at hbef
  rw [hsame.live] at hcnt
  have hlv := hw.live_sweep.1
  rw [hsame.live] at hlv
  unfold freed collected
  rw [← hafter, hlv, ← hbef]
  omega

theorem threshold_collected (ho : h.Orderly) :
    h.collected.threshold = max (h.collected.cells.size * 2) h.heap.minThreshold := by
  have hw := (sameLayout_marked h).wellFormed ho.wellFormed
  rw [show h.collected.cells.size = h.collected.liveObjects from hw.sweep.objects_eq_size.symm]
  exact hw.threshold_sweep.trans (by rw [(Heap.trims_sweep _).minThreshold]; rfl)

theorem nextFree_collected (h : Host) : h.collected.nextFree = h.heap.nextFree :=
  (Heap.trims_sweep _).nextFree

/-! ## A second collection -/

theorem ownerOf_collected (ho : h.Orderly) {word : Nat} (hr : h.Retained a)
    (hown : h.heap.ownerOf word = some a) : h.collected.ownerOf word = some a := by
  rw [Heap.ownerOf_eq_some_iff ho.wellFormed, Heap.WellFormed.covers_iff] at hown
  rw [Heap.ownerOf_eq_some_iff (orderly_collected ho).wellFormed, Heap.WellFormed.covers_iff]
  classical
  rw [getElem?_collected ho, if_pos hr]
  exact hown

theorem retained_collected (ho : h.Orderly) (a : Nat) :
    Retained { h with heap := h.collected } a ↔ h.Retained a := by
  classical
  have hget := getElem?_collected ho
  constructor
  · intro hr
    have hmem : a ∈ h.collected.cells := by
      rcases hr with hr | ⟨c, hc, -⟩
      · exact hr.mem
      · exact (NatMap.mem_iff_getElem? _ _).mpr ⟨c, hc⟩
    obtain ⟨c, hc⟩ := (NatMap.mem_iff_getElem? _ _).mp hmem
    rw [hget] at hc
    by_contra hnot
    rw [if_neg hnot] at hc
    simp at hc
  · rintro (hr | ⟨c, hc, hpin⟩)
    · refine Or.inl (hr.mono (fun b hroot hmem => ?_) fun b c hb hc => ⟨c, ?_, rfl⟩)
      · have hb : h.Retained b := Or.inl (.root hroot hmem)
        rcases hroot with ⟨w, hw, hown⟩ | hslot | hexc
        · exact Or.inl ⟨w, hw, ownerOf_collected ho hb hown⟩
        · exact Or.inr (Or.inl hslot)
        · exact Or.inr (Or.inr hexc)
      · have hb : h.Retained b := Or.inl hb
        show h.collected.cells[b]? = some c
        rw [hget, if_pos hb, hc]
    · have ha : h.Retained a := Or.inr ⟨c, hc, hpin⟩
      refine Or.inr ⟨c, ?_, hpin⟩
      show h.collected.cells[a]? = some c
      rw [hget, if_pos ha, hc]

end Host

end Ember
