import Ember.Proofs.Heap.WellFormed

/-!
# Ember — the owner of a word is exact

The search for the owner of a word looks at a few chains only: those of the regions in which an
object that contains the word can start. In a well-formed heap this finds the one object that
contains the word, whenever there is one.

Main result: `ownerOf_address`.
-/

namespace Ember.Heap

variable {a byte region : Nat}

variable {h : Heap}

theorem findInRegion_eq (h : Heap) (byte region : Nat) :
    h.findInRegion byte region = (h.region region).find? (h.covers byte) :=
  Links.search_eq ..

theorem covers_of_findInRegion (hf : h.findInRegion byte region = some a) :
    h.covers byte a = true := by
  rw [findInRegion_eq] at hf
  exact List.find?_some hf

theorem covers_of_searchDown (count : Nat) (hf : h.searchDown byte region count = some a) :
    h.covers byte a = true := by
  induction count generalizing region with
  | zero => exact covers_of_findInRegion hf
  | succ count ih =>
    rw [searchDown] at hf
    rcases Option.or_eq_some_iff.mp hf with hfound | ⟨-, hfound⟩
    · exact covers_of_findInRegion hfound
    · exact ih hfound

theorem searchDown_isSome (count : Nat) {r : Nat} (hlow : region ≤ r + count) (hhigh : r ≤ region)
    (hr : (h.findInRegion byte r).isSome) : (h.searchDown byte region count).isSome := by
  induction count generalizing region with
  | zero =>
    have : r = region := by omega
    rw [searchDown, ← this]
    exact hr
  | succ count ih =>
    rw [searchDown]
    by_cases heq : r = region
    · rw [← heq]
      simp [hr]
    · have hbelow : (h.searchDown byte (region - 1) count).isSome := ih (by omega) (by omega)
      simp [hbelow]

/-- In a well-formed heap, the chain of its region leads to an object that contains a byte. -/
theorem findInRegion_isSome (hw : h.WellFormed) (hc : h.covers byte a = true) :
    (h.findInRegion byte (regionOf (startOf a))).isSome := by
  obtain ⟨c, hcell, -⟩ := WellFormed.covers_iff.mp hc
  have hmem : a ∈ h.region (regionOf (startOf a)) :=
    (hw.mem_region _ _).mpr ⟨(NatMap.mem_iff_getElem? _ _).mpr ⟨c, hcell⟩, rfl⟩
  rw [findInRegion_eq]
  exact List.find?_isSome.mpr ⟨a, hmem, hc⟩

theorem regionOf_start_mem_span (hw : h.WellFormed) (hc : h.covers byte a = true) :
    regionOf (byte - h.widest) ≤ regionOf (startOf a) ∧ regionOf (startOf a) ≤ regionOf byte := by
  obtain ⟨c, hcell, hlow, hhigh⟩ := WellFormed.covers_iff.mp hc
  have hwide := hw.le_widest a c hcell
  have hplcd := (hw.placed a c hcell).low
  have hst : byte - h.widest ≤ startOf a := by
    simp only [Cell.footprint, startOf, endOf, headerSize] at *
    omega
  unfold regionOf
  exact ⟨Nat.div_le_div_right hst, Nat.div_le_div_right hlow⟩

/-- **Ownership is exact**: the owner of a word is the live object that contains it. -/
theorem ownerOf_eq_some_iff (hw : h.WellFormed) :
    h.ownerOf byte = some a ↔ h.covers byte a = true := by
  unfold ownerOf
  constructor
  · intro hown
    split at hown
    · simp at hown
    · exact covers_of_searchDown _ hown
  · intro hc
    obtain ⟨c, hcell, hlow, hhigh⟩ := WellFormed.covers_iff.mp hc
    have hplcd := (hw.placed a c hcell).low
    have hpos : byte ≠ 0 := by
      simp only [startOf, firstByte, headerSize] at *
      omega
    have henv : h.inEnvelope byte = true := by
      obtain ⟨low, high, henv, hl, hu⟩ := hw.in_envelope a c hcell
      simp only [inEnvelope, henv, Option.any_some, Bool.and_eq_true, decide_eq_true_eq]
      omega
    rw [if_neg (by simp [hpos, henv])]
    -- the search passes the region of `a`, and whatever it finds contains the byte
    have hspan := regionOf_start_mem_span hw hc
    have hsome : (h.searchDown byte (regionOf byte)
        (regionOf byte - regionOf (byte - h.widest))).isSome :=
      searchDown_isSome _ (by omega) hspan.2 (findInRegion_isSome hw hc)
    obtain ⟨b, hb⟩ := Option.isSome_iff_exists.mp hsome
    rw [hb, hw.eq_of_covers (covers_of_searchDown _ hb) hc]

theorem ownerOf_address (hw : h.WellFormed) {c : Cell} (hc : h.cells[a]? = some c)
    (hsize : 0 < c.size) : h.ownerOf a = some a := by
  rw [ownerOf_eq_some_iff hw, WellFormed.covers_iff]
  refine ⟨c, hc, ?_, ?_⟩
  · unfold startOf
    omega
  · have := le_align c.size
    unfold endOf
    omega

end Ember.Heap
