import Ember.Proofs.Heap.WellFormed

/-!
# Ember — sweeping

A sweep walks along the links and changes them on its way. `Sweeping` is its invariant. Visiting an
object keeps it, whether the object stays (`Sweeping.keep`) or goes (`Sweeping.release`), so the whole
walk does (`Sweeping.sweepFrom`): it meets every object, and none that is not there.

Main results: `WellFormed.sweepAll_eq`, `getElem?_sweep`, `WellFormed.sweep`.
-/

namespace Ember.Heap

open Links (Leads)

variable {h g : Heap} {c : Cell} {a : Nat} {kept rest : List Nat}

/-- Whether a sweep keeps the object at an address. -/
def survives (h : Heap) (a : Address) : Bool :=
  (h.cells[a]?).any fun c => c.marked || c.pinned

theorem survives_iff :
    h.survives a = true ↔ ∃ c, h.cells[a]? = some c ∧ (c.marked = true ∨ c.pinned = true) := by
  unfold survives
  cases h.cells[a]? <;> simp

/-! ## What no sweep changes -/

/-- A heap with fewer objects, and nothing else changed but what depends on them. -/
structure Trims (h g : Heap) : Prop where
  nextFree : g.nextFree = h.nextFree
  envelope : g.envelope = h.envelope
  pending : g.pending = h.pending
  minThreshold : g.minThreshold = h.minThreshold
  allocatedObjects : g.stats.allocatedObjects = h.stats.allocatedObjects
  allocatedBytes : g.stats.allocatedBytes = h.stats.allocatedBytes
  liveBytes_le : g.liveBytes ≤ h.liveBytes

theorem trims_sweepFrom {previous start : Option Nat} {widest freed n : Nat} {r : Heap × Nat × Nat}
    (hr : h.sweepFrom previous widest freed n start = .ok r) : h.Trims r.1 := by
  induction n generalizing h previous widest freed start with
  | zero =>
    cases start with
    | none => cases hr; exact ⟨rfl, rfl, rfl, rfl, rfl, rfl, Nat.le_refl _⟩
    | some a => cases hr
  | succ n ih =>
    cases start with
    | none => cases hr; exact ⟨rfl, rfl, rfl, rfl, rfl, rfl, Nat.le_refl _⟩
    | some a =>
      rw [sweepFrom] at hr
      cases hc : h.cells[a]? with
      | none => rw [hc] at hr; cases hr
      | some c =>
        simp only [hc] at hr
        split at hr
        · -- the object stays: only its mark changes
          have ht := ih hr
          exact ⟨ht.nextFree, ht.envelope, ht.pending, ht.minThreshold, ht.allocatedObjects,
            ht.allocatedBytes, ht.liveBytes_le⟩
        · -- the object goes, and its bytes with it
          rw [release] at hr
          cases hun : (h.links.unlink previous a).unchain h.contains h.liveObjects a
              (regionOf (startOf a)) with
          | error f => rw [hun] at hr; cases hr
          | ok links =>
            rw [hun] at hr
            have ht := ih hr
            exact ⟨ht.nextFree, ht.envelope, ht.pending, ht.minThreshold, ht.allocatedObjects,
              ht.allocatedBytes, ht.liveBytes_le.trans (Nat.sub_le ..)⟩

theorem trims_sweep (h : Heap) : h.Trims h.sweep.2 := by
  unfold sweep sweepAll
  cases hr : h.sweepFrom none 0 0 h.liveObjects h.links.head with
  | error f => exact ⟨rfl, rfl, rfl, rfl, rfl, rfl, Nat.le_refl _⟩
  | ok r =>
    have ht := trims_sweepFrom hr
    exact ⟨ht.nextFree, ht.envelope, ht.pending, ht.minThreshold, ht.allocatedObjects,
      ht.allocatedBytes, ht.liveBytes_le⟩

/-! ## The invariant -/

/-- A heap in the middle of a sweep of `h`: of the objects of `h`, newest first, `kept` were visited
and stay, `rest` is still to be visited, and the others are gone. -/
structure Sweeping (h : Heap) (kept rest : List Address) (g : Heap) : Prop where
  sublist : (kept ++ rest).Sublist h.live
  leads : Leads g.links.next g.links.head (kept ++ rest)
  leads_region : ∀ r,
    Leads g.links.nextInRegion g.links.heads[r]? ((h.region r).filter (· ∈ kept ++ rest))
  visited : ∀ a ∈ kept, g.cells[a]? = (h.cells[a]?).map fun c => { c with marked := false }
  unvisited : ∀ a ∈ rest, g.cells[a]? = h.cells[a]?
  gone : ∀ a, a ∉ kept ++ rest → g.cells[a]? = none
  objects : g.liveObjects = (kept ++ rest).length
  bytes : g.liveBytes = ((kept ++ rest).map h.footprintAt).sum
  freed_objects : g.stats.freedObjects + g.liveObjects = h.stats.freedObjects + h.liveObjects
  freed_bytes : g.stats.freedBytes + g.liveBytes = h.stats.freedBytes + h.liveBytes

namespace WellFormed

theorem region_nodup (hw : h.WellFormed) (r : Nat) : (h.region r).Nodup :=
  (hw.region_sorted r).imp fun hgt => Nat.ne_of_gt hgt

theorem exists_cell (hw : h.WellFormed) (ha : a ∈ h.live) : ∃ c, h.cells[a]? = some c :=
  (NatMap.mem_iff_getElem? _ _).mp ((hw.mem_live a).mp ha)

theorem length_filter_region_le (hw : h.WellFormed) (r : Nat) (l : List Nat) :
    ((h.region r).filter (· ∈ l)).length ≤ l.length := by
  have hsub : (h.region r).filter (· ∈ l) ⊆ l := by
    intro a ha
    simpa using (List.mem_filter.mp ha).2
  exact (((hw.region_nodup r).filter _).subperm hsub).length_le

theorem sweeping (hw : h.WellFormed) : Sweeping h [] h.live h where
  sublist := .refl _
  leads := hw.leads
  leads_region r := by
    have hall : (h.region r).filter (· ∈ [] ++ h.live) = h.region r := by
      refine List.filter_eq_self.mpr fun a ha => decide_eq_true ?_
      exact (hw.mem_live a).mpr ((hw.mem_region r a).mp ha).1
    rw [hall]
    exact hw.leads_region r
  visited _ ha := by cases ha
  unvisited _ _ := rfl
  gone a ha := NatMap.getElem?_eq_none _ fun hmem => ha ((hw.mem_live a).mpr hmem)
  objects := hw.objects_eq
  bytes := hw.bytes_eq
  freed_objects := rfl
  freed_bytes := rfl

end WellFormed

namespace Sweeping

theorem nodup (hs : Sweeping h kept rest g) (hw : h.WellFormed) : (kept ++ rest).Nodup :=
  hw.live_nodup.sublist hs.sublist

/-! ## Visiting one object -/

theorem keep (hs : Sweeping h kept (a :: rest) g) (hw : h.WellFormed) (hc : h.cells[a]? = some c) :
    Sweeping h (kept ++ [a]) rest { g with cells := g.cells.insert a { c with marked := false } } := by
  have hnd := hs.nodup hw
  have heq : kept ++ [a] ++ rest = kept ++ a :: rest := by simp
  have hget : ∀ b, a ≠ b → (g.cells.insert a { c with marked := false })[b]? = g.cells[b]? :=
    fun b hb => (NatMap.getElem?_insert ..).trans (if_neg hb)
  -- only the cell of the object itself is written; no link moves
  constructor
  case sublist => rw [heq]; exact hs.sublist
  case leads => rw [heq]; exact hs.leads
  case leads_region => rw [heq]; exact hs.leads_region
  case visited =>
    intro b hb
    rcases List.mem_append.mp hb with hb | hb
    · have hne : a ≠ b := by
        rintro rfl
        exact (List.nodup_append.mp hnd).2.2 a hb a (List.mem_cons_self ..) rfl
      rw [hget b hne]
      exact hs.visited b hb
    · obtain rfl := List.mem_singleton.mp hb
      rw [hc]
      exact (NatMap.getElem?_insert ..).trans (if_pos rfl)
  case unvisited =>
    intro b hb
    have hne : a ≠ b := by
      rintro rfl
      exact (List.nodup_cons.mp (List.nodup_append.mp hnd).2.1).1 hb
    rw [hget b hne]
    exact hs.unvisited b (.tail _ hb)
  case gone =>
    intro b hb
    rw [heq] at hb
    have hne : a ≠ b := fun h => hb (h ▸ by simp)
    rw [hget b hne]
    exact hs.gone b hb
  case objects => rw [heq]; exact hs.objects
  case bytes => rw [heq]; exact hs.bytes
  case freed_objects => exact hs.freed_objects
  case freed_bytes => exact hs.freed_bytes

/-- The links behind an object that goes: it leaves the list of all objects and the chain of its
region. -/
theorem exists_links (hs : Sweeping h kept (a :: rest) g) (hw : h.WellFormed)
    (hc : h.cells[a]? = some c) :
    ∃ links, (g.links.unlink kept.getLast? a).unchain g.contains g.liveObjects a
        (regionOf (startOf a)) = .ok links ∧
      Leads links.next links.head (kept ++ rest) ∧
      ∀ r, Leads links.nextInRegion links.heads[r]?
        (((h.region r).filter (· ∈ kept ++ a :: rest)).filter (· ≠ a)) := by
  have hlist := Links.leads_unlink hs.leads (hs.nodup hw)
  -- the list of all objects and the chains of the regions are rewritten one after the other
  have hheads : (g.links.unlink kept.getLast? a).heads = g.links.heads := by
    cases kept.getLast? <;> rfl
  have hchains : (g.links.unlink kept.getLast? a).nextInRegion = g.links.nextInRegion := by
    cases kept.getLast? <;> rfl
  have hmem : ∀ {r x}, x ∈ (h.region r).filter (· ∈ kept ++ a :: rest) →
      (x ∈ h.cells ∧ regionOf (startOf x) = r) ∧ x ∈ kept ++ a :: rest := by
    intro r x hx
    obtain ⟨hx, hin⟩ := List.mem_filter.mp hx
    exact ⟨(hw.mem_region r x).mp hx, of_decide_eq_true hin⟩
  -- every object that the walk through the region can meet is in the heap
  have hknown : ∀ x ∈ kept ++ a :: rest, x ∈ h.cells → g.contains x = true := by
    intro x hx hcell
    obtain ⟨d, hd⟩ := (NatMap.mem_iff_getElem? _ _).mp hcell
    refine Std.TreeMap.mem_iff_contains.mp ((NatMap.mem_iff_getElem? _ _).mpr ?_)
    rcases List.mem_append.mp hx with hx | hx
    · exact ⟨_, by rw [hs.visited x hx, hd]; rfl⟩
    · exact ⟨d, by rw [hs.unvisited x hx, hd]⟩
  have hin : a ∈ h.cells := (NatMap.mem_iff_getElem? _ _).mpr ⟨c, hc⟩
  obtain ⟨links, hun, hnext, hhead, hregion⟩ := Links.unchain_eq
    (g.links.unlink kept.getLast? a) g.contains g.liveObjects
    (fun r => (h.region r).filter (· ∈ kept ++ a :: rest))
    (by rw [hheads, hchains]; exact hs.leads_region)
    (fun r => (hw.region_nodup r).filter _)
    (fun r x hx hx' => (hmem hx).1.2.symm.trans (hmem hx').1.2)
    (fun x hx => hknown x (hmem hx).2 (hmem hx).1.1)
    (by rw [hs.objects]; exact hw.length_filter_region_le _ _)
    (List.mem_filter.mpr ⟨(hw.mem_region _ _).mpr ⟨hin, rfl⟩, by simp⟩)
  exact ⟨links, hun, hnext ▸ hhead ▸ hlist, hregion⟩

theorem release (hs : Sweeping h kept (a :: rest) g) (hw : h.WellFormed)
    (hc : h.cells[a]? = some c) :
    ∃ g', g.release kept.getLast? a c = .ok g' ∧ Sweeping h kept rest g' := by
  have hnd := hs.nodup hw
  obtain ⟨links, hun, hlist, hregion⟩ := hs.exists_links hw hc
  have hne : ∀ b ∈ kept ++ rest, a ≠ b := by
    rintro b hb rfl
    rcases List.mem_append.mp hb with hb | hb
    · exact (List.nodup_append.mp hnd).2.2 a hb a (List.mem_cons_self ..) rfl
    · exact (List.nodup_cons.mp (List.nodup_append.mp hnd).2.1).1 hb
  have hget : ∀ {α : Type} (m : NatMap α), ∀ b, a ≠ b → (m.erase a)[b]? = m[b]? :=
    fun m b hb => (NatMap.getElem?_erase ..).trans (if_neg hb)
  -- the footprint of the object is part of the live bytes, so nothing is cut off at zero
  have hbytes : ((kept ++ a :: rest).map h.footprintAt).sum =
      c.footprint + ((kept ++ rest).map h.footprintAt).sum := by
    have hat : h.footprintAt a = c.footprint := by simp [footprintAt, hc]
    simp only [List.map_append, List.map_cons, List.sum_append, List.sum_cons, hat]
    omega
  have hobjs := hs.objects
  have hsum := hs.bytes
  rw [hbytes] at hsum
  simp only [List.length_append, List.length_cons] at hobjs
  refine ⟨_, by rw [Heap.release, hun]; rfl, ?_⟩
  constructor
  case sublist => exact ((List.sublist_cons_self ..).append_left kept).trans hs.sublist
  case leads => exact hlist.congr fun b hb => hget _ b (hne b hb)
  case leads_region =>
    intro r
    -- what is on the shorter list is what is on the longer one and not `a`
    have hfilter : (h.region r).filter (· ∈ kept ++ rest) =
        ((h.region r).filter (· ∈ kept ++ a :: rest)).filter (· ≠ a) := by
      rw [List.filter_filter]
      refine List.filter_congr fun b _ => ?_
      have hiff : b ∈ kept ++ rest ↔ b ≠ a ∧ b ∈ kept ++ a :: rest := by
        have := hne b
        simp only [List.mem_append, List.mem_cons] at this ⊢
        tauto
      rw [Bool.eq_iff_iff]
      simpa using hiff
    rw [hfilter]
    refine (hregion r).congr fun b hb => hget _ b ?_
    exact fun h => of_decide_eq_true (List.mem_filter.mp hb).2 h.symm
  case visited =>
    intro b hb
    exact (hget _ b (hne b (List.mem_append_left _ hb))).trans (hs.visited b hb)
  case unvisited =>
    intro b hb
    exact (hget _ b (hne b (List.mem_append_right _ hb))).trans (hs.unvisited b (.tail _ hb))
  case gone =>
    intro b hb
    by_cases hba : a = b
    · exact (NatMap.getElem?_erase ..).trans (if_pos hba)
    · refine (hget _ b hba).trans (hs.gone b ?_)
      simp only [List.mem_append, List.mem_cons] at hb ⊢
      tauto
  case objects =>
    show g.liveObjects - 1 = _
    rw [List.length_append]
    omega
  case bytes =>
    show g.liveBytes - c.footprint = _
    omega
  case freed_objects =>
    show g.stats.freedObjects + 1 + (g.liveObjects - 1) = _
    have := hs.freed_objects
    omega
  case freed_bytes =>
    show g.stats.freedBytes + c.footprint + (g.liveBytes - c.footprint) = _
    have := hs.freed_bytes
    omega

/-! ## The whole walk -/

theorem sweepFrom (hs : Sweeping h kept rest g) (hw : h.WellFormed) (widest freed : Nat)
    {n : Nat} (hn : rest.length ≤ n) :
    ∃ g', g.sweepFrom kept.getLast? widest freed n rest.head? =
        .ok (g', ((rest.filter h.survives).map h.footprintAt).foldl max widest,
          freed + (rest.filter fun a => !h.survives a).length) ∧
      Sweeping h (kept ++ rest.filter h.survives) [] g' := by
  induction rest generalizing kept g widest freed n with
  | nil =>
    refine ⟨g, ?_, by simpa using hs⟩
    cases n <;> rfl
  | cons a rest ih =>
    -- the induction follows the objects still to come; the bound on steps covers them
    obtain ⟨n, rfl⟩ : ∃ m, n = m + 1 := ⟨n - 1, by simp at hn; omega⟩
    obtain ⟨c, hc⟩ := hw.exists_cell (hs.sublist.subset (a := a) (by simp))
    have hcell : g.cells[a]? = some c := (hs.unvisited a (List.mem_cons_self ..)).trans hc
    have hnext : g.links.next[a]? = rest.head? := hs.leads.of_append.start_eq
    have hlen : rest.length ≤ n := by simpa using hn
    rw [List.head?_cons, Heap.sweepFrom, hcell]
    simp only [hnext]
    -- a survivor becomes the last one kept, and a dead object is unlinked behind it
    by_cases hk : (c.marked || c.pinned) = true
    · have hsurvives : h.survives a = true := by simpa [survives, hc] using hk
      obtain ⟨g', hwalk, hg'⟩ := ih (hs.keep hw hc) (max widest c.footprint) freed hlen
      refine ⟨g', ?_, ?_⟩
      · rw [if_pos hk, ← List.getLast?_concat (l := kept) (a := a), hwalk]
        simp [hsurvives, footprintAt, hc]
      · simpa [hsurvives] using hg'
    · have hdies : h.survives a = false := by simpa [survives, hc] using hk
      obtain ⟨g₁, hrelease, hg₁⟩ := hs.release hw hc
      obtain ⟨g', hwalk, hg'⟩ := ih hg₁ widest (freed + 1) hlen
      refine ⟨g', ?_, ?_⟩
      · rw [if_neg hk, hrelease]
        show g₁.sweepFrom _ _ _ _ _ = _
        rw [hwalk]
        simp [hdies]
        omega
      · simpa [hdies] using hg'

end Sweeping

/-! ## The result -/

/-- **Sweeping succeeds**: the walk over a well-formed heap meets no fault, and ends with the objects
that survive. -/
theorem WellFormed.sweepAll_eq (hw : h.WellFormed) :
    ∃ g, Sweeping h (h.live.filter h.survives) [] g ∧ h.sweepAll = .ok h.sweep ∧
      h.sweep = ((h.live.filter fun a => !h.survives a).length,
        g.settle (((h.live.filter h.survives).map h.footprintAt).foldl max 0)) := by
  obtain ⟨g, hwalk, hg⟩ := hw.sweeping.sweepFrom hw 0 0 (Nat.le_of_eq hw.objects_eq.symm)
  rw [← hw.leads.start_eq, Nat.zero_add] at hwalk
  have hall : h.sweepAll = .ok ((h.live.filter fun a => !h.survives a).length,
      g.settle (((h.live.filter h.survives).map h.footprintAt).foldl max 0)) := by
    unfold sweepAll
    rw [show h.sweepFrom none 0 0 h.liveObjects h.links.head = _ from hwalk]
    rfl
  refine ⟨g, hg, ?_, ?_⟩ <;> unfold sweep <;> rw [hall]

theorem WellFormed.threshold_sweep (hw : h.WellFormed) :
    h.sweep.2.threshold = max (h.sweep.2.liveObjects * 2) h.sweep.2.minThreshold := by
  obtain ⟨g, -, -, heq⟩ := hw.sweepAll_eq
  rw [heq]
  rfl

theorem WellFormed.sweep_freed (hw : h.WellFormed) :
    h.sweep.1 = (h.live.filter fun a => !h.survives a).length := by
  obtain ⟨g, -, -, heq⟩ := hw.sweepAll_eq
  rw [heq]

theorem getElem?_sweep (hw : h.WellFormed) (a : Nat) :
    h.sweep.2.cells[a]? =
      if h.survives a then (h.cells[a]?).map fun c => { c with marked := false } else none := by
  obtain ⟨g, hg, -, heq⟩ := hw.sweepAll_eq
  rw [heq]
  show g.cells[a]? = _
  by_cases hs : h.survives a = true
  · obtain ⟨c, hc, -⟩ := survives_iff.mp hs
    have hmem : a ∈ h.live := (hw.mem_live a).mpr ((NatMap.mem_iff_getElem? _ _).mpr ⟨c, hc⟩)
    rw [if_pos hs]
    exact hg.visited a (List.mem_filter.mpr ⟨hmem, hs⟩)
  · rw [if_neg hs]
    refine hg.gone a fun hmem => hs ?_
    rw [List.append_nil] at hmem
    exact (List.mem_filter.mp hmem).2

/-- The links lead past what is gone: the lists have the survivors, in the order in which they were. -/
theorem WellFormed.live_sweep (hw : h.WellFormed) :
    h.sweep.2.live = h.live.filter h.survives ∧
      ∀ r, h.sweep.2.region r = (h.region r).filter (· ∈ h.live.filter h.survives) := by
  obtain ⟨g, hg, -, heq⟩ := hw.sweepAll_eq
  have hlist := hg.leads
  have hregion := hg.leads_region
  have hobjs := hg.objects
  rw [List.append_nil] at hlist hregion hobjs
  rw [heq]
  refine ⟨live_eq hlist (Nat.le_of_eq hobjs.symm), fun r => region_eq (hregion r) ?_⟩
  exact (hw.length_filter_region_le r _).trans (Nat.le_of_eq hobjs.symm)

theorem mem_sweep (hw : h.WellFormed) (a : Nat) : a ∈ h.sweep.2.cells ↔ h.survives a = true := by
  rw [NatMap.mem_iff_getElem?, getElem?_sweep hw]
  by_cases hs : h.survives a = true
  · obtain ⟨c, hc, -⟩ := survives_iff.mp hs
    simp [hs, hc]
  · simp [hs]

theorem exists_of_sweep (hw : h.WellFormed) (hc : h.sweep.2.cells[a]? = some c) :
    h.survives a = true ∧ ∃ d, h.cells[a]? = some d ∧ c = { d with marked := false } := by
  rw [getElem?_sweep hw] at hc
  split at hc
  · rename_i hs
    obtain ⟨d, hd, heq⟩ := Option.map_eq_some_iff.mp hc
    exact ⟨hs, d, hd, heq.symm⟩
  · simp at hc

theorem mem_of_mem_sweep (hw : h.WellFormed) (ha : a ∈ h.sweep.2.cells) : a ∈ h.cells := by
  obtain ⟨c, hc, -⟩ := survives_iff.mp ((mem_sweep hw a).mp ha)
  exact (NatMap.mem_iff_getElem? _ _).mpr ⟨c, hc⟩

theorem WellFormed.length_filter_survives (hw : h.WellFormed) :
    (h.live.filter h.survives).length + h.sweep.1 = h.live.length := by
  rw [hw.sweep_freed]
  induction h.live with
  | nil => rfl
  | cons a rest ih =>
    cases hs : h.survives a <;> simp [hs] <;> omega

theorem le_foldl_max {l : List Nat} {n m : Nat} (hn : n ∈ l ∨ n ≤ m) : n ≤ l.foldl max m := by
  induction l generalizing m with
  | nil => simpa using hn
  | cons a rest ih =>
    rw [List.foldl_cons]
    apply ih
    rcases hn with hn | hn
    · rcases List.mem_cons.mp hn with rfl | hn
      · exact Or.inr (Nat.le_max_right ..)
      · exact Or.inl hn
    · exact Or.inr (Nat.le_trans hn (Nat.le_max_left ..))

theorem footprintAt_sweep (hw : h.WellFormed) (hs : h.survives a = true) :
    h.sweep.2.footprintAt a = h.footprintAt a := by
  unfold footprintAt
  rw [getElem?_sweep hw, if_pos hs]
  cases h.cells[a]? <;> rfl

theorem WellFormed.liveBytes_sweep (hw : h.WellFormed) :
    h.sweep.2.liveBytes = ((h.live.filter h.survives).map h.footprintAt).sum := by
  obtain ⟨g, hg, -, heq⟩ := hw.sweepAll_eq
  rw [heq]
  show g.liveBytes = _
  simpa using hg.bytes

theorem WellFormed.sweep (hw : h.WellFormed) : h.sweep.2.WellFormed := by
  obtain ⟨hlv, hregion⟩ := hw.live_sweep
  obtain ⟨hnext, henv, -, -, hallocated, hallocatedBytes, hle⟩ := trims_sweep h
  obtain ⟨g, hg, -, heq⟩ := hw.sweepAll_eq
  have hmem : ∀ a : Nat, a ∈ h.sweep.2.cells → a ∈ h.cells := fun a => mem_of_mem_sweep hw
  have hlist := hg.leads
  have hchain := hg.leads_region
  have hobjs := hg.objects
  have hfreed := hg.freed_objects
  have hfreedBytes := hg.freed_bytes
  rw [List.append_nil] at hlist hchain hobjs
  -- the links and the numbers are those that the walk ended with
  have hlinks : h.sweep.2.links = g.links := by rw [heq]; rfl
  have hcounts : h.sweep.2.liveObjects = g.liveObjects ∧ h.sweep.2.liveBytes = g.liveBytes ∧
      h.sweep.2.stats.freedObjects = g.stats.freedObjects ∧
      h.sweep.2.stats.freedBytes = g.stats.freedBytes := by
    rw [heq]
    exact ⟨rfl, rfl, rfl, rfl⟩
  obtain ⟨hlo, hlb, hfo, hfb⟩ := hcounts
  constructor
  case leads => rw [hlinks, hlv]; exact hlist
  case leads_region => intro r; rw [hlinks, hregion]; exact hchain r
  case mem_live =>
    intro a
    rw [hlv, List.mem_filter, mem_sweep hw, hw.mem_live]
    exact ⟨And.right, fun hs => ⟨hmem a ((mem_sweep hw a).mpr hs), hs⟩⟩
  case live_sorted => rw [hlv]; exact hw.live_sorted.filter _
  case placed =>
    intro a c hc
    obtain ⟨-, d, hd, rfl⟩ := exists_of_sweep hw hc
    have hp := hw.placed a d hd
    exact ⟨hp.low, hnext ▸ hp.high, hp.aligned⟩
  case apart =>
    intro a b c hc hb hlt
    obtain ⟨-, d, hd, rfl⟩ := exists_of_sweep hw hc
    exact hw.apart a b d hd (hmem b hb) hlt
  case mem_region =>
    intro r a
    rw [hregion, List.mem_filter, hw.mem_region, mem_sweep hw, decide_eq_true_eq, List.mem_filter,
      hw.mem_live]
    constructor
    · rintro ⟨⟨-, hr⟩, -, hs⟩
      exact ⟨hs, hr⟩
    · rintro ⟨hs, hr⟩
      have ha := hmem a ((mem_sweep hw a).mpr hs)
      exact ⟨⟨ha, hr⟩, ha, hs⟩
  case region_sorted =>
    intro r
    rw [hregion]
    exact (hw.region_sorted r).filter _
  case le_widest =>
    intro a c hc
    obtain ⟨hs, d, hd, rfl⟩ := exists_of_sweep hw hc
    have hwidest : h.sweep.2.widest =
        ((h.live.filter h.survives).map h.footprintAt).foldl max 0 := by rw [heq]; rfl
    rw [hwidest]
    refine le_foldl_max (Or.inl (List.mem_map.mpr ⟨a, ?_, ?_⟩))
    · rw [List.mem_filter, hw.mem_live]
      exact ⟨(NatMap.mem_iff_getElem? _ _).mpr ⟨d, hd⟩, hs⟩
    · unfold footprintAt
      rw [hd]
      rfl
  case in_envelope =>
    intro a c hc
    obtain ⟨-, d, hd, rfl⟩ := exists_of_sweep hw hc
    rw [henv]
    exact hw.in_envelope a d hd
  case next_aligned => rw [hnext]; exact hw.next_aligned
  case next_low => rw [hnext]; exact hw.next_low
  case next_high => rw [hnext]; exact hw.next_high
  case objects_eq => rw [hlv, hlo, hobjs]
  case bytes_eq =>
    have hsame : (h.live.filter h.survives).map h.sweep.2.footprintAt =
        (h.live.filter h.survives).map h.footprintAt := by
      apply List.map_congr_left
      intro a ha
      exact footprintAt_sweep hw (List.mem_filter.mp ha).2
    rw [hlv, hsame]
    exact hw.liveBytes_sweep
  case allocated_objects =>
    have := hw.allocated_objects
    omega
  case allocated_bytes =>
    have := hw.allocated_bytes
    omega
  case bytes_below =>
    have := hw.bytes_below
    omega

end Ember.Heap
