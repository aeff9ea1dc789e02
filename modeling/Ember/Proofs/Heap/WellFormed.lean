import Ember.Heap.Collection
import Ember.Proofs.Heap.Links

/-!
# Ember — well-formed heaps

An object is found in three ways: in the map of cells, along the links of all objects, and along those
of its region. `WellFormed` says that the three agree, that objects do not overlap, and that the
bounds which speed up the search for owners are true bounds.

Main result: `WellFormed.eq_of_covers`.
-/

namespace Ember

variable {pinned : Bool} {c : Cell} {h h' : Heap} {a byte : Nat} {o : Object}

namespace Heap

open Links (Leads)

/-! ## Lists of objects -/

/-- All objects, newest first. -/
def live (h : Heap) : List Address :=
  Links.follow h.links.next h.liveObjects h.links.head

/-- The objects of a region, newest first. -/
def region (h : Heap) (r : Nat) : List Address :=
  Links.follow h.links.nextInRegion h.liveObjects h.links.heads[r]?

theorem live_eq {l : List Nat} (hl : Leads h.links.next h.links.head l)
    (hn : l.length ≤ h.liveObjects) : h.live = l :=
  hl.follow_eq hn

theorem region_eq {l : List Nat} {r : Nat} (hl : Leads h.links.nextInRegion h.links.heads[r]? l)
    (hn : l.length ≤ h.liveObjects) : h.region r = l :=
  hl.follow_eq hn

theorem length_region_le (h : Heap) (r : Nat) : (h.region r).length ≤ h.liveObjects :=
  Links.length_follow_le ..

/-- The bytes of the object at an address. -/
def footprintAt (h : Heap) (a : Address) : Nat :=
  (h.cells[a]?).elim 0 Cell.footprint

/-! ## Ranges of objects -/

/-- The first byte that any object may occupy. -/
def firstByte : Nat := 0x100000

/-- The object at an address lies in the heap with room for its header. -/
structure Placed (h : Heap) (a : Nat) (c : Cell) : Prop where
  low : firstByte + headerSize ≤ a
  high : endOf a c ≤ h.nextFree
  aligned : a % 16 = 0

/-- The three structures of the heap agree, and its bounds are true. -/
structure WellFormed (h : Heap) : Prop where
  /-- The links lead through the list of all objects and through those of the regions. -/
  leads : Leads h.links.next h.links.head h.live
  leads_region : ∀ r, Leads h.links.nextInRegion h.links.heads[r]? (h.region r)
  /-- The list of all objects has exactly the addresses of the cells. -/
  mem_live : ∀ a : Nat, a ∈ h.live ↔ a ∈ h.cells
  /-- The newest object comes first. -/
  live_sorted : h.live.Pairwise fun a b : Nat => b < a
  placed : ∀ (a : Nat) (c : Cell), h.cells[a]? = some c → h.Placed a c
  /-- An object ends where the header of a later one begins, or before. -/
  apart : ∀ (a b : Nat) (c : Cell), h.cells[a]? = some c → b ∈ h.cells → a < b → endOf a c ≤ startOf b
  /-- The chain of a region has exactly the objects whose headers start there. -/
  mem_region : ∀ r a : Nat, a ∈ h.region r ↔ a ∈ h.cells ∧ regionOf (startOf a) = r
  region_sorted : ∀ r, (h.region r).Pairwise fun a b : Nat => b < a
  le_widest : ∀ (a : Nat) (c : Cell), h.cells[a]? = some c → c.footprint ≤ h.widest
  in_envelope : ∀ (a : Nat) (c : Cell), h.cells[a]? = some c →
    ∃ low high, h.envelope = some (low, high) ∧ low ≤ startOf a ∧ endOf a c ≤ high
  next_aligned : h.nextFree % 16 = 0
  next_low : firstByte ≤ h.nextFree
  next_high : h.nextFree < 0x10000000000000000
  objects_eq : h.liveObjects = h.live.length
  bytes_eq : h.liveBytes = (h.live.map h.footprintAt).sum
  allocated_objects : h.stats.allocatedObjects = h.stats.freedObjects + h.liveObjects
  allocated_bytes : h.stats.allocatedBytes = h.stats.freedBytes + h.liveBytes
  /-- The live bytes lie below the place of the next header. -/
  bytes_below : firstByte + h.liveBytes ≤ h.nextFree

theorem align_mod (n : Nat) : align n % 16 = 0 := by
  unfold align
  omega

theorem le_align (n : Nat) : n ≤ align n := by
  unfold align
  omega

theorem wellFormed_empty (initial minimum : Nat) : (empty initial minimum).WellFormed := by
  have hcells : ∀ a : Nat, (empty initial minimum).cells[a]? = none := by
    intro a
    simp [empty]
  have hmem : ∀ a : Nat, a ∉ (empty initial minimum).cells := by
    intro a ha
    obtain ⟨c, hc⟩ := (NatMap.mem_iff_getElem? _ _).mp ha
    rw [hcells] at hc
    exact absurd hc (by simp)
  have hlv : (empty initial minimum).live = [] := rfl
  have hregion : ∀ r : Nat, (empty initial minimum).region r = [] := fun _ => rfl
  constructor
  case leads => rfl
  case leads_region => intro r; rw [hregion]; simp [empty, Leads]
  case mem_live => intro a; simp [hmem, hlv]
  case live_sorted => simp [hlv]
  case placed => intro a c hc; simp [hcells] at hc
  case apart => intro a b c hc; simp [hcells] at hc
  case mem_region => intro r a; simp [hregion, hmem]
  case region_sorted => intro r; simp [hregion]
  case le_widest => intro a c hc; simp [hcells] at hc
  case in_envelope => intro a c hc; simp [hcells] at hc
  all_goals simp [empty, firstByte, live, Links.follow]

/-! ## Consequences -/

namespace WellFormed

variable {h : Heap}

theorem lt_next (hw : h.WellFormed) (hc : h.cells[a]? = some c) : a ≤ h.nextFree := by
  have := (hw.placed a c hc).high
  unfold endOf at this
  omega

theorem nextAddress_fresh (hw : h.WellFormed) : h.nextAddress ∉ h.cells := by
  intro hmem
  obtain ⟨c, hc⟩ := (NatMap.mem_iff_getElem? _ _).mp hmem
  have := hw.lt_next hc
  simp only [nextAddress, headerSize] at this
  omega

theorem live_nodup (hw : h.WellFormed) : h.live.Nodup :=
  hw.live_sorted.imp fun hgt => Nat.ne_of_gt hgt

theorem objects_eq_size (hw : h.WellFormed) : h.liveObjects = h.cells.size := by
  rw [hw.objects_eq, ← Std.TreeMap.length_keys]
  have hperm : h.live.Perm h.cells.keys := by
    rw [List.perm_ext_iff_of_nodup hw.live_nodup Std.TreeMap.nodup_keys]
    intro a
    rw [hw.mem_live, Std.TreeMap.mem_keys]
  exact hperm.length_eq

theorem covers_iff :
    h.covers byte a = true ↔
      ∃ c, h.cells[a]? = some c ∧ startOf a ≤ byte ∧ byte < endOf a c := by
  unfold covers
  cases h.cells[a]? <;> simp

theorem eq_of_covers (hw : h.WellFormed) {b : Nat} (ha : h.covers byte a = true)
    (hb : h.covers byte b = true) : a = b := by
  obtain ⟨c, hc, hlow, hhigh⟩ := covers_iff.mp ha
  obtain ⟨d, hd, hlow', hhigh'⟩ := covers_iff.mp hb
  rcases Nat.lt_trichotomy a b with hlt | heq | hgt
  · have := hw.apart a b c hc ((NatMap.mem_iff_getElem? _ _).mpr ⟨d, hd⟩) hlt
    omega
  · exact heq
  · have := hw.apart b a d hd ((NatMap.mem_iff_getElem? _ _).mpr ⟨c, hc⟩) hgt
    omega

end WellFormed

/-! ## Placing an object -/

theorem getElem?_place (h : Heap) (c : Cell) (a : Nat) :
    (h.place c).cells[a]? = if h.nextAddress = a then some c else h.cells[a]? :=
  NatMap.getElem?_insert ..

theorem mem_place (h : Heap) (c : Cell) (a : Nat) :
    a ∈ (h.place c).cells ↔ h.nextAddress = a ∨ a ∈ h.cells := by
  rw [NatMap.mem_iff_getElem?, NatMap.mem_iff_getElem?, getElem?_place]
  by_cases ha : h.nextAddress = a <;> simp [ha]

theorem footprintAt_place (h : Heap) (c : Cell) (ha : h.nextAddress ≠ a) :
    (h.place c).footprintAt a = h.footprintAt a := by
  unfold footprintAt
  rw [getElem?_place, if_neg ha]

theorem WellFormed.leads_place (hw : h.WellFormed) (c : Cell) :
    Leads (h.place c).links.next (h.place c).links.head (h.nextAddress :: h.live) := by
  apply hw.leads.push
  rw [hw.mem_live]
  exact hw.nextAddress_fresh

theorem WellFormed.live_place (hw : h.WellFormed) (c : Cell) :
    (h.place c).live = h.nextAddress :: h.live := by
  apply live_eq (hw.leads_place c)
  show h.live.length + 1 ≤ h.liveObjects + 1
  rw [hw.objects_eq]

theorem WellFormed.leads_region_place (hw : h.WellFormed) (c : Cell) (r : Nat) :
    Leads (h.place c).links.nextInRegion (h.place c).links.heads[r]?
      (if regionOf h.nextFree = r then h.nextAddress :: h.region r else h.region r) := by
  have hfresh : h.nextAddress ∉ h.region r := by
    rw [hw.mem_region]
    exact fun hmem => hw.nextAddress_fresh hmem.1
  have hhead : (h.place c).links.heads[r]? =
      if regionOf h.nextFree = r then some h.nextAddress else h.links.heads[r]? :=
    NatMap.getElem?_insert ..
  rw [hhead]
  by_cases hr : regionOf h.nextFree = r
  · subst hr
    rw [if_pos rfl, if_pos rfl]
    exact (hw.leads_region _).push hfresh
  · rw [if_neg hr, if_neg hr]
    refine (hw.leads_region r).congr fun a ha => ?_
    have hne : h.nextAddress ≠ a := fun heq => hfresh (heq ▸ ha)
    exact (NatMap.getElem?_alter ..).trans (if_neg hne)

theorem WellFormed.region_place (hw : h.WellFormed) (c : Cell) (r : Nat) :
    (h.place c).region r =
      if regionOf h.nextFree = r then h.nextAddress :: h.region r else h.region r := by
  apply region_eq (hw.leads_region_place c r)
  show _ ≤ h.liveObjects + 1
  have := length_region_le h r
  split
  · rw [List.length_cons]
    omega
  · omega

theorem WellFormed.place (hw : h.WellFormed) (c : Cell)
    (hfit : h.nextFree + c.footprint < 0x10000000000000000) : (h.place c).WellFormed := by
  -- the new object begins where the free space began, and ends aligned
  have hst : startOf h.nextAddress = h.nextFree := by
    unfold startOf nextAddress
    omega
  have hend : endOf h.nextAddress c = h.nextFree + c.footprint := by
    unfold endOf nextAddress Cell.footprint
    omega
  have hfoot : c.footprint % 16 = 0 := by
    have := align_mod c.size
    unfold Cell.footprint headerSize
    omega
  have hnext : (h.place c).nextFree = h.nextFree + c.footprint := rfl
  have hold : ∀ (a : Nat) (d : Cell), h.cells[a]? = some d → a < h.nextAddress := by
    intro a d hd
    have := hw.lt_next hd
    unfold nextAddress headerSize
    omega
  have holdMem : ∀ a : Nat, a ∈ h.cells → a < h.nextAddress := by
    intro a ha
    obtain ⟨d, hd⟩ := (NatMap.mem_iff_getElem? _ _).mp ha
    exact hold a d hd
  -- every object that was there has a lower address, so the new one is the head of both lists
  have hlv := hw.live_place c
  constructor
  case leads => rw [hlv]; exact hw.leads_place c
  case leads_region => intro r; rw [hw.region_place]; exact hw.leads_region_place c r
  case mem_live =>
    intro a
    rw [mem_place, ← hw.mem_live, hlv, List.mem_cons]
    exact or_congr_left eq_comm
  case live_sorted =>
    -- what was there before lies below the new object
    rw [hlv]
    exact List.pairwise_cons.mpr ⟨fun a ha => holdMem a ((hw.mem_live a).mp ha), hw.live_sorted⟩
  case placed =>
    intro a d hd
    rw [getElem?_place] at hd
    by_cases ha : h.nextAddress = a
    · rw [if_pos ha] at hd
      cases hd
      subst ha
      have := hw.next_low
      have := hw.next_aligned
      refine ⟨?_, by rw [hend, hnext], ?_⟩ <;> unfold nextAddress headerSize <;> omega
    · rw [if_neg ha] at hd
      have hp := hw.placed a d hd
      exact ⟨hp.low, by rw [hnext]; have := hp.high; omega, hp.aligned⟩
  case apart =>
    intro a b d hd hb hlt
    rw [getElem?_place] at hd
    rw [mem_place] at hb
    by_cases ha : h.nextAddress = a
    · -- nothing lies above the new object
      subst ha
      rcases hb with hb | hb
      · exact absurd hb (Nat.ne_of_lt hlt)
      · exact absurd (holdMem b hb) (Nat.lt_asymm hlt)
    · rw [if_neg ha] at hd
      rcases hb with hb | hb
      · rw [← hb, hst]
        exact (hw.placed a d hd).high
      · exact hw.apart a b d hd hb hlt
  case mem_region =>
    intro r a
    rw [hw.region_place, mem_place]
    by_cases hr : regionOf h.nextFree = r
    · rw [if_pos hr, List.mem_cons, hw.mem_region]
      constructor
      · rintro (rfl | ⟨ha, hreg⟩)
        · exact ⟨Or.inl rfl, by rw [hst, hr]⟩
        · exact ⟨Or.inr ha, hreg⟩
      · rintro ⟨rfl | ha, hreg⟩
        · exact Or.inl rfl
        · exact Or.inr ⟨ha, hreg⟩
    · rw [if_neg hr, hw.mem_region]
      constructor
      · rintro ⟨ha, hreg⟩
        exact ⟨Or.inr ha, hreg⟩
      · rintro ⟨rfl | ha, hreg⟩
        · rw [hst] at hreg
          exact absurd hreg hr
        · exact ⟨ha, hreg⟩
  case region_sorted =>
    intro r
    rw [hw.region_place]
    split
    · exact List.pairwise_cons.mpr
        ⟨fun a ha => holdMem a ((hw.mem_region r a).mp ha).1, hw.region_sorted r⟩
    · exact hw.region_sorted r
  case le_widest =>
    intro a d hd
    rw [getElem?_place] at hd
    show d.footprint ≤ max h.widest c.footprint
    by_cases ha : h.nextAddress = a
    · rw [if_pos ha] at hd
      cases hd
      exact Nat.le_max_right ..
    · rw [if_neg ha] at hd
      exact Nat.le_trans (hw.le_widest a d hd) (Nat.le_max_left ..)
  case in_envelope =>
    intro a d hd
    rw [getElem?_place] at hd
    refine ⟨_, _, rfl, ?_⟩
    by_cases ha : h.nextAddress = a
    · rw [if_pos ha] at hd
      cases hd
      subst ha
      cases h.envelope <;> simp [hst]
    · rw [if_neg ha] at hd
      obtain ⟨low, high, henv, hlow, hhigh⟩ := hw.in_envelope a d hd
      rw [henv]
      exact ⟨Nat.le_trans (Nat.min_le_left ..) hlow, Nat.le_trans hhigh (Nat.le_max_left ..)⟩
  case next_aligned =>
    have := hw.next_aligned
    rw [hnext]
    omega
  case next_low =>
    have := hw.next_low
    rw [hnext]
    omega
  case next_high => exact hfit
  case objects_eq =>
    show h.liveObjects + 1 = _
    rw [hlv, hw.objects_eq, List.length_cons]
  case bytes_eq =>
    show h.liveBytes + c.footprint = _
    have hnew : (h.place c).footprintAt h.nextAddress = c.footprint := by
      unfold footprintAt
      rw [getElem?_place, if_pos rfl]
      rfl
    have hrest : h.live.map (h.place c).footprintAt = h.live.map h.footprintAt := by
      apply List.map_congr_left
      intro a ha
      exact footprintAt_place h c (Nat.ne_of_gt (holdMem a ((hw.mem_live a).mp ha)))
    rw [hlv, List.map_cons, List.sum_cons, hnew, hrest, hw.bytes_eq]
    omega
  case allocated_objects =>
    show h.stats.allocatedObjects + 1 = h.stats.freedObjects + (h.liveObjects + 1)
    have := hw.allocated_objects
    omega
  case allocated_bytes =>
    show h.stats.allocatedBytes + c.footprint = h.stats.freedBytes + (h.liveBytes + c.footprint)
    have := hw.allocated_bytes
    omega
  case bytes_below =>
    show firstByte + (h.liveBytes + c.footprint) ≤ h.nextFree + c.footprint
    have := hw.bytes_below
    omega

theorem insert_eq_ok (hi : h.insert o pinned = .ok (a, h')) :
    a = h.nextAddress ∧ h' = h.place { object := o, size := o.size, pinned } ∧
      h.nextFree + Cell.footprint { object := o, size := o.size, pinned } < 0x10000000000000000 := by
  simp only [Heap.insert] at hi
  split at hi
  · rename_i hfit
    simp only [Except.ok.injEq, Prod.mk.injEq] at hi
    exact ⟨hi.1.symm, hi.2.symm, hfit⟩
  · simp at hi

/-! ## Changing cells in place -/

/-- The heap with other cells at the same addresses, of the same sizes. -/
structure SameLayout (h h' : Heap) : Prop where
  links : h'.links = h.links
  widest : h'.widest = h.widest
  envelope : h'.envelope = h.envelope
  nextFree : h'.nextFree = h.nextFree
  liveObjects : h'.liveObjects = h.liveObjects
  liveBytes : h'.liveBytes = h.liveBytes
  stats : h'.stats = h.stats
  sizes : ∀ a : Nat, (h'.cells[a]?).map Cell.size = (h.cells[a]?).map Cell.size

namespace SameLayout

variable {h h' : Heap}

theorem exists_cell (hs : h.SameLayout h') (hc : h'.cells[a]? = some c) :
    ∃ d, h.cells[a]? = some d ∧ d.size = c.size := by
  have := hs.sizes a
  rw [hc] at this
  cases hd : h.cells[a]? with
  | none => simp [hd] at this
  | some d => exact ⟨d, rfl, by simpa [hd] using this.symm⟩

theorem mem_iff (hs : h.SameLayout h') (a : Nat) : a ∈ h'.cells ↔ a ∈ h.cells := by
  rw [← Std.TreeMap.isSome_getElem?_iff_mem, ← Std.TreeMap.isSome_getElem?_iff_mem,
    ← Option.isSome_map (f := Cell.size), hs.sizes a, Option.isSome_map]

theorem footprintAt (hs : h.SameLayout h') (a : Nat) : h'.footprintAt a = h.footprintAt a := by
  unfold Heap.footprintAt
  have := hs.sizes a
  cases hc : h'.cells[a]? <;> cases hd : h.cells[a]? <;> simp_all [Cell.footprint]

theorem live (hs : h.SameLayout h') : h'.live = h.live := by
  unfold Heap.live
  rw [hs.links, hs.liveObjects]

theorem region (hs : h.SameLayout h') (r : Nat) : h'.region r = h.region r := by
  unfold Heap.region
  rw [hs.links, hs.liveObjects]

theorem wellFormed (hs : h.SameLayout h') (hw : h.WellFormed) : h'.WellFormed := by
  constructor
  case leads => rw [hs.live, hs.links]; exact hw.leads
  case leads_region => intro r; rw [hs.region, hs.links]; exact hw.leads_region r
  case mem_live => intro a; rw [hs.live, hs.mem_iff, hw.mem_live]
  case live_sorted => rw [hs.live]; exact hw.live_sorted
  -- cells may differ in their objects, but ends and widths depend on sizes only
  case placed =>
    intro a c hc
    obtain ⟨d, hd, hsize⟩ := hs.exists_cell hc
    have hp := hw.placed a d hd
    refine ⟨hp.low, ?_, hp.aligned⟩
    have := hp.high
    unfold endOf at *
    rw [hs.nextFree, ← hsize]
    exact this
  case apart =>
    intro a b c hc hb hlt
    obtain ⟨d, hd, hsize⟩ := hs.exists_cell hc
    have := hw.apart a b d hd ((hs.mem_iff b).mp hb) hlt
    unfold endOf at *
    rw [← hsize]
    exact this
  case mem_region => intro r a; rw [hs.region, hs.mem_iff, hw.mem_region]
  case region_sorted => intro r; rw [hs.region]; exact hw.region_sorted r
  case le_widest =>
    intro a c hc
    obtain ⟨d, hd, hsize⟩ := hs.exists_cell hc
    have := hw.le_widest a d hd
    unfold Cell.footprint at *
    rw [hs.widest, ← hsize]
    exact this
  case in_envelope =>
    intro a c hc
    obtain ⟨d, hd, hsize⟩ := hs.exists_cell hc
    obtain ⟨low, high, henv, hlow, hhigh⟩ := hw.in_envelope a d hd
    refine ⟨low, high, by rw [hs.envelope, henv], hlow, ?_⟩
    unfold endOf at *
    rw [← hsize]
    exact hhigh
  case next_aligned => rw [hs.nextFree]; exact hw.next_aligned
  case next_low => rw [hs.nextFree]; exact hw.next_low
  case next_high => rw [hs.nextFree]; exact hw.next_high
  case objects_eq => rw [hs.liveObjects, hs.live]; exact hw.objects_eq
  case bytes_eq =>
    rw [hs.liveBytes, hs.live, hw.bytes_eq]
    congr 1
    apply List.map_congr_left
    intro a _
    exact (hs.footprintAt a).symm
  case allocated_objects => rw [hs.stats, hs.liveObjects]; exact hw.allocated_objects
  case allocated_bytes => rw [hs.stats, hs.liveBytes]; exact hw.allocated_bytes
  case bytes_below => rw [hs.liveBytes, hs.nextFree]; exact hw.bytes_below

end SameLayout

theorem getElem?_modify (h : Heap) (a b : Nat) (f : Object → Object) :
    (h.modify a f).cells[b]? =
      if a = b then (h.cells[b]?).map (fun c => { c with object := f c.object })
      else h.cells[b]? :=
  NatMap.getElem?_modify ..

theorem sameLayout_modify (h : Heap) (a : Nat) (f : Object → Object) :
    h.SameLayout (h.modify a f) := by
  refine ⟨rfl, rfl, rfl, rfl, rfl, rfl, rfl, ?_⟩
  intro b
  rw [getElem?_modify]
  split
  · rw [Option.map_map]
    rfl
  · rfl

theorem WellFormed.modify (hw : h.WellFormed) (a : Nat) (f : Object → Object) :
    (h.modify a f).WellFormed :=
  (sameLayout_modify h a f).wellFormed hw

end Heap

end Ember
