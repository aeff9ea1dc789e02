import Ember.Heap.Header
import Ember.Proofs.Heap.Collection

/-!
# Ember — histories of a heap

A heap begins empty, and then objects are placed, changed, marked, traced and swept in any order.
A history keeps, beside the heap, every address that was ever handed out. `Sound` is the invariant of
a history: one operation keeps it (`Sound.perform`), so every history has it (`Sound.run`).

Main results: `run_coherent`, `ownerOf_exact`.
-/

namespace Ember.Heap

variable {h : Heap} {rest : List Nat} {ops : List Operation} {a word : Nat}

/-! ## Operations -/

/-- What can be done to a heap. -/
inductive Operation
  | insert (o : Object) (pinned : Bool)
  | change (a : Address) (f : Object → Object)
  | mark (a : Address)
  | markWord (word : Nat)
  | trace
  | sweep

/-- The bytes that an operation takes from the address space. -/
def Operation.bytes : Operation → Nat
  | insert o _ => headerSize + align o.size
  | _ => 0

/-- A heap with the addresses that it has handed out, the latest first. -/
structure History where
  heap : Heap
  handed : List Address

namespace History

/-- The history of a new heap. -/
def start (initial minimum : Nat) : History :=
  ⟨empty initial minimum, []⟩

/-- One operation. -/
def perform (s : History) : Operation → Except Fault History
  | .insert o pinned => do
    let (a, heap) ← s.heap.insert o pinned
    return ⟨heap, a :: s.handed⟩
  | .change a f => .ok { s with heap := s.heap.modify a f }
  | .mark a => .ok { s with heap := s.heap.mark a }
  | .markWord word => .ok { s with heap := s.heap.markWord word }
  | .trace => .ok { s with heap := s.heap.trace }
  | .sweep => do return { s with heap := (← s.heap.sweepAll).2 }

/-- A sequence of operations. -/
def run (s : History) : List Operation → Except Fault History
  | [] => .ok s
  | op :: rest => do (← s.perform op).run rest

/-- The invariant of histories. -/
structure Sound (s : History) : Prop where
  wellFormed : s.heap.WellFormed
  handed_sorted : s.handed.Pairwise fun a b : Nat => b < a
  handed_below : ∀ a ∈ s.handed, a < s.heap.nextAddress
  live_handed : ∀ a : Nat, a ∈ s.heap.cells → a ∈ s.handed
  /-- Headers and payloads follow one another without gaps. -/
  next_eq : s.heap.nextFree = firstByte + s.heap.stats.allocatedBytes

theorem sound_start (initial minimum : Nat) : (start initial minimum).Sound where
  wellFormed := wellFormed_empty initial minimum
  handed_sorted := .nil
  handed_below := nofun
  live_handed a ha := by
    have hlv := ((wellFormed_empty initial minimum).mem_live a).mpr ha
    cases hlv
  next_eq := rfl

/-! ## One operation -/

variable {s s' : History} {op : Operation}

/-- What an operation does: it places an object at the next address, it keeps the layout, or it
sweeps. -/
theorem perform_cases (hw : s.heap.WellFormed) (hp : s.perform op = .ok s') :
    (∃ c : Cell, s' = ⟨s.heap.place c, s.heap.nextAddress :: s.handed⟩ ∧ op.bytes = c.footprint ∧
      s.heap.nextFree + c.footprint < 0x10000000000000000) ∨
    (∃ h, s' = { s with heap := h } ∧ s.heap.SameLayout h ∧ op.bytes = 0) ∨
    (s' = { s with heap := s.heap.sweep.2 } ∧ op.bytes = 0) := by
  cases op with
  | insert o pinned =>
    simp only [perform] at hp
    cases hi : s.heap.insert o pinned with
    | error e => rw [hi] at hp; cases hp
    | ok r =>
      rw [hi] at hp
      obtain ⟨ha, hh, hfit⟩ := insert_eq_ok hi
      obtain rfl : ⟨r.2, r.1 :: s.handed⟩ = s' := Except.ok.inj hp
      exact .inl ⟨{ object := o, size := o.size, pinned }, by rw [ha, hh], rfl, hfit⟩
  | change a f =>
    cases hp
    exact .inr (.inl ⟨_, rfl, sameLayout_modify s.heap a f, rfl⟩)
  | mark a =>
    cases hp
    exact .inr (.inl ⟨_, rfl, ⟨rfl, rfl, rfl, rfl, rfl, rfl, rfl, fun _ => rfl⟩, rfl⟩)
  | markWord word =>
    cases hp
    have hsame : s.heap.SameLayout (s.heap.markWord word) := by
      unfold markWord
      split <;> exact ⟨rfl, rfl, rfl, rfl, rfl, rfl, rfl, fun _ => rfl⟩
    exact .inr (.inl ⟨_, rfl, hsame, rfl⟩)
  | trace =>
    cases hp
    exact .inr (.inl ⟨_, rfl, sameLayout_trace s.heap, rfl⟩)
  | sweep =>
    obtain ⟨-, -, hall, -⟩ := hw.sweepAll_eq
    simp only [perform, hall] at hp
    exact .inr (.inr ⟨(Except.ok.inj hp).symm, rfl⟩)

theorem Sound.perform (hs : s.Sound) (hp : s.perform op = .ok s') : s'.Sound := by
  obtain ⟨c, rfl, -, hfit⟩ | ⟨h, rfl, hsame, -⟩ | ⟨rfl, -⟩ := perform_cases hs.wellFormed hp
  · have hgrows : s.heap.nextAddress < (s.heap.place c).nextAddress := by
      show s.heap.nextFree + headerSize < s.heap.nextFree + c.footprint + headerSize
      unfold Cell.footprint headerSize
      omega
    refine ⟨hs.wellFormed.place c hfit, ?_, ?_, ?_, ?_⟩
    · exact List.pairwise_cons.mpr ⟨hs.handed_below, hs.handed_sorted⟩
    · intro a ha
      rcases List.mem_cons.mp ha with rfl | ha
      · exact hgrows
      · exact Nat.lt_trans (hs.handed_below a ha) hgrows
    · intro a ha
      rcases (mem_place s.heap c a).mp ha with rfl | ha
      · exact List.mem_cons_self ..
      · exact .tail _ (hs.live_handed a ha)
    · show s.heap.nextFree + c.footprint = firstByte + (s.heap.stats.allocatedBytes + c.footprint)
      have := hs.next_eq
      omega
  · refine ⟨hsame.wellFormed hs.wellFormed, hs.handed_sorted, ?_, ?_, ?_⟩
    · intro a ha
      show a < h.nextFree + headerSize
      rw [hsame.nextFree]
      exact hs.handed_below a ha
    · intro a ha
      exact hs.live_handed a ((hsame.mem_iff a).mp ha)
    · show h.nextFree = firstByte + h.stats.allocatedBytes
      rw [hsame.nextFree, hsame.stats]
      exact hs.next_eq
  · have ht := trims_sweep s.heap
    refine ⟨hs.wellFormed.sweep, hs.handed_sorted, ?_, ?_, ?_⟩
    · intro a ha
      show a < s.heap.sweep.2.nextFree + headerSize
      rw [ht.nextFree]
      exact hs.handed_below a ha
    · intro a ha
      exact hs.live_handed a (mem_of_mem_sweep hs.wellFormed ha)
    · show s.heap.sweep.2.nextFree = firstByte + s.heap.sweep.2.stats.allocatedBytes
      rw [ht.nextFree, ht.allocatedBytes]
      exact hs.next_eq

theorem Sound.gone_perform (hs : s.Sound) (hp : s.perform op = .ok s') (ha : a ∈ s.handed)
    (hgone : a ∉ s.heap.cells) : a ∈ s'.handed ∧ a ∉ s'.heap.cells := by
  obtain ⟨c, rfl, -⟩ | ⟨h, rfl, hsame, -⟩ | ⟨rfl, -⟩ := perform_cases hs.wellFormed hp
  · refine ⟨.tail _ ha, fun hmem => ?_⟩
    rcases (mem_place s.heap c a).mp hmem with rfl | hmem
    · exact Nat.lt_irrefl _ (hs.handed_below _ ha)
    · exact hgone hmem
  · exact ⟨ha, fun hmem => hgone ((hsame.mem_iff a).mp hmem)⟩
  · exact ⟨ha, fun hmem => hgone (mem_of_mem_sweep hs.wellFormed hmem)⟩

theorem Sound.allocatedBytes_perform (hs : s.Sound) (hp : s.perform op = .ok s') :
    s'.heap.stats.allocatedBytes = s.heap.stats.allocatedBytes + op.bytes := by
  obtain ⟨c, rfl, hbytes, -⟩ | ⟨h, rfl, hsame, hbytes⟩ | ⟨rfl, hbytes⟩ := perform_cases hs.wellFormed hp
  · rw [hbytes]
    rfl
  · rw [hbytes]
    exact congrArg HeapStats.allocatedBytes hsame.stats
  · rw [hbytes]
    exact (trims_sweep s.heap).allocatedBytes

theorem Sound.perform_isOk (hs : s.Sound) (op : Operation)
    (hroom : firstByte + s.heap.stats.allocatedBytes + op.bytes < 0x10000000000000000) :
    ∃ s', s.perform op = .ok s' := by
  cases op with
  | insert o pinned =>
    have hfit : s.heap.nextFree + Cell.footprint { object := o, size := o.size, pinned } <
        0x10000000000000000 := hs.next_eq ▸ hroom
    have hi : s.heap.insert o pinned =
        .ok (s.heap.nextAddress, s.heap.place { object := o, size := o.size, pinned }) := if_pos hfit
    simp only [History.perform, hi]
    exact ⟨_, rfl⟩
  | sweep =>
    obtain ⟨-, -, hall, -⟩ := hs.wellFormed.sweepAll_eq
    simp only [History.perform, hall]
    exact ⟨_, rfl⟩
  | change | mark | markWord | trace => exact ⟨_, rfl⟩

/-! ## Sequences of operations -/

theorem run_cons_eq_ok (hr : s.run (op :: ops) = .ok s') :
    ∃ t, s.perform op = .ok t ∧ t.run ops = .ok s' := by
  simp only [run] at hr
  cases hp : s.perform op with
  | error e => rw [hp] at hr; cases hr
  | ok t => exact ⟨t, rfl, by rw [hp] at hr; exact hr⟩

theorem Sound.run (hs : s.Sound) (hr : s.run ops = .ok s') : s'.Sound := by
  induction ops generalizing s with
  | nil => exact Except.ok.inj hr ▸ hs
  | cons op ops ih =>
    obtain ⟨t, hp, hr⟩ := run_cons_eq_ok hr
    exact ih (hs.perform hp) hr

theorem Sound.gone_run (hs : s.Sound) (hr : s.run ops = .ok s') (ha : a ∈ s.handed)
    (hgone : a ∉ s.heap.cells) : a ∉ s'.heap.cells := by
  induction ops generalizing s with
  | nil => exact Except.ok.inj hr ▸ hgone
  | cons op ops ih =>
    obtain ⟨t, hp, hr⟩ := run_cons_eq_ok hr
    obtain ⟨ha, hgone⟩ := hs.gone_perform hp ha hgone
    exact ih (hs.perform hp) hr ha hgone

theorem Sound.run_isOk {ops : List Operation} (hs : s.Sound)
    (hroom : firstByte + s.heap.stats.allocatedBytes + (ops.map Operation.bytes).sum <
      0x10000000000000000) : ∃ s', s.run ops = .ok s' := by
  induction ops generalizing s with
  | nil => exact ⟨s, rfl⟩
  | cons op ops ih =>
    rw [List.map_cons, List.sum_cons] at hroom
    obtain ⟨t, hp⟩ := hs.perform_isOk op (by omega)
    have hbytes := hs.allocatedBytes_perform hp
    obtain ⟨s', hr⟩ := ih (hs.perform hp) (by omega)
    refine ⟨s', ?_⟩
    simp only [History.run, hp]
    exact hr

theorem start_run_isOk (initial minimum : Nat)
    (hbytes : (ops.map Operation.bytes).sum < 0x8000000000000000) :
    ∃ s, (start initial minimum).run ops = .ok s := by
  apply (sound_start initial minimum).run_isOk
  show firstByte + 0 + _ < _
  unfold firstByte
  omega

end History

namespace WellFormed

variable {h : Heap}

theorem live_perm_keys (hw : h.WellFormed) : h.live.Perm h.cells.keys := by
  rw [List.perm_ext_iff_of_nodup hw.live_nodup Std.TreeMap.nodup_keys]
  intro a
  rw [hw.mem_live, Std.TreeMap.mem_keys]

theorem bytes_eq_cells (hw : h.WellFormed) :
    h.liveBytes = (h.cells.toList.map fun p => p.2.footprint).sum := by
  have hcells : h.cells.toList.map (fun p => p.2.footprint) = h.cells.keys.map h.footprintAt := by
    rw [← Std.TreeMap.map_fst_toList_eq_keys, List.map_map]
    apply List.map_congr_left
    intro p hp
    have hget : h.cells[p.1]? = some p.2 := Std.TreeMap.mem_toList_iff_getElem?_eq_some.mp hp
    simp [footprintAt, hget]
  rw [hw.bytes_eq, hcells]
  exact (hw.live_perm_keys.map _).sum_eq

theorem endOf_eq (hw : h.WellFormed) {c : Cell} (hc : h.cells[a]? = some c) :
    endOf a c = startOf a + c.footprint := by
  have := (hw.placed a c hc).low
  unfold firstByte headerSize at this
  unfold endOf startOf Cell.footprint headerSize
  omega

end WellFormed

/-! ## What every history guarantees -/

/-- Everything that the parts of a heap promise to one another, and what its past promises to the
addresses to come. -/
structure History.Coherent (s : History) : Prop where
  /-- The links that the headers hold lead from the newest object through every object once, each
  below the one before, and end there. -/
  links : Links.Leads s.heap.links.next s.heap.links.head s.heap.live
  mem_live : ∀ a : Nat, a ∈ s.heap.live ↔ a ∈ s.heap.cells
  falling : s.heap.live.Pairwise fun a b : Nat => b < a
  /-- The links of a region lead through the objects whose headers start in it, each once. -/
  regionLinks : ∀ r, Links.Leads s.heap.links.nextInRegion s.heap.links.heads[r]? (s.heap.region r)
  mem_region : ∀ r a : Nat, a ∈ s.heap.region r ↔ a ∈ s.heap.cells ∧ startOf a / 4096 = r
  region_nodup : ∀ r, (s.heap.region r).Nodup
  /-- Objects lie apart, between the first byte and the place of the next header. -/
  apart : ∀ (a b : Nat) (c d : Cell), s.heap.cells[a]? = some c → s.heap.cells[b]? = some d →
    a ≠ b → endOf a c ≤ startOf b ∨ endOf b d ≤ startOf a
  within : ∀ (a : Nat) (c : Cell), s.heap.cells[a]? = some c → a % 16 = 0 ∧
    0x100000 ≤ startOf a ∧ endOf a c = startOf a + c.footprint ∧ endOf a c ≤ s.heap.nextFree
  /-- Every address that is handed out is greater than all before it. -/
  rising : s.handed.Pairwise fun a b : Nat => b < a
  next_above : ∀ a ∈ s.handed, a < s.heap.nextAddress
  live_handed : ∀ a : Nat, a ∈ s.heap.cells → a ∈ s.handed
  gone : ∀ (later : List Operation) (t : History), s.run later = .ok t →
    ∀ a ∈ s.handed, a ∉ s.heap.cells → a ∉ t.heap.cells
  widest : ∀ (a : Nat) (c : Cell), s.heap.cells[a]? = some c → c.footprint ≤ s.heap.widest
  liveObjects : s.heap.liveObjects = s.heap.cells.size
  liveBytes : s.heap.liveBytes = (s.heap.cells.toList.map fun p => p.2.footprint).sum
  objects : s.heap.stats.allocatedObjects = s.heap.stats.freedObjects + s.heap.liveObjects
  bytes : s.heap.stats.allocatedBytes = s.heap.stats.freedBytes + s.heap.liveBytes

theorem History.Sound.coherent {s : History} (hs : s.Sound) : s.Coherent where
  links := hs.wellFormed.leads
  mem_live := hs.wellFormed.mem_live
  falling := hs.wellFormed.live_sorted
  regionLinks := hs.wellFormed.leads_region
  mem_region := hs.wellFormed.mem_region
  region_nodup := hs.wellFormed.region_nodup
  apart a b c d hc hd hne := by
    rcases Nat.lt_or_gt_of_ne hne with hlt | hgt
    · exact .inl (hs.wellFormed.apart a b c hc ((NatMap.mem_iff_getElem? _ _).mpr ⟨d, hd⟩) hlt)
    · exact .inr (hs.wellFormed.apart b a d hd ((NatMap.mem_iff_getElem? _ _).mpr ⟨c, hc⟩) hgt)
  within a c hc := by
    have hplcd := hs.wellFormed.placed a c hc
    refine ⟨hplcd.aligned, ?_, hs.wellFormed.endOf_eq hc, hplcd.high⟩
    have := hplcd.low
    unfold firstByte headerSize at this
    unfold startOf headerSize
    omega
  rising := hs.handed_sorted
  next_above := hs.handed_below
  live_handed := hs.live_handed
  gone _ _ hr _ ha hgone := hs.gone_run hr ha hgone
  widest := hs.wellFormed.le_widest
  liveObjects := hs.wellFormed.objects_eq_size
  liveBytes := hs.wellFormed.bytes_eq_cells
  objects := hs.wellFormed.allocated_objects
  bytes := hs.wellFormed.allocated_bytes

/-- **The heap is coherent at any time**: operations whose bytes fit into the address space succeed
in any order, and leave a coherent history. -/
theorem run_coherent (initial minimum : Nat) (ops : List Operation)
    (hbytes : (ops.map Operation.bytes).sum < 0x8000000000000000) :
    ∃ s, (History.start initial minimum).run ops = .ok s ∧ s.Coherent := by
  obtain ⟨s, hr⟩ := History.start_run_isOk initial minimum hbytes
  exact ⟨s, hr, ((History.sound_start initial minimum).run hr).coherent⟩

/-- Two neighbours of one region and a pinned object that spans three, of which one neighbour dies
and its place is not used again; the queue holds an interior word and a dead address at the time. -/
def Operation.busy : List Operation :=
  [.insert (.str "a") false, .insert (.array ⟨0, 0, none⟩) false,
    .insert (.buffer ⟨0x100060, Array.replicate 600 .null⟩) true,
    .change 0x100060 fun _ => .array ⟨0, 600, some 0x1000a0⟩, .markWord 0x100065, .mark 0x5,
    .trace, .sweep, .insert (.cls { name := "b" }) false, .sweep, .mark 0x100020, .trace]

theorem run_coherent_busy : (Operation.busy.map Operation.bytes).sum < 0x8000000000000000 ∧
    ∃ s, (History.start 2 1).run Operation.busy = .ok s ∧ s.Coherent := by
  have hbytes : (Operation.busy.map Operation.bytes).sum < 0x8000000000000000 := by
    decide +kernel
  exact ⟨hbytes, run_coherent 2 1 Operation.busy hbytes⟩

/-- The owner of a word by looking at every object. -/
def scan (h : Heap) (word : Nat) : Option Address :=
  (h.cells.toList.find? fun p => startOf p.1 ≤ word && word < endOf p.1 p.2).map Prod.fst

theorem scan_eq_some (hs : h.scan word = some a) : h.covers word a = true := by
  obtain ⟨p, hp, rfl⟩ := Option.map_eq_some_iff.mp hs
  have hcov := List.find?_some hp
  have hmem := Std.TreeMap.mem_toList_iff_getElem?_eq_some.mp (List.mem_of_find?_eq_some hp)
  simp only [Bool.and_eq_true, decide_eq_true_eq] at hcov
  exact WellFormed.covers_iff.mpr ⟨p.2, hmem, hcov⟩

theorem scan_isSome (hc : h.covers word a = true) : (h.scan word).isSome := by
  obtain ⟨c, hcell, hlow, hhigh⟩ := WellFormed.covers_iff.mp hc
  rw [scan, Option.isSome_map, List.find?_isSome]
  exact ⟨(a, c), Std.TreeMap.mem_toList_iff_getElem?_eq_some.mpr hcell, by simp [hlow, hhigh]⟩

theorem ownerOf_eq_scan (hw : h.WellFormed) (word : Nat) : h.ownerOf word = h.scan word := by
  cases hscan : h.scan word with
  | some a => exact (ownerOf_eq_some_iff hw).mpr (scan_eq_some hscan)
  | none =>
    cases hown : h.ownerOf word with
    | none => rfl
    | some a =>
      have hsome := scan_isSome ((ownerOf_eq_some_iff hw).mp hown)
      rw [hscan] at hsome
      cases hsome

/-- **The search for owners is exact at any time**: the owner of a word is the one live object whose
header or aligned payload contains it, and the search finds what a scan of all objects finds. -/
theorem ownerOf_exact (initial minimum : Nat) (ops : List Operation) {s : History}
    (hr : (History.start initial minimum).run ops = .ok s) (word : Nat) :
    (∀ a : Nat, s.heap.ownerOf word = some a ↔
      ∃ c, s.heap.cells[a]? = some c ∧ startOf a ≤ word ∧ word < startOf a + c.footprint) ∧
    (∀ (a b : Nat) (c d : Cell), s.heap.cells[a]? = some c → s.heap.cells[b]? = some d →
      startOf a ≤ word → word < startOf a + c.footprint →
      startOf b ≤ word → word < startOf b + d.footprint → a = b) ∧
    s.heap.ownerOf word = s.heap.scan word := by
  have hw := ((History.sound_start initial minimum).run hr).wellFormed
  have hcov : ∀ a : Nat, s.heap.covers word a = true ↔
      ∃ c, s.heap.cells[a]? = some c ∧ startOf a ≤ word ∧ word < startOf a + c.footprint := by
    intro a
    rw [WellFormed.covers_iff]
    refine exists_congr fun c => and_congr_right fun hc => ?_
    rw [hw.endOf_eq hc]
  refine ⟨fun a => (ownerOf_eq_some_iff hw).trans (hcov a), ?_, ownerOf_eq_scan hw word⟩
  intro a b c d hc hd ha ha' hb hb'
  exact hw.eq_of_covers ((hcov a).mpr ⟨c, hc, ha, ha'⟩) ((hcov b).mpr ⟨d, hd, hb, hb'⟩)

/-- After the sweeps of a busy history, at a word in the middle of an object that starts two regions
before it. -/
theorem ownerOf_exact_busy : ∃ s, (History.start 2 1).run Operation.busy = .ok s ∧
    (∀ a : Nat, s.heap.ownerOf 0x102000 = some a ↔ ∃ c, s.heap.cells[a]? = some c ∧
      startOf a ≤ 0x102000 ∧ 0x102000 < startOf a + c.footprint) ∧
    s.heap.ownerOf 0x102000 = s.heap.scan 0x102000 := by
  obtain ⟨s, hr⟩ := History.start_run_isOk 2 1
    (show (Operation.busy.map Operation.bytes).sum < 0x8000000000000000 by decide +kernel)
  have hexact := ownerOf_exact 2 1 Operation.busy hr 0x102000
  exact ⟨s, hr, hexact.1, hexact.2.2⟩

end Ember.Heap
