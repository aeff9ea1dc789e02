import Ember.Proofs.Heap.Growth
import Ember.Proofs.Host.Collection

/-!
# Ember — making room

Before an object is placed, room is made for it: by no collection, by one or by two. Here is what that
comes to, and what a host keeps to in the long run because every object is placed in this way: its
live bytes stay within the memory limit, and its objects within two of the threshold.

Main result: `Keeps`.
-/

namespace Ember

variable {pinned : Bool} {c : Cell} {h' : Host} {e : Interrupt} {a bytes n objects : Nat}
  {o : Object} {f : Object → Object}

/-! ## The layout of objects -/

namespace Heap

variable {h : Heap}

/-- Arrays have room for their elements, exactly the classes are pinned, and an object takes the bytes
that it was placed with. -/
structure Laid (h : Heap) : Prop where
  arrays : ∀ (a : Nat) (o : ArrayObject), h.get? a = some (.array o) → o.Fits h
  pinned : ∀ (a : Nat) (c : Cell), h.cells[a]? = some c → (c.pinned = true ↔ c.object.kind = .cls)
  sized : ∀ (a : Nat) (c : Cell), h.cells[a]? = some c → c.size = c.object.size ∧ 0 < c.size

theorem laid_empty (initial minimum : Nat) : (empty initial minimum).Laid := by
  have hnone : ∀ a : Nat, (empty initial minimum).cells[a]? = none := fun a => by simp [empty]
  refine ⟨fun a o ho => ?_, fun a c hc => ?_, fun a c hc => ?_⟩
  · obtain ⟨c, hc, -⟩ := get?_eq_some_iff.mp ho
    rw [hnone] at hc
    cases hc
  · rw [hnone] at hc
    cases hc
  · rw [hnone] at hc
    cases hc

theorem Laid.place (hl : h.Laid) (hw : h.WellFormed) (harr : ∀ o, c.object = .array o → o.Fits h)
    (hpin : c.pinned = true ↔ c.object.kind = .cls) (hsize : c.size = c.object.size)
    (hpos : 0 < c.size) : (h.place c).Laid := by
  have hmono : ∀ o : ArrayObject, o.Fits h → o.Fits (h.place c) := fun o ho =>
    ho.mono fun _ _ _ hk => kindAt_place_of_some hw c hk
  constructor
  case arrays =>
    intro a o ho
    rw [get?_place] at ho
    split at ho
    · exact hmono o (harr o (Option.some.inj ho))
    · exact hmono o (hl.arrays a o ho)
  case pinned =>
    intro a d hd
    rw [getElem?_place] at hd
    split at hd
    · cases hd
      exact hpin
    · exact hl.pinned a d hd
  case sized =>
    intro a d hd
    rw [getElem?_place] at hd
    split at hd
    · cases hd
      exact ⟨hsize, hpos⟩
    · exact hl.sized a d hd

theorem Laid.modify (hl : h.Laid) (hkind : ∀ o, h.get? a = some o → (f o).kind = o.kind)
    (hsize : ∀ o, h.get? a = some o → (f o).size = o.size)
    (harr : ∀ o p, h.get? a = some o → f o = .array p → p.Fits h) : (h.modify a f).Laid := by
  have hmono : ∀ o : ArrayObject, o.Fits h → o.Fits (h.modify a f) := fun o ho =>
    ho.mono fun b _ _ hk => (kindAt_modify h hkind b).trans hk
  -- the change keeps kinds and sizes, which is all that the layout looks at
  have hcell : ∀ (b : Nat) (c : Cell), (h.modify a f).cells[b]? = some c →
      ∃ d, h.cells[b]? = some d ∧ c.pinned = d.pinned ∧ c.size = d.size ∧
        c.object.kind = d.object.kind ∧ c.object.size = d.object.size := by
    intro b c hc
    rw [getElem?_modify] at hc
    split at hc
    · rename_i heq
      subst heq
      obtain ⟨d, hd, rfl⟩ := Option.map_eq_some_iff.mp hc
      have hget := get?_eq_some_iff.mpr ⟨d, hd, rfl⟩
      exact ⟨d, hd, rfl, rfl, hkind _ hget, hsize _ hget⟩
    · exact ⟨c, hc, rfl, rfl, rfl, rfl⟩
  constructor
  case arrays =>
    intro b o ho
    rw [get?_modify] at ho
    split at ho
    · rename_i heq
      subst heq
      obtain ⟨p, hp, hfp⟩ := Option.map_eq_some_iff.mp ho
      exact hmono o (harr p o hp hfp)
    · exact hmono o (hl.arrays b o ho)
  case pinned =>
    intro b c hc
    obtain ⟨d, hd, hpin, -, hkind, -⟩ := hcell b c hc
    rw [hpin, hkind]
    exact hl.pinned b d hd
  case sized =>
    intro b c hc
    obtain ⟨d, hd, -, hsize, -, hobj⟩ := hcell b c hc
    rw [hsize, hobj]
    exact hl.sized b d hd

theorem WellFormed.liveBytes_congr {h' : Heap} (hw : h.WellFormed) (hw' : h'.WellFormed)
    (hcells : ∀ a : Nat, h'.cells[a]? = h.cells[a]?) : h'.liveBytes = h.liveBytes := by
  have hfootprint : h'.footprintAt = h.footprintAt := by
    funext a
    unfold footprintAt
    rw [hcells a]
  have hperm : h'.live.Perm h.live := by
    rw [List.perm_ext_iff_of_nodup hw'.live_nodup hw.live_nodup]
    intro a
    rw [hw'.mem_live, hw.mem_live, NatMap.mem_iff_getElem?, NatMap.mem_iff_getElem?, hcells a]
  rw [hw'.bytes_eq, hw.bytes_eq, hfootprint]
  exact (hperm.map _).sum_eq

theorem WellFormed.footprint_le (hw : h.WellFormed) (hc : h.cells[a]? = some c) :
    c.footprint ≤ h.liveBytes := by
  have hmem : a ∈ h.live := (hw.mem_live a).mpr ((NatMap.mem_iff_getElem? _ _).mpr ⟨c, hc⟩)
  have hat : h.footprintAt a = c.footprint := by
    unfold footprintAt
    rw [hc]
    rfl
  rw [hw.bytes_eq, ← hat]
  exact List.single_le_sum (fun _ _ => Nat.zero_le _) _ (List.mem_map_of_mem hmem)

end Heap

namespace Host

variable {h g : Host} {α β : Type}

/-! ## Sequences -/

theorem bind_apply (x : Act α) (f : α → Act β) (h : Host) :
    (x >>= f) h = match x h with
      | .ok a h => f a h
      | .error e h => .error e h := by
  cases hx : x h <;> simp only [bind, EStateM.bind, hx]

theorem bind_ok {x : Act α} {f : α → Act β} {a : α} (hx : x h = .ok a h') :
    (x >>= f) h = f a h' := by
  rw [bind_apply, hx]

theorem get_bind (f : Host → Act β) (h : Host) : (get >>= f) h = f h h :=
  rfl

theorem bind_error {x : Act α} {f : α → Act β} (hx : x h = .error e h') :
    (x >>= f) h = .error e h' := by
  rw [bind_apply, hx]

theorem bind_eq_ok {x : Act α} {f : α → Act β} {b : β} (hx : (x >>= f) h = .ok b h') :
    ∃ a g, x h = .ok a g ∧ f a g = .ok b h' := by
  rw [bind_apply] at hx
  split at hx
  · exact ⟨_, _, ‹_›, hx⟩
  · cases hx

theorem map_apply (x : Act α) (f : α → β) (h : Host) :
    (f <$> x) h = match x h with
      | .ok a h => .ok (f a) h
      | .error e h => .error e h := by
  cases hx : x h <;> simp only [Functor.map, EStateM.map, hx]

theorem inspect_ok {f : Heap → Except Fault α} {a : α} (hf : f h.heap = .ok a) :
    inspect f h = .ok a h := by
  simp only [inspect, hf]

theorem inspect_error {f : Heap → Except Fault α} {e : Fault} (hf : f h.heap = .error e) :
    inspect f h = .error (.fault e) h := by
  simp only [inspect, hf]

theorem insert_eq (h : Host) (o : Object) (pinned : Bool) :
    Host.insert o pinned h =
      if h.heap.nextFree + (headerSize + align o.size) < 0x10000000000000000 then
        .ok h.heap.nextAddress
          { h with heap := h.heap.place { object := o, size := o.size, pinned } }
      else .error (.fault .overflow) h := by
  unfold Host.insert Heap.insert Cell.footprint
  by_cases hfit : h.heap.nextFree + (headerSize + align o.size) < 0x10000000000000000
  · simp only [if_pos hfit]
  · simp only [if_neg hfit]

theorem exceeds_eq (h : Host) (bytes : Nat) :
    exceeds bytes h = if h.heap.liveBytes + bytes < 0x10000000000000000 then
      .ok (decide (h.heap.liveBytes + bytes > h.config.memoryLimit)) h
    else .error (.fault .overflow) h := by
  unfold exceeds
  rw [get_bind]
  unfold Heap.sum64
  split <;> rfl

/-! ## Collections -/

theorem getElem?_of_collected (ho : h.Orderly) (hc : h.collected.cells[a]? = some c) :
    h.Retained a ∧ h.heap.cells[a]? = some c := by
  classical
  rw [getElem?_collected ho] at hc
  split at hc
  · exact ⟨‹_›, hc⟩
  · cases hc

theorem kindAt_collected (ho : h.Orderly) (hr : h.Retained a) :
    h.collected.kindAt a = h.heap.kindAt a := by
  classical
  unfold Heap.kindAt Heap.get?
  rw [getElem?_collected ho, if_pos hr]

theorem liveBytes_collected_le (h : Host) : h.collected.liveBytes ≤ h.heap.liveBytes :=
  (Heap.trims_sweep _).liveBytes_le

theorem liveObjects_collected_le (ho : h.Orderly) :
    h.collected.liveObjects ≤ h.collected.threshold := by
  have hsize : h.collected.liveObjects = h.collected.cells.size :=
    (orderly_collected ho).wellFormed.objects_eq_size
  have hthr := threshold_collected ho
  omega

theorem getElem?_collected_again (ho : h.Orderly) (a : Nat) :
    ({ h with heap := h.collected } : Host).collected.cells[a]? = h.collected.cells[a]? := by
  classical
  rw [getElem?_collected (orderly_collected ho)]
  split
  · rfl
  · rename_i hnot
    cases hc : h.collected.cells[a]? with
    | none => rfl
    | some c =>
      exact absurd ((retained_collected ho a).mpr (getElem?_of_collected ho hc).1) hnot

theorem liveBytes_collected_again (ho : h.Orderly) :
    ({ h with heap := h.collected } : Host).collected.liveBytes = h.collected.liveBytes :=
  (orderly_collected ho).wellFormed.liveBytes_congr
    (orderly_collected (orderly_collected ho)).wellFormed (getElem?_collected_again ho)

theorem laid_collected (ho : h.Orderly) (hl : h.heap.Laid) : h.collected.Laid := by
  constructor
  case arrays =>
    intro a o hget
    obtain ⟨c, hc, hobj⟩ := Heap.get?_eq_some_iff.mp hget
    obtain ⟨hr, hc⟩ := getElem?_of_collected ho hc
    have hfits := hl.arrays a o (Heap.get?_eq_some_iff.mpr ⟨c, hc, hobj⟩)
    refine hfits.mono fun b k hb hk => ?_
    have hreach : h.Retained b := by
      rcases hr with hr | ⟨d, hd, hpinned⟩
      · refine .inl (.follow hr hc ?_ (Heap.mem_of_kindAt hk))
        simp [hobj, Object.references, hb]
      · cases hc.symm.trans hd
        have hkind := (hl.pinned a c hc).mp hpinned
        simp [hobj, Object.kind] at hkind
    rw [kindAt_collected ho hreach, hk]
  case pinned => exact fun a c hc => hl.pinned a c (getElem?_of_collected ho hc).2
  case sized => exact fun a c hc => hl.sized a c (getElem?_of_collected ho hc).2

/-- Some collections, and nothing else. -/
inductive Collects (h : Host) : Host → Prop
  | refl : Collects h h
  | collect {g : Host} : Collects h g → Collects h { g with heap := g.collected }

namespace Collects

section

variable (hc : Collects h g)

include hc

theorem trans {k : Host} (hk : Collects g k) : Collects h k := by
  induction hk with
  | refl => exact hc
  | collect _ ih => exact ih.collect

theorem console : g.console = h.console := by
  induction hc with
  | refl => rfl
  | collect _ ih => exact ih

theorem config : g.config = h.config := by
  induction hc with
  | refl => rfl
  | collect _ ih => exact ih

theorem nextFree : g.heap.nextFree = h.heap.nextFree := by
  induction hc with
  | refl => rfl
  | collect _ ih => exact (nextFree_collected _).trans ih

theorem orderly (ho : h.Orderly) : g.Orderly := by
  induction hc with
  | refl => exact ho
  | collect _ ih => exact orderly_collected ih

theorem get? (ho : h.Orderly) (hget : g.heap.get? a = some o) : h.heap.get? a = some o := by
  induction hc with
  | refl => exact hget
  | collect hc ih =>
    obtain ⟨c, hcell, rfl⟩ := Heap.get?_eq_some_iff.mp hget
    have hcell := (getElem?_of_collected (hc.orderly ho) hcell).2
    exact ih (Heap.get?_eq_some_iff.mpr ⟨c, hcell, rfl⟩)

theorem laid (ho : h.Orderly) (hl : h.heap.Laid) : g.heap.Laid := by
  induction hc with
  | refl => exact hl
  | collect hc ih => exact laid_collected (hc.orderly ho) ih

theorem liveBytes_le : g.heap.liveBytes ≤ h.heap.liveBytes := by
  induction hc with
  | refl => exact Nat.le_refl _
  | collect _ ih => exact Nat.le_trans (liveBytes_collected_le _) ih

theorem liveBytes_collected (ho : h.Orderly) : g.collected.liveBytes = h.collected.liveBytes := by
  induction hc with
  | refl => rfl
  | collect hc ih => exact (liveBytes_collected_again (hc.orderly ho)).trans ih

end

end Collects

/-! ## Making room -/

theorem liveObjects_le (ho : h.Orderly) : 32 * h.heap.liveObjects ≤ h.heap.liveBytes := by
  have hw := ho.wellFormed
  rw [hw.objects_eq, hw.bytes_eq]
  have hmem : ∀ a ∈ h.heap.live, 32 ≤ h.heap.footprintAt a := by
    intro a ha
    obtain ⟨c, hc⟩ := (NatMap.mem_iff_getElem? _ _).mp ((hw.mem_live a).mp ha)
    unfold Heap.footprintAt
    rw [hc]
    exact Nat.le_add_right 32 _
  generalize h.heap.live = l at hmem
  induction l with
  | nil => simp
  | cons a rest ih =>
    have ha := hmem a (.head _)
    have hrest := ih fun b hb => hmem b (.tail _ hb)
    simp only [List.map_cons, List.sum_cons, List.length_cons]
    omega

theorem shouldCollect_eq (ho : h.Orderly) (hobjs : objects ≤ 2) :
    h.heap.shouldCollect objects =
      .ok (decide (h.heap.liveObjects + objects > h.heap.threshold)) := by
  have := liveObjects_le ho
  have := ho.wellFormed.bytes_below
  have := ho.wellFormed.next_high
  unfold Heap.shouldCollect Heap.sum64
  rw [if_pos (by omega)]
  rfl

/-- There is room: after some collections, so many more bytes and objects stay within the bounds. -/
structure Roomy (h : Host) (objects bytes : Nat) (g : Host) : Prop where
  collects : Collects h g
  bytes : g.heap.liveBytes + bytes ≤ g.config.memoryLimit
  objects : g.heap.liveObjects + objects ≤ g.heap.threshold + 2

/-- How making room may end: there is room; or even a full collection leaves none, and the program is
out of memory; or the bytes do not add up in 64 bits. -/
inductive Reserves (h : Host) (objects bytes : Nat) : EStateM.Result Interrupt Host Unit → Prop
  | ok {g : Host} (roomy : Roomy h objects bytes g) : Reserves h objects bytes (.ok () g)
  | outOfMemory {g : Host} (collects : Collects h g)
      (lacking : h.config.memoryLimit < h.collected.liveBytes + bytes) :
      Reserves h objects bytes
        (.error (.fatal (.outOfMemory bytes g.heap.liveBytes g.config.memoryLimit)) g)
  | overflow {g : Host} (collects : Collects h g)
      (large : 0x10000000000000000 ≤ h.heap.liveBytes + bytes) :
      Reserves h objects bytes (.error (.fault .overflow) g)

theorem reserves_exceeds (hc : Collects h g) {x y : Act Unit}
    (hx : g.config.memoryLimit < g.heap.liveBytes + bytes → Reserves h objects bytes (x g))
    (hy : g.heap.liveBytes + bytes ≤ g.config.memoryLimit → Reserves h objects bytes (y g)) :
    Reserves h objects bytes ((do if ← exceeds bytes then x else y) g) := by
  by_cases hfit : g.heap.liveBytes + bytes < 0x10000000000000000
  · rw [bind_ok ((exceeds_eq g bytes).trans (if_pos hfit))]
    split
    · exact hx (of_decide_eq_true ‹_›)
    · exact hy (Nat.le_of_not_lt fun hlt => absurd (decide_eq_true hlt) ‹_›)
  · rw [bind_error ((exceeds_eq g bytes).trans (if_neg hfit))]
    exact .overflow hc (by have := hc.liveBytes_le; omega)

/-- **Making room** depends on the thresholds in its collections only, not in how it ends. -/
theorem reserve_cases (ho : h.Orderly) (hobjs : objects ≤ 2) (bytes : Nat) :
    Reserves h objects bytes (reserve objects bytes h) := by
  have hlast : ∀ g, Collects h g → g.heap.liveObjects + objects ≤ g.heap.threshold + 2 →
      Reserves h objects bytes ((do
        if ← exceeds bytes then
          let _ ← collect
          if ← exceeds bytes then
            let h ← get
            fatal (.outOfMemory bytes h.heap.liveBytes h.config.memoryLimit) : Act Unit) g) := by
    intro g hc hcnt
    refine reserves_exceeds hc (fun _ => ?_) fun hroom => .ok ⟨hc, hroom, hcnt⟩
    rw [bind_ok (collect_eq (hc.orderly ho))]
    refine reserves_exceeds hc.collect (fun hlack => ?_) fun hroom => .ok ⟨hc.collect, hroom, ?_⟩
    · refine .outOfMemory hc.collect ?_
      rw [← hc.liveBytes_collected ho, ← hc.config]
      exact hlack
    · have := liveObjects_collected_le (hc.orderly ho)
      show g.collected.liveObjects + objects ≤ g.collected.threshold + 2
      omega
  unfold reserve
  rw [bind_ok (inspect_ok (shouldCollect_eq ho hobjs))]
  split
  · rw [bind_ok (collect_eq ho)]
    refine hlast _ (.collect .refl) ?_
    have := liveObjects_collected_le ho
    show h.collected.liveObjects + objects ≤ h.collected.threshold + 2
    omega
  · refine hlast h .refl ?_
    have := Nat.le_of_not_lt fun hlt => absurd (decide_eq_true hlt) ‹_›
    omega

/-! ## Regular hosts -/

/-- What hosts keep to. -/
structure Regular (h : Host) : Prop where
  laid : h.heap.Laid
  bytes : h.heap.liveBytes ≤ h.config.memoryLimit
  objects : h.heap.liveObjects ≤ h.heap.threshold + 2

theorem Regular.congr (hr : h.Regular) (hheap : g.heap = h.heap) (hconfig : g.config = h.config) :
    g.Regular := by
  refine ⟨?_, ?_, ?_⟩
  · rw [hheap]
    exact hr.laid
  · rw [hheap, hconfig]
    exact hr.bytes
  · rw [hheap]
    exact hr.objects

theorem Regular.collects (hr : h.Regular) (ho : h.Orderly) (hc : Collects h g) : g.Regular := by
  induction hc with
  | refl => exact hr
  | collect hc ih =>
    exact ⟨laid_collected (hc.orderly ho) ih.laid,
      Nat.le_trans (liveBytes_collected_le _) ih.bytes,
      Nat.le_add_right_of_le (liveObjects_collected_le (hc.orderly ho))⟩

theorem regular_new (config : Config) (console : Console) : (Host.new config console).Regular :=
  ⟨Heap.laid_empty _ _, Nat.zero_le _, Nat.zero_le _⟩

theorem orderly_change (ho : h.Orderly) (a : Nat) (f : Object → Object) :
    Orderly { h with heap := h.heap.modify a f } := by
  refine ⟨ho.wellFormed.modify a f, fun b c hc => ?_, ho.idle, ho.slots⟩
  have hc : (h.heap.modify a f).cells[b]? = some c := hc
  rw [Heap.getElem?_modify] at hc
  split at hc
  · obtain ⟨d, hd, rfl⟩ := Option.map_eq_some_iff.mp hc
    exact ho.unmarked b d hd
  · exact ho.unmarked b c hc

theorem orderly_place (ho : h.Orderly) (hmarked : c.marked = false)
    (hfit : h.heap.nextFree + c.footprint < 0x10000000000000000) :
    Orderly { h with heap := h.heap.place c } := by
  refine ⟨ho.wellFormed.place c hfit, fun b d hd => ?_, ho.idle, ho.slots⟩
  have hd : (h.heap.place c).cells[b]? = some d := hd
  rw [Heap.getElem?_place] at hd
  split at hd
  · cases hd
    exact hmarked
  · exact ho.unmarked b d hd

/-- A host with room for so many more objects and bytes. -/
structure Spare (objects bytes : Nat) (h : Host) : Prop where
  laid : h.heap.Laid
  bytes : h.heap.liveBytes + bytes ≤ h.config.memoryLimit
  objects : h.heap.liveObjects + objects ≤ h.heap.threshold + 2

theorem Spare.regular (hs : Spare objects bytes h) : h.Regular :=
  ⟨hs.laid, Nat.le_of_add_right_le hs.bytes, Nat.le_of_add_right_le hs.objects⟩

theorem Roomy.spare (hroom : Roomy h objects bytes g) (ho : h.Orderly) (hr : h.Regular) :
    Spare objects bytes g :=
  ⟨hroom.collects.laid ho hr.laid, hroom.bytes, hroom.objects⟩

theorem Spare.place (hs : Spare (objects + 1) (c.footprint + bytes) h)
    (hlaid : (h.heap.place c).Laid) : Spare objects bytes { h with heap := h.heap.place c } := by
  refine ⟨hlaid, ?_, ?_⟩
  · have := hs.bytes
    show h.heap.liveBytes + c.footprint + bytes ≤ h.config.memoryLimit
    omega
  · have := hs.objects
    show h.heap.liveObjects + 1 + objects ≤ h.heap.threshold + 2
    omega

/-- What an action comes to. -/
abbrev Result (α : Type) : Type :=
  EStateM.Result Interrupt Host α

/-- The host that an action leaves, however it ends. -/
def final : EStateM.Result Interrupt Host α → Host
  | .ok _ h => h
  | .error _ h => h

/-- A regular host is left, and where the action succeeds its answer and the heap are as asked. -/
structure Keeps (Q : α → Heap → Prop) (r : EStateM.Result Interrupt Host α) : Prop where
  orderly : (final r).Orderly
  regular : (final r).Regular
  post : ∀ a g, r = .ok a g → Q a g.heap

namespace Keeps

variable {Q : α → Heap → Prop} {S : β → Heap → Prop}

theorem ok {a : α} (ho : h.Orderly) (hr : h.Regular) (ha : Q a h.heap) :
    Keeps Q (.ok a h : Result α) :=
  ⟨ho, hr, fun _ _ heq => by cases heq; exact ha⟩

theorem error (ho : h.Orderly) (hr : h.Regular) :
    Keeps Q (.error e h : Result α) :=
  ⟨ho, hr, nofun⟩

theorem bind {x : Act α} {f : α → Act β} (hx : Keeps Q (x h))
    (hf : ∀ a g, g.Orderly → g.Regular → Q a g.heap → Keeps S (f a g)) :
    Keeps S ((x >>= f) h) := by
  cases hr : x h with
  | ok a g =>
    rw [hr] at hx
    rw [bind_ok hr]
    exact hf a g hx.orderly hx.regular (hx.post a g rfl)
  | error e g =>
    rw [hr] at hx
    rw [bind_error hr]
    exact .error hx.orderly hx.regular

theorem inspect_bind (ho : h.Orderly) (hr : h.Regular) {k : Heap → Except Fault α} {f : α → Act β}
    (hf : ∀ a, k h.heap = .ok a → Keeps S (f a h)) : Keeps S ((Host.inspect k >>= f) h) := by
  cases ha : k h.heap with
  | ok a =>
    rw [bind_ok (inspect_ok ha)]
    exact hf a ha
  | error e =>
    rw [bind_error (inspect_error ha)]
    exact .error ho hr

theorem withFrame (vs : List Value) {x : Act α}
    (hx : Keeps Q (x { h with stack := h.stack.pushValues vs })) :
    Keeps Q (Host.withFrame vs x h) := by
  unfold Host.withFrame
  cases hr : x { h with stack := h.stack.pushValues vs } with
  | ok a g =>
    rw [hr] at hx
    exact .ok (hx.orderly.withStack _) (hx.regular.congr rfl rfl) (hx.post a g rfl)
  | error e g =>
    rw [hr] at hx
    exact .error (hx.orderly.withStack _) (hx.regular.congr rfl rfl)

theorem sound_bind (ho : h.Orderly) (hr : h.Regular) {r : Except Fault α} {f : α → Act β}
    (hf : ∀ a, r = .ok a → Keeps S (f a h)) : Keeps S ((Host.sound r >>= f) h) := by
  cases r with
  | ok a => exact hf a rfl
  | error e => exact .error ho hr

theorem change {Q : Unit → Heap → Prop} (ho : h.Orderly) (hr : h.Regular)
    (hlaid : (h.heap.modify a f).Laid) (hQ : Q () (h.heap.modify a f)) : Keeps Q (Host.change a f h) :=
  .ok (orderly_change ho a f) ⟨hlaid, hr.bytes, hr.objects⟩ hQ

theorem reserve_bind (ho : h.Orderly) (hr : h.Regular) (hobjs : objects ≤ 2) {f : Unit → Act β}
    (hf : ∀ g, Collects h g → g.Orderly → Spare objects bytes g → Keeps S (f () g)) :
    Keeps S ((Host.reserve objects bytes >>= f) h) := by
  have hcases := reserve_cases ho hobjs bytes
  generalize hres : Host.reserve objects bytes h = r at hcases
  cases hcases with
  | ok roomy =>
    rw [bind_ok hres]
    exact hf _ roomy.collects (roomy.collects.orderly ho) (roomy.spare ho hr)
  | outOfMemory collects lacking =>
    rw [bind_error hres]
    exact .error (collects.orderly ho) (hr.collects ho collects)
  | overflow collects large =>
    rw [bind_error hres]
    exact .error (collects.orderly ho) (hr.collects ho collects)

theorem insert_bind (ho : h.Orderly) {n m : Nat} {o : Object} {pinned : Bool}
    (hs : Spare (n + 1) (headerSize + align o.size + m) h)
    (harr : ∀ p, o = .array p → p.Fits h.heap) (hpin : pinned = true ↔ o.kind = .cls)
    (hpos : 0 < o.size) {f : Address → Act β}
    (hf : ∀ g, g.Orderly → Spare n m g →
      g.heap = h.heap.place { object := o, size := o.size, pinned } →
      Keeps S (f h.heap.nextAddress g)) :
    Keeps S ((Host.insert o pinned >>= f) h) := by
  by_cases hfit : h.heap.nextFree + (headerSize + align o.size) < 0x10000000000000000
  · rw [bind_ok ((insert_eq h o pinned).trans (if_pos hfit))]
    have hlaid : (h.heap.place { object := o, size := o.size, pinned }).Laid :=
      hs.laid.place ho.wellFormed harr hpin rfl hpos
    exact hf _ (orderly_place (c := { object := o, size := o.size, pinned }) ho rfl hfit)
      (Spare.place (c := { object := o, size := o.size, pinned }) hs hlaid) rfl
  · rw [bind_error ((insert_eq h o pinned).trans (if_neg hfit))]
    exact .error ho hs.regular

end Keeps

/-! ## Allocation -/

theorem footprint_ok {size : Nat} (hb : Heap.footprint size = .ok bytes) :
    bytes = headerSize + align size := by
  unfold Heap.footprint Heap.sum64 at hb
  split at hb
  · exact (Except.ok.inj hb).symm
  · cases hb

theorem keeps_allocate (ho : h.Orderly) (hr : h.Regular) (harr : ∀ p, o ≠ .array p)
    (hpin : pinned = true ↔ o.kind = .cls) (hpos : 0 < o.size) :
    Keeps (fun a k => k.get? a = some o ∧
        ∀ (b : Nat) (p : Object), k.get? b = some p → b = a ∨ h.heap.get? b = some p)
      (allocate o pinned h) := by
  unfold allocate
  refine .sound_bind ho hr fun bytes hbytes => ?_
  obtain rfl := footprint_ok hbytes
  refine .reserve_bind ho hr (by omega) fun g hc ho' hs => ?_
  have hinsert := Keeps.insert_bind (f := Pure.pure) (m := 0) (n := 0) ho' hs
    (fun p hp => absurd hp (harr p)) hpin hpos fun k hk hs hheap => .ok hk hs.regular (Q := fun a k =>
      k.get? a = some o ∧ ∀ (b : Nat) (p : Object), k.get? b = some p → b = a ∨ h.heap.get? b = some p) ?_
  · rwa [bind_pure] at hinsert
  rw [hheap]
  refine ⟨?_, fun b p hp => ?_⟩
  · rw [Heap.get?_place, if_pos rfl]
  · rw [Heap.get?_place] at hp
    split at hp
    · exact .inl (Eq.symm ‹_›)
    · exact .inr (hc.get? ho hp)

theorem get?_of_arrayAt {k : Heap} {o : ArrayObject} (h : k.arrayAt a = .ok o) :
    k.get? a = some (.array o) := by
  unfold Heap.arrayAt Heap.object at h
  cases hget : k.get? a with
  | none =>
    rw [hget] at h
    cases h
  | some p =>
    rw [hget] at h
    cases p with
    | array o' => exact congrArg (fun o => some (Object.array o)) (Except.ok.inj h)
    | str | buffer | dict | cls | inst => cases h

theorem keeps_changeArray (ho : h.Orderly) (hr : h.Regular) {f : ArrayObject → ArrayObject}
    (hf : ∀ o, h.heap.get? a = some (.array o) → (f o).Fits h.heap) :
    Keeps (fun _ k => ∃ o, h.heap.get? a = some (.array o) ∧ k.get? a = some (.array (f o)))
      (changeArray a f h) := by
  unfold changeArray
  refine .inspect_bind ho hr fun o harr => ?_
  have hget := get?_of_arrayAt harr
  have hof : ∀ p, h.heap.get? a = some p → p = .array o := fun p hp =>
    Option.some.inj (hp.symm.trans hget)
  refine .change ho hr (hr.laid.modify (fun p hp => hof p hp ▸ rfl) (fun p hp => hof p hp ▸ rfl) ?_)
    ⟨o, hget, ?_⟩
  · intro p q hp hq
    obtain rfl := hof p hp
    exact Object.array.inj hq ▸ hf o hget
  · rw [Heap.get?_modify, if_pos rfl, hget]
    rfl

theorem size_storage (elements : Array Value) (capacity : Nat) :
    (storage elements capacity).size = max elements.size capacity := by
  simp only [storage, Array.size_append, Array.size_replicate]
  omega

theorem utf8ByteSize_appendTimes (text : String) (n : Nat) (out : String) :
    (appendTimes text n out).utf8ByteSize = out.utf8ByteSize + text.utf8ByteSize * n := by
  induction n generalizing out with
  | zero => simp [appendTimes]
  | succ n ih =>
    rw [appendTimes, ih, String.utf8ByteSize_append, Nat.mul_succ]
    omega

theorem utf8ByteSize_repeatText (text : String) (n : Nat) :
    (repeatText text n).utf8ByteSize = text.utf8ByteSize * n := by
  unfold repeatText
  split
  · rename_i hempty
    rw [String.isEmpty_iff.mp hempty]
    simp
  · rw [utf8ByteSize_appendTimes]
    simp

section

variable (ho : h.Orderly) (hr : h.Regular)

include ho hr

theorem keeps_allocateArray (elements : Array Value) :
    Keeps (fun _ _ => True) (allocateArray elements h) := by
  unfold allocateArray
  refine .withFrame _ ?_
  have ho := ho.withStack (h.stack.pushValues elements.toList)
  have hr : Regular { h with stack := h.stack.pushValues elements.toList } := hr.congr rfl rfl
  refine .sound_bind ho hr fun array harr => .sound_bind ho hr fun buffer hbuf => ?_
  obtain rfl := footprint_ok harr
  obtain rfl := footprint_ok hbuf
  have hroom : (storage elements (max elements.size minCapacity)).size =
      max elements.size minCapacity := by
    rw [size_storage]
    omega
  refine .reserve_bind ho hr (Nat.le_refl 2) fun g _ ho hs => ?_
  refine .insert_bind (n := 1) (o := .array { len := 0, capacity := 0, buffer := none }) ho hs
    (fun p hp => ?_) (by simp [Object.kind]) (Nat.succ_pos 23) fun k ho hs hk => ?_
  · cases hp
    exact ⟨Nat.le_refl 0, rfl⟩
  refine .insert_bind (n := 0) (m := 0) ho ?_ ?_ (by simp [Object.kind]) ?_
    fun m ho hs hm => ?_
  · rw [Object.size, hroom]
    exact hs
  · exact fun _ hp => by cases hp
  · rw [Object.size, hroom]
    unfold minCapacity
    omega
  refine (keeps_changeArray ho hs.regular fun _ _ => ?_).bind fun _ n ho hr _ => .ok ho hr trivial
  refine ⟨Nat.le_max_left .., _, ?_, Nat.le_refl _⟩
  rw [hm, Heap.kindAt_place, if_pos rfl]
  exact congrArg (fun n => some (Kind.buffer n)) hroom

theorem keeps_storeElement (a index : Nat) (v : Value) :
    Keeps (fun _ k => ∀ o, h.heap.get? a = some (.array o) → k.get? a = some (.array o))
      (storeElement a index v h) := by
  unfold storeElement
  refine .inspect_bind ho hr fun o harr => ?_
  cases o.buffer with
  | none => exact .ok ho hr fun _ ho => ho
  | some b =>
    refine .inspect_bind ho hr fun p hp => ?_
    cases p with
    | buffer buf =>
      have hget : h.heap.get? b = some (.buffer buf) := by
        unfold Heap.object at hp
        split at hp
        · exact Except.ok.inj hp ▸ ‹_›
        · cases hp
      simp only
      split
      · have hof : ∀ p, h.heap.get? b = some p → p = .buffer buf := fun p hp =>
          Option.some.inj (hp.symm.trans hget)
        refine .change ho hr (hr.laid.modify (fun p hp => by rw [hof p hp]; simp [Object.kind])
          (fun p hp => by rw [hof p hp]; simp [Object.size]) fun p q hp hq => ?_) fun o' ho' => ?_
        · rw [hof p hp] at hq
          cases hq
        · rw [Heap.get?_modify, if_neg, ho']
          rintro rfl
          cases hof _ ho'
      · exact .error ho hr
    | str | array | dict | cls | inst => exact .ok ho hr fun _ ho => ho

theorem keeps_grow {o : ArrayObject} (v : Value)
    (hget : h.heap.get? a = some (.array o)) (hfull : o.len = o.capacity) :
    Keeps (fun _ k => ∃ o', k.get? a = some (.array o') ∧ o'.len = o.len ∧ o.len < o'.capacity)
      (grow a o v h) := by
  unfold grow
  refine .inspect_bind ho hr fun elements _ => .withFrame _ ?_
  have ho := ho.withStack (h.stack.pushValues [.array a, v])
  have hr : Regular { h with stack := h.stack.pushValues [.array a, v] } := hr.congr rfl rfl
  have hlarger : o.len < max (o.capacity * 2) minCapacity := by
    unfold minCapacity
    omega
  have hroom := size_storage elements (max (o.capacity * 2) minCapacity)
  refine (keeps_allocate ho hr ?_ (by simp [Object.kind]) ?_).bind fun b g ho hr hb => ?_
  · exact fun _ hp => by cases hp
  · rw [Object.size, hroom]
    omega
  obtain ⟨hb, hold⟩ := hb
  -- the array is not the new buffer, so it is as it was
  have hsame : ∀ o', g.heap.get? a = some (.array o') → o' = o := by
    intro o' ho'
    rcases hold a _ ho' with rfl | ho'
    · cases Option.some.inj (ho'.symm.trans hb)
    · exact Object.array.inj (Option.some.inj (ho'.symm.trans hget))
  have hchange := keeps_changeArray (a := a)
    (f := fun o' => { o' with buffer := some b, capacity := max (o.capacity * 2) minCapacity }) ho hr
    fun o' ho' => by
      obtain rfl := hsame o' ho'
      refine ⟨Nat.le_of_lt hlarger, _, Heap.kindAt_of_get? hb, ?_⟩
      show _ ≤ (storage elements _).size
      rw [hroom]
      exact Nat.le_max_right ..
  refine ⟨hchange.orderly, hchange.regular, fun u k hk => ?_⟩
  obtain ⟨o', ho', hk⟩ := hchange.post u k hk
  obtain rfl := hsame o' ho'
  exact ⟨_, hk, rfl, hlarger⟩

theorem keeps_storeLast {o : ArrayObject} (v : Value)
    (hget : h.heap.get? a = some (.array o)) (hroom : o.len < o.capacity) :
    Keeps (fun _ _ => True)
      ((do storeElement a n v; changeArray a fun o => { o with len := o.len + 1 }) h) := by
  refine (keeps_storeElement ho hr a n v).bind fun _ g ho hr hsame => ?_
  have hget := hsame o hget
  have hchange := keeps_changeArray (a := a) (f := fun o => { o with len := o.len + 1 }) ho hr
    fun o' ho' => by
      obtain rfl := Object.array.inj (Option.some.inj (ho'.symm.trans hget))
      exact ⟨hroom, (hr.laid.arrays a o' ho').2⟩
  exact ⟨hchange.orderly, hchange.regular, fun _ _ _ => trivial⟩

theorem keeps_pushElement (a : Nat) (v : Value) : Keeps (fun _ _ => True) (pushElement a v h) := by
  unfold pushElement
  refine .inspect_bind ho hr fun o harr => ?_
  have hget := get?_of_arrayAt harr
  split
  · rename_i hfull
    refine (keeps_grow ho hr v hget hfull).bind fun _ g ho hr hgrown => ?_
    obtain ⟨o', hget', hlen, hroom⟩ := hgrown
    exact keeps_storeLast ho hr v hget' (hlen ▸ hroom)
  · rename_i hroom
    exact keeps_storeLast ho hr v hget (Nat.lt_of_le_of_ne (hr.laid.arrays a o hget).1 hroom)

theorem keeps_change (hkind : ∀ o, (f o).kind = o.kind)
    (hsize : ∀ o, (f o).size = o.size) (harr : ∀ o p, f o = .array p → o = .array p) :
    Keeps (fun _ _ => True) (change a f h) := by
  exact .change ho hr (hr.laid.modify (fun o _ => hkind o) (fun o _ => hsize o) fun o p hget hp =>
    hr.laid.arrays a p (harr o p hp ▸ hget)) trivial

theorem keeps_setEntry (a : Nat) (key : String) (v : Value) :
    Keeps (fun _ _ => True) (setEntry a key v h) := by
  refine .inspect_bind ho hr fun _ _ => keeps_change ho hr ?_ ?_ ?_
  · rintro (_ | _ | _ | _ | _ | _) <;> rfl
  · rintro (_ | _ | _ | _ | _ | _) <;> simp [Object.size, Dict.insert]
  · rintro (_ | _ | _ | _ | _ | _) p hp <;> simp_all

theorem keeps_changeClass (v : Value)
    (f : ClassObject → ClassObject) : Keeps (fun _ _ => True) (changeClass v f h) := by
  unfold changeClass
  cases v.address? with
  | none => exact .ok ho hr trivial
  | some a =>
    refine .inspect_bind ho hr fun _ _ => keeps_change ho hr ?_ ?_ ?_
    · rintro (_ | _ | _ | _ | _ | _) <;> rfl
    · rintro (_ | _ | _ | _ | _ | _) <;> rfl
    · rintro (_ | _ | _ | _ | _ | _) p hp <;> simp_all

theorem keeps_repeated (text : String) (count : Int64) :
    Keeps (fun _ _ => True) (repeated text count h) := by
  unfold repeated
  rw [get_bind]
  split
  · refine .sound_bind ho hr fun room _ => .reserve_bind ho hr (by omega) fun g _ ho hs => ?_
    have hr := hs.regular
    refine .sound_bind ho hr fun _ _ => .sound_bind ho hr fun whole hwhole => ?_
    obtain rfl := footprint_ok hwhole
    refine .reserve_bind ho hr (by omega) fun k _ ho hs => ?_
    have hbytes : Object.size (.str (repeatText text count.toInt.toNat)) =
        text.utf8ByteSize * count.toInt.toNat + 1 := by
      rw [Object.size, utf8ByteSize_repeatText]
    refine .insert_bind (n := 0) (m := 0) ho ?_ ?_ (by simp [Object.kind]) ?_
      fun m ho hs _ => .ok ho hs.regular trivial
    · rw [hbytes]
      exact hs
    · exact fun _ hp => by cases hp
    · exact Nat.succ_pos _
  · exact .error ho hr

end

end Host

end Ember
