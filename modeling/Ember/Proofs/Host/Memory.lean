import Ember.Proofs.Host.Exactness
import Ember.Proofs.Host.Twin

/-!
# Ember — when the memory runs out

Whatever was asked of a host before, its live bytes are within the memory limit and its objects within
two of the threshold. Whether a request finds room depends on what a full collection would keep at the
moment when room is made, with the values that the request has spilled, and on the bytes that the
request takes in all; not on the thresholds, which say only when collections happen.

Main result: `memory_decisions`.
-/

namespace Ember.Host

variable {o : ArrayObject} {pinned : Bool} {k : Heap} {a b n : Nat} {v : Value}

variable {h g : Host} {α β : Type}

/-! ## Ends -/

/-- The program ends for want of memory. -/
def RunsOut : EStateM.Result Interrupt Host α → Prop
  | .ok .. => False
  | .error e _ => ∃ requested live limit, e = .fatal (.outOfMemory requested live limit)

/-- There is an answer. -/
def Succeeds : EStateM.Result Interrupt Host α → Prop
  | .ok .. => True
  | .error .. => False

/-- What a full collection would keep leaves no room for so many bytes. -/
def Lacks (h : Host) (bytes : Nat) : Prop :=
  h.config.memoryLimit < h.collected.liveBytes + bytes

/-- There are addresses left for so many bytes. -/
def Addressable (h : Host) (bytes : Nat) : Prop :=
  h.heap.nextFree + bytes < 0x10000000000000000

/-- A request of so many bytes runs out of memory exactly if there is no room for them, and under a
proviso it succeeds exactly if there is room and there are addresses. -/
structure Decided (P : Prop) (h : Host) (bytes : Nat) (r : EStateM.Result Interrupt Host α) :
    Prop where
  runsOut : RunsOut r ↔ h.Lacks bytes
  succeeds : P → (Succeeds r ↔ ¬ h.Lacks bytes ∧ h.Addressable bytes)

/-- There is an answer or a fault. -/
def Settles : EStateM.Result Interrupt Host α → Prop
  | .ok .. => True
  | .error e _ => ∃ f, e = .fault f

/-- An action that takes up no memory, and neither raises nor ends the program. -/
def Frugal (x : Act α) : Prop :=
  ∀ h, Settles (x h)

namespace Frugal

theorem not_runsOut {x : Act α} (hx : Frugal x) (h : Host) : ¬ RunsOut (x h) := by
  have hxh := hx h
  generalize x h = r at hxh
  cases r with
  | ok a g => exact id
  | error e g =>
    obtain ⟨f, rfl⟩ := hxh
    exact nofun

theorem bind {x : Act α} {f : α → Act β} (hx : Frugal x) (hf : ∀ a, Frugal (f a)) :
    Frugal (x >>= f) := by
  intro h
  have hxh := hx h
  rw [bind_apply]
  cases hr : x h with
  | ok a g => exact hf a g
  | error e g =>
    rw [hr] at hxh
    exact hxh

theorem pure (a : α) : Frugal (Pure.pure a : Act α) :=
  fun _ => trivial

theorem fault (f : Fault) : Frugal (Host.fault f : Act α) :=
  fun _ => ⟨f, rfl⟩

theorem inspect (k : Heap → Except Fault α) : Frugal (Host.inspect k) := by
  intro h
  unfold Host.inspect
  cases k h.heap with
  | ok a => trivial
  | error f => exact ⟨f, rfl⟩

theorem change (a : Nat) (f : Object → Object) : Frugal (Host.change a f) :=
  fun _ => trivial

theorem changeArray (a : Nat) (f : ArrayObject → ArrayObject) : Frugal (Host.changeArray a f) :=
  .bind (.inspect _) fun _ => .change _ _

theorem storeElement (a index : Nat) (v : Value) : Frugal (Host.storeElement a index v) := by
  refine .bind (.inspect _) fun o => ?_
  cases o.buffer with
  | none => exact .pure ()
  | some b =>
    refine .bind (.inspect _) fun p => ?_
    cases p with
    | buffer buf =>
      simp only
      split
      · exact .change _ _
      · exact .fault _
    | str | array | dict | cls | inst => exact .pure ()

theorem insert (o : Object) (pinned : Bool) : Frugal (Host.insert o pinned) := by
  intro h
  rw [insert_eq]
  split
  · trivial
  · exact ⟨_, rfl⟩

end Frugal

/-! ## Decisions -/

namespace Decided

variable {P : Prop} {bytes : Nat} {r : EStateM.Result Interrupt Host α}

theorem of_room (hroom : h.heap.liveBytes + bytes ≤ h.config.memoryLimit) (hout : ¬ RunsOut r)
    (hok : P → (Succeeds r ↔ h.Addressable bytes)) : Decided P h bytes r := by
  have hnot : ¬ h.Lacks bytes := by
    have := liveBytes_collected_le h
    unfold Lacks
    omega
  exact ⟨⟨fun hr => absurd hr hout, fun hl => absurd hl hnot⟩, fun hP =>
    (hok hP).trans ⟨fun ha => ⟨hnot, ha⟩, fun ha => ha.2⟩⟩

theorem of_lack (hlack : h.Lacks bytes) {requested live limit : Nat} :
    Decided P h bytes
      (.error (.fatal (.outOfMemory requested live limit)) g : Result α) :=
  ⟨⟨fun _ => hlack, fun _ => ⟨requested, live, limit, rfl⟩⟩, fun _ => ⟨False.elim, fun hok => absurd hlack hok.1⟩⟩

theorem collects (hd : Decided P g bytes r) (hc : Collects h g) (ho : h.Orderly) :
    Decided P h bytes r := by
  have hlacks : g.Lacks bytes ↔ h.Lacks bytes := by
    unfold Lacks
    rw [hc.config, hc.liveBytes_collected ho]
  have haddr : g.Addressable bytes ↔ h.Addressable bytes := by
    unfold Addressable
    rw [hc.nextFree]
  exact ⟨hd.runsOut.trans hlacks, fun hP => (hd.succeeds hP).trans (and_congr (not_congr hlacks) haddr)⟩

theorem weaken {Q : Prop} (hd : Decided P h bytes r) (hQ : Q → P) : Decided Q h bytes r :=
  ⟨hd.runsOut, fun hq => hd.succeeds (hQ hq)⟩

theorem same {bytes' : Nat} {r' : Result α} (hd : Decided P h bytes r)
    (hd' : Decided P g bytes' r') (hlacks : g.Lacks bytes' ↔ h.Lacks bytes)
    (haddr : g.Addressable bytes' ↔ h.Addressable bytes) :
    (RunsOut r' ↔ RunsOut r) ∧ (P → (Succeeds r' ↔ Succeeds r)) := by
  refine ⟨hd'.runsOut.trans (hlacks.trans hd.runsOut.symm), fun hP => ?_⟩
  rw [hd'.succeeds hP, hd.succeeds hP, hlacks, haddr]

theorem bind {x : Act α} {f : α → Act β} {host : Host} (hd : Decided P host bytes (x h))
    (hf : ∀ a g, x h = .ok a g → ¬ RunsOut (f a g) ∧ (P → Succeeds (f a g))) :
    Decided P host bytes ((x >>= f) h) := by
  cases hr : x h with
  | ok a g =>
    obtain ⟨hout, hok⟩ := hf a g hr
    rw [hr] at hd
    rw [bind_ok hr]
    exact ⟨⟨fun hl => absurd hl hout, fun hl => False.elim (hd.runsOut.mpr hl)⟩, fun hP =>
      ⟨fun _ => (hd.succeeds hP).mp trivial, fun _ => hok hP⟩⟩
  | error e g =>
    rw [hr] at hd
    rw [bind_error hr]
    exact ⟨hd.runsOut, hd.succeeds⟩

theorem withFrame {vs : List Value} {x : Act α} (hd : Decided P (h.spilled vs) bytes (x (h.spilled vs))) :
    Decided P (h.spilled vs) bytes (Host.withFrame vs x h) := by
  rw [withFrame_eq]
  cases hr : x (h.spilled vs) with
  | ok a g =>
    rw [hr] at hd
    exact ⟨hd.runsOut, hd.succeeds⟩
  | error e g =>
    rw [hr] at hd
    exact ⟨hd.runsOut, hd.succeeds⟩

theorem reserve_bind (ho : h.Orderly) {objects part : Nat} (hobjs : objects ≤ 2)
    (hpart : part ≤ bytes) (hfit : h.heap.liveBytes + part < 0x10000000000000000) {f : Unit → Act β}
    (hf : ∀ g, Roomy h objects part g → Decided P g bytes (f () g)) :
    Decided P h bytes ((Host.reserve objects part >>= f) h) := by
  have hcases := reserve_cases ho hobjs part
  generalize hres : Host.reserve objects part h = r at hcases
  cases hcases with
  | ok roomy =>
    rw [bind_ok hres]
    exact (hf _ roomy).collects roomy.collects ho
  | outOfMemory collects lacking =>
    rw [bind_error hres]
    exact .of_lack (Nat.lt_of_lt_of_le lacking (by omega))
  | overflow collects large => omega

end Decided

/-! ## One object -/

/-- The bytes that a payload takes with its header. -/
def room (payload : Nat) : Nat :=
  headerSize + align payload

theorem room_mono {m : Nat} (hmn : m ≤ n) : room m ≤ room n := by
  unfold room align
  omega

theorem room_le (n : Nat) : room n ≤ n + 47 := by
  unfold room align headerSize
  omega

theorem le_room (n : Nat) : n + 32 ≤ room n := by
  unfold room align headerSize
  omega

theorem footprint_eq (hfit : room n < 0x10000000000000000) : Heap.footprint n = .ok (room n) := by
  unfold Heap.footprint Heap.sum64
  exact if_pos hfit

theorem sound_bind_ok {r : Except Fault α} {a : α} (hr : r = .ok a) (f : α → Act β) (h : Host) :
    (Host.sound r >>= f) h = f a h := by
  rw [hr]
  rfl

theorem succeeds_insert (o : Object) (pinned : Bool) :
    Succeeds (Host.insert o pinned h) ↔ h.Addressable (room o.size) := by
  rw [insert_eq]
  unfold Addressable room
  split
  · exact ⟨fun _ => ‹_›, fun _ => trivial⟩
  · exact ⟨False.elim, fun hfit => absurd hfit ‹_›⟩

theorem succeeds_insert_bind {o : Object} {pinned : Bool} {f : Address → Act β} {bytes : Nat}
    (hf : ∀ g : Host, g.heap = h.heap.place { object := o, size := o.size, pinned } →
      g.heap.nextFree < 0x10000000000000000 →
      (Succeeds (f h.heap.nextAddress g) ↔ g.Addressable bytes)) :
    Succeeds ((Host.insert o pinned >>= f) h) ↔ h.Addressable (room o.size + bytes) := by
  by_cases hfit : h.heap.nextFree + (headerSize + align o.size) < 0x10000000000000000
  · rw [bind_ok ((insert_eq ..).trans (if_pos hfit)), hf _ rfl hfit]
    unfold Addressable
    rw [← Nat.add_assoc]
    rfl
  · rw [bind_error ((insert_eq ..).trans (if_neg hfit))]
    refine ⟨False.elim, fun hall => ?_⟩
    unfold Addressable room at hall
    omega

theorem Decided.allocate (ho : h.Orderly) {o : Object}
    (hfit : h.heap.liveBytes + room o.size < 0x10000000000000000) :
    Decided True h (room o.size) (Host.allocate o pinned h) := by
  unfold Host.allocate
  rw [sound_bind_ok (footprint_eq (by omega))]
  exact .reserve_bind ho (by omega) (Nat.le_refl _) hfit fun g hg =>
    .of_room hg.bytes ((Frugal.insert o pinned).not_runsOut g) fun _ => succeeds_insert o pinned

/-- How a request of one object ends: it is placed after some collections, or the program is out of
memory after some, or the bytes or the addresses do not add up. -/
inductive Allocates (h : Host) (o : Object) (pinned : Bool) :
    EStateM.Result Interrupt Host Address → Prop
  | ok {m : Host} (collects : Collects h m) : Allocates h o pinned (.ok m.heap.nextAddress
      { m with heap := m.heap.place { object := o, size := o.size, pinned } })
  | fatal {m : Host} {requested live limit : Nat} (collects : Collects h m)
      (lacking : h.Lacks (room o.size)) : Allocates h o pinned (.error (.fatal (.outOfMemory requested live limit)) m)
  | fault {m : Host} (collects : Collects h m)
      (large : 0x10000000000000000 ≤ h.heap.nextFree + room o.size) :
      Allocates h o pinned (.error (.fault .overflow) m)

theorem allocate_cases (ho : h.Orderly) (o : Object) (pinned : Bool) :
    Allocates h o pinned (Host.allocate o pinned h) := by
  unfold Host.allocate
  by_cases hfit : room o.size < 0x10000000000000000
  · rw [sound_bind_ok (footprint_eq hfit)]
    have hcases := reserve_cases ho (show 1 ≤ 2 by omega) (room o.size)
    generalize hres : Host.reserve 1 (room o.size) h = r at hcases
    cases hcases with
    | ok roomy =>
      rw [bind_ok hres, insert_eq]
      split
      · exact .ok roomy.collects
      · rename_i hover
        exact .fault roomy.collects (roomy.collects.nextFree ▸ Nat.le_of_not_lt hover)
    | outOfMemory collects lacking =>
      rw [bind_error hres]
      exact .fatal collects lacking
    | overflow collects large =>
      rw [bind_error hres]
      have := ho.wellFormed.bytes_below
      exact .fault collects (by omega)
  · have hover : Heap.footprint o.size = .error .overflow := if_neg hfit
    rw [hover]
    exact .fault .refl (by omega)

theorem allocate_ok (ho : h.Orderly) {o : Object} (hr : Host.allocate o pinned h = .ok b g) :
    ∃ k, Collects h k ∧ b = k.heap.nextAddress ∧
      g.heap = k.heap.place { object := o, size := o.size, pinned } := by
  have hcases := allocate_cases ho o pinned
  rw [hr] at hcases
  cases hcases with
  | ok collects => exact ⟨_, collects, rfl, rfl⟩

theorem Collects.getElem? (hc : Collects h g) (ho : h.Orderly) (hr : h.Retained a) :
    g.Retained a ∧ g.heap.cells[a]? = h.heap.cells[a]? := by
  classical
  induction hc with
  | refl => exact ⟨hr, rfl⟩
  | collect hc ih =>
    refine ⟨(retained_collected (hc.orderly ho) a).mpr ih.1, ?_⟩
    exact (getElem?_collected (hc.orderly ho) a).trans ((if_pos ih.1).trans ih.2)

theorem get?_of_allocate (ho : h.Orderly) {o p : Object} (hr : Host.allocate o pinned h = .ok b g)
    (hretained : h.Retained a) (hget : h.heap.get? a = some p) : g.heap.get? a = some p := by
  obtain ⟨k, hk, -, hheap⟩ := allocate_ok ho hr
  have hsame : k.heap.get? a = some p := by
    rw [← hget]
    exact congrArg (Option.map Cell.object) (hk.getElem? ho hretained).2
  rw [hheap, Heap.get?_place, if_neg, hsame]
  rintro rfl
  have hnone := Heap.kindAt_nextAddress (hk.orderly ho).wellFormed
  rw [Heap.kindAt_of_get? hsame] at hnone
  cases hnone

/-! ## Arrays -/

theorem arrayAt_eq (hget : k.get? a = some (.array o)) : k.arrayAt a = .ok o := by
  unfold Heap.arrayAt Heap.object
  rw [hget]
  rfl

theorem dictAt_eq {d : Dict} (hget : k.get? a = some (.dict d)) : k.dictAt a = .ok d := by
  unfold Heap.dictAt Heap.object
  rw [hget]
  rfl

theorem changeArray_eq (hget : h.heap.get? a = some (.array o)) (f : ArrayObject → ArrayObject) :
    changeArray a f h = .ok () { h with heap := h.heap.modify a fun
      | .array o => .array (f o)
      | o => o } :=
  bind_ok (inspect_ok (arrayAt_eq hget))

theorem changeArray_ok (hget : h.heap.get? a = some (.array o)) (f : ArrayObject → ArrayObject) :
    ∃ g, Host.changeArray a f h = .ok () g ∧ g.heap.get? a = some (.array (f o)) ∧
      ∀ b, b ≠ a → g.heap.get? b = h.heap.get? b := by
  refine ⟨_, changeArray_eq hget f, ?_, fun b hb => ?_⟩
  · exact (Heap.get?_modify ..).trans (by rw [if_pos rfl, hget]; rfl)
  · exact (Heap.get?_modify ..).trans (if_neg hb.symm)

theorem storeElement_ok {index : Nat} {buf : Buffer} (v : Value)
    (hget : h.heap.get? a = some (.array o)) (hb : o.buffer = some b)
    (hbuf : h.heap.get? b = some (.buffer buf)) (hidx : index < buf.elements.size) :
    ∃ g, Host.storeElement a index v h = .ok () g ∧ g.heap.get? a = some (.array o) := by
  have hobj : h.heap.object b = .ok (.buffer buf) := by
    unfold Heap.object
    rw [hbuf]
  unfold Host.storeElement
  rw [bind_ok (inspect_ok (arrayAt_eq hget)), hb]
  simp only
  rw [bind_ok (inspect_ok hobj)]
  simp only [if_pos hidx]
  refine ⟨_, rfl, (Heap.get?_modify ..).trans ?_⟩
  rw [if_neg, hget]
  rintro rfl
  cases hget.symm.trans hbuf

theorem decided_newArray (ho : h.Orderly) (elements : Array Value)
    (hfit : h.heap.liveBytes + (room 24 + room (16 * max elements.size minCapacity)) <
      0x10000000000000000) :
    Decided True (h.spilled elements.toList) (room 24 + room (16 * max elements.size minCapacity))
      (newArray elements h) := by
  refine .bind ?_ fun a g _ => ⟨id, fun _ => trivial⟩
  unfold allocateArray
  refine .withFrame ?_
  rw [sound_bind_ok (footprint_eq (by omega)), sound_bind_ok (footprint_eq (by omega))]
  refine .reserve_bind (h := h.spilled elements.toList) (ho.withStack _) (Nat.le_refl 2) (Nat.le_refl _) hfit fun g hg => ?_
  have hsize : (Object.buffer
      { owner := g.heap.nextAddress,
        elements := storage elements (max elements.size minCapacity) }).size =
      16 * max elements.size minCapacity := by
    rw [Object.size, size_storage]
    omega
  refine .of_room hg.bytes ?_ fun _ => ?_
  · exact (Frugal.bind (.insert _ _) fun a => .bind (.insert _ _) fun b => .bind (.changeArray _ _)
      fun _ => .pure a).not_runsOut g
  -- the two objects are placed one after the other
  refine succeeds_insert_bind fun k hk _ => ?_
  rw [← hsize, ← Nat.add_zero (room (Object.size _))]
  refine succeeds_insert_bind fun m hm hlast => ?_
  have hget : m.heap.get? g.heap.nextAddress =
      some (.array { len := 0, capacity := 0, buffer := none }) := by
    rw [hm, Heap.get?_place, if_neg, hk, Heap.get?_place, if_pos rfl]
    rw [hk]
    show g.heap.nextFree + (headerSize + align 24) + headerSize ≠ g.heap.nextFree + headerSize
    unfold headerSize
    omega
  obtain ⟨n, hn, -⟩ := changeArray_ok hget _
  rw [bind_ok hn]
  exact ⟨fun _ => hlast, fun _ => trivial⟩

theorem elements_eq (hl : k.Laid) (hget : k.get? a = some (.array o)) :
    ∃ es, k.elements a = .ok es ∧ es.size = o.len := by
  have hfits := hl.arrays a o hget
  unfold Heap.elements
  rw [arrayAt_eq hget]
  cases hb : o.buffer with
  | none => exact ⟨#[], by simp [bind, Except.bind, hb], (hfits.empty hb).symm⟩
  | some b =>
    obtain ⟨n, hn, hroom⟩ := hfits.buffer hb
    obtain ⟨p, hp, hkind⟩ := Heap.kindAt_eq_some_iff.mp hn
    cases p with
    | buffer buf =>
      obtain rfl : buf.elements.size = n := Kind.buffer.inj hkind
      have hlen : o.len ≤ buf.elements.size := Nat.le_trans hfits.1 hroom
      refine ⟨buf.elements.extract 0 o.len, ?_, by simpa using hlen⟩
      simp [bind, Except.bind, hb, Heap.object, hp, hlen]
    | str | array | dict | cls | inst => cases hkind

theorem capacity_le (hw : k.WellFormed) (hl : k.Laid) (hget : k.get? a = some (.array o)) :
    16 * o.capacity ≤ k.liveBytes := by
  have hfits := hl.arrays a o hget
  cases hb : o.buffer with
  | none =>
    have hroom := hfits.2
    rw [hb] at hroom
    have hroom : o.capacity = 0 := hroom
    omega
  | some b =>
    obtain ⟨n, hn, hroom⟩ := hfits.buffer hb
    obtain ⟨p, hp, hkind⟩ := Heap.kindAt_eq_some_iff.mp hn
    obtain ⟨c, hc, rfl⟩ := Heap.get?_eq_some_iff.mp hp
    have hle := hw.footprint_le hc
    have hsize := (hl.sized b c hc).1
    cases hobj : c.object with
    | buffer buf =>
      rw [hobj] at hkind hsize
      obtain rfl : buf.elements.size = n := Kind.buffer.inj hkind
      have hsize : c.size = 16 * buf.elements.size := hsize
      unfold Cell.footprint align at hle
      omega
    | str | array | dict | cls | inst =>
      rw [hobj] at hkind
      cases hkind

/-- The capacity that an array grows to. -/
def grownCapacity (o : ArrayObject) : Nat :=
  max (o.capacity * 2) minCapacity

/-- A larger buffer. The array is spilled, so it is still there afterwards, unless nothing of the
stack is scanned. -/
theorem decided_grow (ho : h.Orderly) (hl : h.heap.Laid) (hget : h.heap.get? a = some (.array o))
    (hfit : h.heap.liveBytes + room (16 * grownCapacity o) < 0x10000000000000000) :
    Decided (h.stack.bottom ≤ h.stack.depth) (h.spilled [.array a, v]) (room (16 * grownCapacity o))
      (grow a o v h) := by
  obtain ⟨es, helems, hlen⟩ := elements_eq hl hget
  have hsize : (Object.buffer { owner := a, elements := storage es (grownCapacity o) }).size =
      16 * grownCapacity o := by
    have := (hl.arrays a o hget).1
    rw [Object.size, size_storage, hlen]
    unfold grownCapacity
    omega
  have ho' : (h.spilled [.array a, v]).Orderly := ho.withStack _
  unfold grow
  rw [bind_ok (inspect_ok helems)]
  refine .withFrame (.bind ?_ fun b k hk => ⟨(Frugal.changeArray _ _).not_runsOut k, fun hbot => ?_⟩)
  · rw [← hsize]
    exact (Decided.allocate ho' (by rw [hsize]; exact hfit)).weaken fun _ => trivial
  have hlv : (Value.array a).LiveIn (h.spilled [.array a, v]).heap := Heap.kindAt_of_get? hget
  have hretained := retained_of_anchored ho' hl.pinned (fun b c hc => (hl.sized b c hc).2) hlv
    (anchored_spilled hbot (by simp)) rfl
  obtain ⟨n, hn, -⟩ := changeArray_ok (get?_of_allocate ho' hk hretained hget) _
  rw [hn]
  trivial

theorem grow_ok (ho : h.Orderly) (hget : h.heap.get? a = some (.array o))
    (hfull : o.len = o.capacity) (hr : grow a o v h = .ok () g) :
    ∃ o' b buf, g.heap.get? a = some (.array o') ∧ o'.buffer = some b ∧
      g.heap.get? b = some (.buffer buf) ∧ o.len < buf.elements.size := by
  unfold grow at hr
  cases helems : h.heap.elements a with
  | error f =>
    rw [bind_error (inspect_error helems)] at hr
    cases hr
  | ok es =>
    rw [bind_ok (inspect_ok helems), withFrame_eq] at hr
    cases hk : Host.allocate (.buffer
        { owner := a, elements := storage es (max (o.capacity * 2) minCapacity) }) false
        (h.spilled [.array a, v]) with
    | error e k =>
      rw [bind_error hk] at hr
      cases hr
    | ok b k =>
      rw [bind_ok hk] at hr
      obtain ⟨m, hm, rfl, hheap⟩ := allocate_ok (h := h.spilled [.array a, v]) (ho.withStack _) hk
      -- the array is looked up again after the allocation, which may have collected
      have hbuf : k.heap.get? m.heap.nextAddress = some (.buffer
          { owner := a, elements := storage es (max (o.capacity * 2) minCapacity) }) := by
        rw [hheap, Heap.get?_place, if_pos rfl]
      cases harr : k.heap.arrayAt a with
      | error f =>
        rw [Host.changeArray, bind_error (inspect_error harr)] at hr
        cases hr
      | ok o' =>
        have hget' := get?_of_arrayAt harr
        obtain ⟨n, hn, hchanged, hsame⟩ := changeArray_ok hget'
          fun o' => { o' with buffer := some m.heap.nextAddress, capacity := max (o.capacity * 2) minCapacity }
        rw [hn] at hr
        obtain ⟨-, rfl⟩ := EStateM.Result.ok.inj hr
        refine ⟨_, _, _, hchanged, rfl, (hsame _ ?_).trans hbuf, ?_⟩
        · rintro rfl
          cases hget'.symm.trans hbuf
        · simp only [size_storage, minCapacity]
          omega

theorem decided_pushElement (ho : h.Orderly) (hl : h.heap.Laid)
    (hget : h.heap.get? a = some (.array o)) (hfull : o.len = o.capacity)
    (hfit : h.heap.liveBytes + room (16 * grownCapacity o) < 0x10000000000000000) :
    Decided (h.stack.bottom ≤ h.stack.depth) (h.spilled [.array a, v]) (room (16 * grownCapacity o))
      (pushElement a v h) := by
  unfold pushElement
  rw [bind_ok (inspect_ok (arrayAt_eq hget)), if_pos hfull]
  refine (decided_grow ho hl hget hfit).bind fun _ g hg => ⟨?_, fun _ => ?_⟩
  · exact (Frugal.bind (.storeElement _ _ _) fun _ => .changeArray _ _).not_runsOut g
  · obtain ⟨o', b, buf, hget', hb, hbuf, hroom⟩ := grow_ok ho hget hfull hg
    obtain ⟨k, hk, hget''⟩ := storeElement_ok v hget' hb hbuf hroom
    obtain ⟨m, hm, -⟩ := changeArray_ok hget'' fun o => { o with len := o.len + 1 }
    show Succeeds ((do
      storeElement a o.len v
      changeArray a fun o => { o with len := o.len + 1 } : Act Unit) g)
    rw [bind_ok hk, hm]
    trivial

/-! ## Repeated texts -/

/-- The repetition of a text. The bytes are asked for twice, without and with the byte that ends a
text, and more of them than the memory has are refused at once; all three come to the same decision. -/
theorem decided_repeated (ho : h.Orderly) (hbytes : h.heap.liveBytes ≤ h.config.memoryLimit)
    (hlimit : h.config.memoryLimit < 2 ^ 62) (text : String) (count : Int64) :
    Decided True h (room (text.utf8ByteSize * count.toInt.toNat + 1)) (repeated text count h) := by
  unfold repeated
  rw [get_bind]
  set bytes := text.utf8ByteSize * count.toInt.toNat with hdef
  by_cases hsmall : bytes ≤ h.config.memoryLimit ∧ bytes < 0x10000000000000000
  · have hroom := room_le bytes
    have hroom' := room_le (bytes + 1)
    have hmono : room bytes ≤ room (bytes + 1) := room_mono (by omega)
    have hstor : checkStorage bytes 1 = .ok () := by
      unfold checkStorage
      rw [if_pos (by omega)]
    rw [if_pos hsmall, sound_bind_ok (footprint_eq (by omega))]
    refine .reserve_bind ho (by omega) hmono (by omega) fun g hg => ?_
    have hle := hg.collects.liveBytes_le
    rw [sound_bind_ok hstor, sound_bind_ok (footprint_eq (by omega))]
    refine .reserve_bind (hg.collects.orderly ho) (by omega) (Nat.le_refl _) (by omega) fun k hk => ?_
    have hsize : (Object.str (repeatText text count.toInt.toNat)).size = bytes + 1 := by
      rw [Object.size, utf8ByteSize_repeatText]
    refine .of_room hk.bytes ((Frugal.bind (.insert _ _) fun _ => .pure _).not_runsOut k) fun _ => ?_
    rw [← hsize, ← Nat.add_zero (room (Object.size _))]
    exact succeeds_insert_bind fun _ _ hlast => ⟨fun _ => hlast, fun _ => trivial⟩
  · rw [if_neg hsmall]
    refine .of_lack ?_
    have := le_room (bytes + 1)
    unfold Lacks
    omega

/-- The operands of a repetition: a text and a count, in either order. -/
inductive Repeats (a : Nat) (count : Int64) : Value → Value → Prop
  | textFirst : Repeats a count (.str a) (.int count)
  | countFirst : Repeats a count (.int count) (.str a)

theorem decided_operate (ho : h.Orderly) (hbytes : h.heap.liveBytes ≤ h.config.memoryLimit)
    (hlimit : h.config.memoryLimit < 2 ^ 62) {text : String} {count : Int64} {w : Value}
    (hget : h.heap.get? a = some (.str text)) (hvw : Repeats a count v w) (site : Location) :
    Decided True (h.spilled [v, w]) (room (text.utf8ByteSize * count.toInt.toNat + 1))
      (operate .multiply v w site h) := by
  have htext : h.heap.text (.str a) = .ok text := by
    simp [Heap.text, Heap.text?, Heap.object, hget, bind, Except.bind, pure, Except.pure]
  refine .withFrame ?_
  cases hvw with
  | textFirst =>
    show Decided _ _ _ ((do Host.repeated (← inspect fun heap => heap.text (.str a)) count) _)
    rw [bind_ok (inspect_ok htext)]
    exact decided_repeated (h := h.spilled _) (ho.withStack _) hbytes hlimit text count
  | countFirst =>
    show Decided _ _ _ ((do Host.repeated (← inspect fun heap => heap.text (.str a)) count) _)
    rw [bind_ok (inspect_ok htext)]
    exact decided_repeated (h := h.spilled _) (ho.withStack _) hbytes hlimit text count

/-! ## Thresholds -/

/-- A host with other thresholds. -/
def withThresholds (h : Host) (threshold minThreshold : Nat) : Host :=
  { h with heap := { h.heap with threshold, minThreshold } }

theorem ownerOf_withThresholds (h : Host) (t m byte : Nat) :
    (h.withThresholds t m).heap.ownerOf byte = h.heap.ownerOf byte := by
  have hsearch : ∀ count region, (h.withThresholds t m).heap.searchDown byte region count =
      h.heap.searchDown byte region count := by
    intro count
    induction count with
    | zero => exact fun _ => rfl
    | succ count ih =>
      intro region
      rw [Heap.searchDown, Heap.searchDown, ih]
      rfl
  unfold Heap.ownerOf
  rw [hsearch]
  rfl

theorem orderly_withThresholds (ho : h.Orderly) (t m : Nat) : (h.withThresholds t m).Orderly := by
  have hsame : h.heap.SameLayout (h.withThresholds t m).heap :=
    ⟨rfl, rfl, rfl, rfl, rfl, rfl, rfl, fun _ => rfl⟩
  exact ⟨hsame.wellFormed ho.wellFormed, ho.unmarked, ho.idle, ho.slots⟩

theorem liveBytes_collected_withThresholds (ho : h.Orderly) (t m : Nat) :
    (h.withThresholds t m).collected.liveBytes = h.collected.liveBytes := by
  classical
  have ho' := orderly_withThresholds ho t m
  have hroot : (h.withThresholds t m).IsRoot = h.IsRoot := by
    funext a
    unfold IsRoot
    simp only [ownerOf_withThresholds]
    rfl
  have hretained : ∀ a, (h.withThresholds t m).Retained a ↔ h.Retained a := by
    intro a
    unfold Retained
    rw [hroot]
    rfl
  refine (orderly_collected ho).wellFormed.liveBytes_congr (orderly_collected ho').wellFormed fun a => ?_
  show (h.withThresholds t m).collected.cells[a]? = h.collected.cells[a]?
  rw [getElem?_collected ho', getElem?_collected ho]
  simp only [hretained]
  rfl

/-! ## Requests -/

/-- The requests that take up memory. -/
inductive Allocation
  | string (text : String)
  | array (elements : Array Value)
  /-- A larger buffer for the array `o` at an address, to which a value is added. -/
  | growth (a : Address) (o : ArrayObject) (v : Value)
  | dict
  | cls (name : String)
  /-- An instance, with a dict for its fields. -/
  | inst (cls fields : Address)
  /-- The text at an address, so many times, as the product of two values. -/
  | repetition (a : Address) (text : String) (count : Int64) (v w : Value) (site : Location)

namespace Allocation

/-- Does what is asked, and drops the answer. -/
def perform : Allocation → Act Unit
  | .string text => do let _ ← Host.string text
  | .array elements => do let _ ← Host.newArray elements
  | .growth a _ v => Host.pushElement a v
  | .dict => do let _ ← Host.allocateDict
  | .cls name => do let _ ← Host.newClass name
  | .inst c fields => do
    let _ ← Host.withFrame [.dict fields] (Host.allocate (.inst { cls := c, fields }))
  | .repetition _ _ _ v w site => do let _ ← Host.operate .multiply v w site

/-- The values that are spilled when room is made. -/
def spills : Allocation → List Value
  | .string _ | .dict | .cls _ => []
  | .array elements => elements.toList
  | .growth a _ v => [.array a, v]
  | .inst _ fields => [.dict fields]
  | .repetition _ _ _ v w _ => [v, w]

/-- The bytes that are taken up in all. -/
def bytes (h : Host) : Allocation → Nat
  | .string text => room (text.utf8ByteSize + 1)
  | .array elements => room 24 + room (16 * max elements.size minCapacity)
  | .growth _ o _ => room (16 * grownCapacity o)
  | .dict => room (8 * max h.config.dictBuckets 1 + 8)
  | .cls _ => room 48
  | .inst .. => room 16
  | .repetition _ text count .. => room (text.utf8ByteSize * count.toInt.toNat + 1)

/-- The request can be made: texts, lists and the buckets of dicts are of sizes that there are, the
array that grows is full, and the factors of a repetition are a text and a count. -/
def Posed (h : Host) : Allocation → Prop
  | .string text => text.utf8ByteSize < 2 ^ 63
  | .array elements => 16 * elements.size < 2 ^ 63
  | .growth a o _ => h.heap.get? a = some (.array o) ∧ o.len = o.capacity
  | .dict => 24 * h.config.dictBuckets < 2 ^ 63
  | .cls _ | .inst .. => True
  | .repetition a text count v w _ => h.heap.get? a = some (.str text) ∧ Repeats a count v w

/-- What the request has spilled is scanned, as far as it needs that later. -/
def Guarded (h : Host) : Allocation → Prop
  | .growth .. => h.stack.bottom ≤ h.stack.depth
  | _ => True

end Allocation

theorem decided_allocateDict (ho : h.Orderly) (hbytes : h.heap.liveBytes < 2 ^ 62)
    (hbuckets : 24 * h.config.dictBuckets < 2 ^ 63) :
    Decided True h (room (8 * max h.config.dictBuckets 1 + 8)) (allocateDict h) := by
  have hmake : Dict.make h.config.dictBuckets = .ok (.empty h.config.dictBuckets) := by
    unfold Dict.make checkStorage
    rw [if_pos (by omega)]
    rfl
  have hsize : (Object.dict (.empty h.config.dictBuckets)).size = 8 * max h.config.dictBuckets 1 + 8 := by
    simp [Object.size, Dict.empty]
  have hroom := room_le (8 * max h.config.dictBuckets 1 + 8)
  unfold allocateDict
  rw [get_bind, sound_bind_ok hmake, ← hsize]
  exact .allocate ho (by rw [hsize]; omega)

/-- **Every request is decided** by what a full collection would keep. -/
theorem decided_perform (ho : h.Orderly) (hl : h.heap.Laid)
    (hbytes : h.heap.liveBytes ≤ h.config.memoryLimit) (hlimit : h.config.memoryLimit < 2 ^ 62)
    {r : Allocation} (hr : r.Posed h) :
    Decided (r.Guarded h) (h.spilled r.spills) (r.bytes h) (r.perform h) := by
  have hdone : ∀ {β : Type} (_ : β) (g : Host), ¬ RunsOut ((pure () : Act Unit) g) ∧
      (True → Succeeds ((pure () : Act Unit) g)) := fun _ _ => ⟨id, fun _ => trivial⟩
  have hone : ∀ (vs : List Value) (o : Object) (pinned : Bool), o.size < 2 ^ 63 + 1 →
      Decided True (h.spilled vs) (room o.size) (allocate o pinned (h.spilled vs)) := by
    intro vs o pinned hsize
    have hroom := room_le o.size
    exact .allocate (h := h.spilled vs) (ho.withStack _)
      (show h.heap.liveBytes + room o.size < 0x10000000000000000 by omega)
  cases r with
  | string text =>
    have hr : text.utf8ByteSize < 2 ^ 63 := hr
    refine .bind (.bind ?_ fun a g _ => hdone a g) fun a g _ => hdone a g
    exact hone [] (.str text) false (Nat.succ_lt_succ hr)
  | array elements =>
    have hr : 16 * elements.size < 2 ^ 63 := hr
    have hroom := room_le 24
    have hroom' := room_le (16 * max elements.size minCapacity)
    exact .bind (decided_newArray ho elements (by unfold minCapacity at *; omega))
      fun a g _ => hdone a g
  | growth a o v =>
    have hcap := capacity_le ho.wellFormed hl hr.1
    have hroom := room_le (16 * grownCapacity o)
    refine decided_pushElement ho hl hr.1 hr.2 ?_
    unfold grownCapacity minCapacity at *
    omega
  | dict =>
    exact .bind (decided_allocateDict (h := h) ho (by omega) hr) fun a g _ => hdone a g
  | cls name =>
    refine .bind (.bind ?_ fun a g _ => hdone a g) fun a g _ => hdone a g
    exact hone [] (.cls { name }) true (by simp [Object.size])
  | inst c fields =>
    refine .bind (.withFrame ?_) fun a g _ => hdone a g
    exact hone _ (.inst { cls := c, fields }) false (by simp [Object.size])
  | repetition a text count v w site =>
    exact .bind (decided_operate ho hbytes hlimit hr.1 hr.2 site) fun a g _ => hdone a g

/-- The making of an instance asks for the dict of its fields first, then for the instance. -/
theorem runsOut_begin (ho : h.Orderly) (hr : h.Regular) (hlimit : h.config.memoryLimit < 2 ^ 62)
    (hbuckets : 24 * h.config.dictBuckets < 2 ^ 63) (a : Nat) (arguments : List Value)
    (site : Location) :
    RunsOut (begin (.cls a) arguments site h) ↔
      (h.spilled arguments).Lacks (room (8 * max h.config.dictBuckets 1 + 8)) ∨
      ∃ fields g, allocateDict (h.spilled arguments) = .ok fields g ∧
        (g.spilled [.dict fields]).Lacks (room 16) := by
  have ho' : (h.spilled arguments).Orderly := ho.withStack _
  have hr' : (h.spilled arguments).Regular := hr.congr rfl rfl
  have hdict : Decided True (h.spilled arguments) (room (8 * max h.config.dictBuckets 1 + 8))
      (allocateDict (h.spilled arguments)) :=
    decided_allocateDict ho' (Nat.lt_of_le_of_lt hr'.bytes hlimit) hbuckets
  -- what the stack is cut to has no part in whether memory runs out
  have hrestore : ∀ (x : Act Construction) (depth : Nat),
      RunsOut (restoring depth x h) ↔ RunsOut (x h) := by
    intro x depth
    unfold restoring
    cases x h <;> exact Iff.rfl
  unfold begin
  simp only
  rw [get_bind, hrestore,
    bind_ok (show onStack (fun s => s.pushValues arguments) h = .ok () (h.spilled arguments) from rfl)]
  have hkeeps := tame_allocateDict.keeps _ ho' hr'
  have hlvs := tame_allocateDict.leaves _ ho'
  cases hflds : allocateDict (h.spilled arguments) with
  | error e g =>
    rw [bind_error hflds]
    rw [hflds] at hdict
    constructor
    · exact fun hout => .inl (hdict.runsOut.mp hout)
    · rintro (hlack | ⟨fields, g', hok, -⟩)
      · exact hdict.runsOut.mpr hlack
      · cases hok
  | ok fields g =>
    rw [bind_ok hflds]
    rw [hflds] at hdict hkeeps hlvs
    have hinst := decided_perform (r := .inst a fields) hlvs.1 hkeeps.laid hkeeps.bytes
      (by rw [hlvs.2.config]; exact hlimit) trivial
    -- once the instance is there, nothing more is allocated
    have hrest : ∀ i, Frugal (do
        onStack fun s => s.pushValue (.inst i)
        let c ← inspect fun heap => heap.classAt a
        return { cls := a, fields, receiver := .inst i, arguments, site, depth := h.stack.depth,
                 remaining := c.fields } : Act Construction) := fun i =>
      .bind (fun _ => trivial) fun _ => .bind (.inspect _) fun _ => .pure _
    have hlast : RunsOut ((do
        let i ← withFrame [.dict fields] (allocate (.inst { cls := a, fields }))
        onStack fun s => s.pushValue (.inst i)
        let c ← inspect fun heap => heap.classAt a
        return { cls := a, fields, receiver := .inst i, arguments, site, depth := h.stack.depth,
                 remaining := c.fields } : Act Construction) g) ↔
        RunsOut (Allocation.perform (.inst a fields) g) := by
      unfold Allocation.perform
      simp only
      rw [bind_apply, bind_apply]
      cases withFrame [.dict fields] (allocate (.inst { cls := a, fields })) g with
      | ok i k => exact ⟨fun hout => absurd hout ((hrest i).not_runsOut k), False.elim⟩
      | error e k => exact Iff.rfl
    refine hlast.trans (hinst.runsOut.trans ⟨fun hlack => .inr ⟨fields, g, rfl, hlack⟩, ?_⟩)
    rintro (hlack | ⟨fields', g', hok, hlack⟩)
    · exact False.elim (hdict.runsOut.mpr hlack)
    · obtain ⟨rfl, rfl⟩ := EStateM.Result.ok.inj hok
      exact hlack

/-! ## Reachable states -/

/-- **Memory in every reachable state**: the bounds hold, and every request that takes up memory runs
out of it exactly if what a full collection would keep, with the values that the request has spilled,
leaves no room for all its bytes. So neither this nor success depends on the thresholds, and nothing
but a want of addresses keeps a repetition from being decided. -/
theorem memory_decisions (hr : Reachable h) (hlimit : h.config.memoryLimit < 2 ^ 62) :
    h.heap.liveBytes ≤ h.config.memoryLimit ∧ h.heap.liveObjects ≤ h.heap.threshold + 2 ∧
    (∀ r : Allocation, r.Posed h →
      Decided (r.Guarded h) (h.spilled r.spills) (r.bytes h) (r.perform h) ∧
      ∀ t m : Nat, (RunsOut (r.perform (h.withThresholds t m)) ↔ RunsOut (r.perform h)) ∧
        (r.Guarded h → (Succeeds (r.perform (h.withThresholds t m)) ↔ Succeeds (r.perform h)))) ∧
    (24 * h.config.dictBuckets < 2 ^ 63 → ∀ (a : Address) (arguments : List Value) (site : Location),
      RunsOut (begin (.cls a) arguments site h) ↔
        (h.spilled arguments).Lacks (Allocation.dict.bytes h) ∨
        ∃ fields g, allocateDict (h.spilled arguments) = .ok fields g ∧
          (g.spilled [.dict fields]).Lacks ((Allocation.inst a fields).bytes g)) ∧
    ∀ (text : String) (count : Int64) (f : Fault) (g : Host),
      repeated text count h = .error (.fault f) g →
        ¬ h.Addressable (room (text.utf8ByteSize * count.toInt.toNat + 1)) := by
  have ho := reachable_orderly hr
  have hreg := reachable_regular hr
  refine ⟨hreg.bytes, hreg.objects, fun r hposed => ?_, runsOut_begin ho hreg hlimit, ?_⟩
  · have hd := decided_perform ho hreg.laid hreg.bytes hlimit hposed
    refine ⟨hd, fun t m => ?_⟩
    have hd' := decided_perform (h := h.withThresholds t m) (r := r) (orderly_withThresholds ho t m)
      ⟨hreg.laid.arrays, hreg.laid.pinned, hreg.laid.sized⟩ hreg.bytes hlimit (by cases r <;> exact hposed)
    have hbytes : r.bytes (h.withThresholds t m) = r.bytes h := by cases r <;> rfl
    have hlacks : ((h.withThresholds t m).spilled r.spills).Lacks (r.bytes (h.withThresholds t m)) ↔
        (h.spilled r.spills).Lacks (r.bytes h) := by
      have hsame := liveBytes_collected_withThresholds (h := h.spilled r.spills) (ho.withStack _) t m
      unfold Lacks
      rw [hbytes, ← hsame]
      rfl
    refine hd.same (hd'.weaken ?_) hlacks ?_
    · cases r <;> exact id
    · unfold Addressable
      rw [hbytes]
      rfl
  · intro text count f g hflt haddr
    have hd := decided_repeated ho hreg.bytes hlimit text count
    rw [hflt] at hd
    have hroom : ¬ h.Lacks _ := fun hlack => nomatch hd.runsOut.mpr hlack
    exact (hd.succeeds trivial).mpr ⟨hroom, haddr⟩

/-- A host in which there is an array of four zeros. -/
def holding (config : Config) : Host :=
  afterwards (Request.newArray #[default, default, default, default]).perform (.new config)

theorem reachable_holding (config : Config) : Reachable (holding config) :=
  .request _ (.new config {}) trivial

/-- With 256 bytes, an array of 160 bytes cannot get a buffer of 160 bytes, since the array is spilled
and so would be kept; a text of five bytes finds room. -/
theorem memory_decisions_holding :
    RunsOut ((Allocation.growth 1048608 ⟨4, 4, some 1048672⟩ .null).perform
      (holding { memoryLimit := 256 })) ∧
    Succeeds ((Allocation.string "ember").perform (holding { memoryLimit := 256 })) := by
  have hall := memory_decisions (reachable_holding { memoryLimit := 256 }) (by decide)
  constructor
  · have hposed : (Allocation.growth 1048608 ⟨4, 4, some 1048672⟩ .null).Posed
        (holding { memoryLimit := 256 }) := by
      refine ⟨?_, rfl⟩
      cbv
    refine (hall.2.2.1 _ hposed).1.runsOut.mpr ?_
    cbv
  · have hposed : (Allocation.string "ember").Posed (holding { memoryLimit := 256 }) := by
      show "ember".utf8ByteSize < 2 ^ 63
      decide +kernel
    refine ((hall.2.2.1 _ hposed).1.succeeds trivial).mpr ⟨?_, ?_⟩
    · cbv
    · cbv

/-- Two exceptions. Buckets for which there is no storage are a fault, not a want of memory; and where
the bottom of the stack is above its top, an array that grows may be gone once there is room for its
new buffer, so that success depends on the thresholds. -/
theorem memory_undecided :
    (∃ h : Host, Reachable h ∧ h.config.memoryLimit < 2 ^ 62 ∧ h.Lacks (Allocation.dict.bytes h) ∧
      ¬ RunsOut (Allocation.dict.perform h)) ∧
    ∃ (h : Host) (o : ArrayObject) (t m : Nat), Reachable h ∧ h.config.memoryLimit < 2 ^ 62 ∧
      (Allocation.growth 1048608 o .null).Posed h ∧
      Succeeds ((Allocation.growth 1048608 o .null).perform h) ∧
      ¬ Succeeds ((Allocation.growth 1048608 o .null).perform (h.withThresholds t m)) := by
  constructor
  · refine ⟨.new { dictBuckets := 2 ^ 60 } {}, .new _ _, by decide, ?_, ?_⟩
    · have : (2 : Nat) ^ 28 < room (8 * max (2 ^ 60) 1 + 8) := by decide
      exact Nat.lt_of_lt_of_le this (Nat.le_add_left ..)
    · have hflt : Allocation.dict.perform (.new { dictBuckets := 2 ^ 60 } {}) =
          .error (.fault .overflow) (.new { dictBuckets := 2 ^ 60 } {}) := rfl
      rw [hflt]
      exact nofun
  · refine ⟨afterwards (Request.onStack fun s => { s with bottom := 100 }).perform (holding {}),
      ⟨4, 4, some 1048672⟩, 2, 0, .request _ (reachable_holding {}) trivial, by decide, ⟨?_, rfl⟩, ?_, ?_⟩
    · cbv
    · cbv
    · cbv

end Ember.Host
