import Ember.Proofs.Host.Upkeep

/-!
# Ember — how arrays are kept

An array and its buffer are two objects that refer to each other. The buffer is exactly as large as
the array's capacity, holds its elements at the front and zeros behind them, and belongs to no other
array; so what is stored for one array is never seen through another one. A push may have to make
room, and collections may happen before the larger buffer is installed.

Main result: `array_representation`.
-/

namespace Ember

variable {o p : ArrayObject} {buf : Buffer} {k : Heap} {a b capacity i index x : Nat}
  {f : Object → Object}

/-! ## Arrays and their buffers -/

/-- The buffer of an array: it belongs to the array, has its capacity, which is never below the least
one, and holds zeros behind the elements. -/
structure ArrayObject.Backed (o : ArrayObject) (k : Heap) (a b : Nat) (buf : Buffer) : Prop where
  buffer : o.buffer = some b
  object : k.get? b = some (.buffer buf)
  owner : buf.owner = a
  size : buf.elements.size = o.capacity
  least : max 4 o.len ≤ o.capacity
  zeros : ∀ i, o.len ≤ i → i < o.capacity → buf.elements[i]? = some (.int 0)

theorem ArrayObject.Backed.elements (hb : o.Backed k a b buf) (hget : k.get? a = some (.array o)) :
    k.elements a = .ok (buf.elements.extract 0 o.len) := by
  have hlen : o.len ≤ buf.elements.size := by
    have := hb.least
    have := hb.size
    omega
  unfold Heap.elements
  rw [Host.arrayAt_eq hget]
  simp [bind, Except.bind, hb.buffer, Heap.object, hb.object, hlen]

theorem ArrayObject.Backed.size_extract (hb : o.Backed k a b buf) :
    (buf.elements.extract 0 o.len).size = o.len := by
  have := hb.least
  have := hb.size
  simp only [Array.size_extract]
  omega

theorem ArrayObject.Backed.congr {k' : Heap} (hb : o.Backed k a b buf)
    (hsame : k'.get? b = k.get? b) : o.Backed k' a b buf :=
  ⟨hb.buffer, hsame.trans hb.object, hb.owner, hb.size, hb.least, hb.zeros⟩

namespace Heap

variable {k k' : Heap} {a b : Nat} {o : ArrayObject} {buf : Buffer}

/-- Every array has its buffer. -/
def Furnished (k : Heap) : Prop :=
  ∀ (a : Nat) (o : ArrayObject), k.get? a = some (.array o) → ∃ b buf, o.Backed k a b buf

theorem get?_nextAddress (hw : k.WellFormed) : k.get? k.nextAddress = none := by
  unfold get?
  rw [NatMap.getElem?_eq_none _ hw.nextAddress_fresh]
  rfl

theorem lt_nextAddress (hw : k.WellFormed) {o : Object} (hget : k.get? a = some o) :
    a < k.nextAddress := by
  obtain ⟨c, hc, -⟩ := get?_eq_some_iff.mp hget
  exact Nat.lt_of_le_of_lt (hw.lt_next hc) (Nat.lt_add_of_pos_right (by decide))

/-- Only the array at `a` and the buffer at `b`, which is its own or new, differ. -/
structure Resettled (k : Heap) (a b : Nat) (k' : Heap) : Prop where
  others : ∀ x, x ≠ a → x ≠ b → k'.get? x = k.get? x
  array : ∀ buf, k.get? a ≠ some (.buffer buf)
  owner : ∀ buf, k.get? b = some (.buffer buf) → buf.owner = a

theorem Resettled.backed (hr : k.Resettled a b k') (hb : k'.get? b = some (.buffer buf))
    (hf : k.Furnished) (hx : x ≠ a) (hget : k'.get? x = some (.array p)) :
    k.get? x = some (.array p) ∧ ∃ y buf', p.Backed k x y buf' ∧ p.Backed k' x y buf' := by
  have hxb : x ≠ b := by
    rintro rfl
    cases hget.symm.trans hb
  have hold := (hr.others x hx hxb).symm.trans hget
  obtain ⟨y, buf', hy⟩ := hf x p hold
  refine ⟨hold, y, buf', hy, hy.congr (hr.others y ?_ ?_)⟩
  · rintro rfl
    exact hr.array buf' hy.object
  · -- a buffer has one owner
    rintro rfl
    exact hx (hy.owner.symm.trans (hr.owner buf' hy.object))

/-- **A change of one array and its buffer leaves the others furnished.** -/
theorem Furnished.resettle (hf : k.Furnished) (hr : k.Resettled a b k')
    (hget : k'.get? a = some (.array o)) (hb : o.Backed k' a b buf) : k'.Furnished := by
  intro x p hx
  by_cases hxa : x = a
  · subst hxa
    cases hget.symm.trans hx
    exact ⟨b, buf, hb⟩
  · obtain ⟨-, y, buf', -, hy⟩ := hr.backed hb.object hf hxa hx
    exact ⟨y, buf', hy⟩

theorem Resettled.elements_eq (hr : k.Resettled a b k') (hb : k'.get? b = some (.buffer buf))
    (hf : k.Furnished) (hx : x ≠ a) (hget : k'.get? x = some (.array p)) :
    k.get? x = some (.array p) ∧ k'.elements x = k.elements x := by
  obtain ⟨hold, y, buf', hy, hy'⟩ := hr.backed hb hf hx hget
  exact ⟨hold, (hy'.elements hget).trans (hy.elements hold).symm⟩

theorem Furnished.modify (hf : k.Furnished) (harr : ∀ p o, f p = .array o → p = .array o)
    (hbuffer : ∀ buf, f (.buffer buf) = .buffer buf) : (k.modify a f).Furnished := by
  have hkept : ∀ b buf, k.get? b = some (.buffer buf) → (k.modify a f).get? b = k.get? b := by
    intro b buf hb
    rw [get?_modify]
    split
    · rw [hb]
      exact congrArg some (hbuffer buf)
    · rfl
  have hold : ∀ x o, (k.modify a f).get? x = some (.array o) → k.get? x = some (.array o) := by
    intro x o hx
    rw [get?_modify] at hx
    split at hx
    · obtain ⟨p, hp, hfp⟩ := Option.map_eq_some_iff.mp hx
      rw [hp, harr p o hfp]
    · exact hx
  intro x o hx
  obtain ⟨b, buf, hb⟩ := hf x o (hold x o hx)
  exact ⟨b, buf, hb.congr (hkept b buf hb.object)⟩

theorem Furnished.place (hf : k.Furnished) (hw : k.WellFormed) {c : Cell}
    (harr : ∀ o, c.object ≠ .array o) : (k.place c).Furnished := by
  intro x o hx
  rw [get?_place] at hx
  split at hx
  · exact absurd (Option.some.inj hx) (harr o)
  · obtain ⟨b, buf, hb⟩ := hf x o hx
    refine ⟨b, buf, hb.congr ?_⟩
    rw [get?_place, if_neg]
    rintro rfl
    cases (get?_nextAddress hw).symm.trans hb.object

/-! ### Elements and zeros -/

theorem getElem?_storage {elements : Array Value} (hi : elements.size ≤ i) (hcap : i < capacity) :
    (Host.storage elements capacity)[i]? = some (.int 0) := by
  unfold Host.storage
  rw [Array.getElem?_append_right hi, Array.getElem?_replicate, if_pos (by omega)]
  rfl

theorem extract_storage (elements : Array Value) (capacity : Nat) :
    (Host.storage elements capacity).extract 0 elements.size = elements := by
  unfold Host.storage
  simp

theorem backed_storage {elements : Array Value}
    (hb : k.get? b = some (.buffer { owner := a, elements := Host.storage elements capacity }))
    (hcap : max 4 elements.size ≤ capacity) :
    ArrayObject.Backed { len := elements.size, capacity, buffer := some b } k a b
      { owner := a, elements := Host.storage elements capacity } where
  buffer := rfl
  object := hb
  owner := rfl
  size := by
    show (Host.storage elements capacity).size = capacity
    rw [Host.size_storage]
    omega
  least := hcap
  zeros _ hlen hi := getElem?_storage hlen hi

theorem Furnished.withArray (hf : k.Furnished) (hw : k.WellFormed) (elements : Array Value) :
    (k.withArray elements).Furnished := by
  have hnone : ∀ x, k.nextAddress ≤ x → k.get? x = none := by
    intro x hx
    cases hget : k.get? x with
    | none => rfl
    | some p => exact absurd (lt_nextAddress hw hget) (Nat.not_lt.mpr hx)
  have hbuffer : k.get? k.nextBuffer = none := hnone _ (Nat.le_add_right ..)
  have hr : k.Resettled k.nextAddress k.nextBuffer (k.withArray elements) := by
    refine ⟨fun x ha hb => ?_, fun buf hget => ?_, fun buf hget => ?_⟩
    · rw [get?_withArray, if_neg ha, if_neg hb]
    · cases (get?_nextAddress hw).symm.trans hget
    · cases hbuffer.symm.trans hget
  refine hf.resettle hr (by rw [get?_withArray, if_pos rfl]) (backed_storage ?_ ?_)
  · rw [get?_withArray, if_neg (nextAddress_ne_nextBuffer k).symm, if_pos rfl]
  · unfold arrayCapacity Host.minCapacity
    omega

/-! ### A larger buffer and one more element -/

/-- The array at `a` gets a new buffer with its elements. -/
def withBuffer (k : Heap) (a : Address) (elements : Array Value) (capacity : Nat) : Heap :=
  let buffer : Object := .buffer { owner := a, elements := Host.storage elements capacity }
  (k.place { object := buffer, size := buffer.size, pinned := false }).modify a fun
    | .array o => .array { o with buffer := some k.nextAddress, capacity }
    | o => o

/-- The element at a position of the buffer at `b` is set. -/
def withElement (k : Heap) (b : Address) (index : Nat) (v : Value) : Heap :=
  k.modify b fun
    | .buffer buf => .buffer { buf with elements := buf.elements.setIfInBounds index v }
    | o => o

/-- The array at `a`, with the buffer at `b`, gets one more element. -/
def extended (k : Heap) (a b : Address) (index : Nat) (v : Value) : Heap :=
  (k.withElement b index v).modify a fun
    | .array o => .array { o with len := o.len + 1 }
    | o => o

theorem get?_withBuffer (hw : k.WellFormed) (hget : k.get? a = some (.array o))
    (elements : Array Value) (capacity x : Nat) :
    (k.withBuffer a elements capacity).get? x =
      if x = a then some (.array { o with buffer := some k.nextAddress, capacity })
      else if x = k.nextAddress then
        some (.buffer { owner := a, elements := Host.storage elements capacity })
      else k.get? x := by
  have hne : k.nextAddress ≠ a := (Nat.ne_of_lt (lt_nextAddress hw hget)).symm
  unfold withBuffer
  simp only [get?_modify, get?_place]
  by_cases ha : x = a
  · subst ha
    simp [hne, hget]
  · by_cases hb : x = k.nextAddress
    · subst hb
      simp [hne, Ne.symm hne]
    · simp [ha, hb, Ne.symm ha, Ne.symm hb]

theorem get?_withElement (hb : k.get? b = some (.buffer buf)) (index : Nat) (v : Value) (x : Nat) :
    (k.withElement b index v).get? x =
      if x = b then some (.buffer { buf with elements := buf.elements.setIfInBounds index v })
      else k.get? x := by
  unfold withElement
  rw [get?_modify]
  by_cases hx : x = b
  · subst hx
    simp [hb]
  · simp [hx, Ne.symm hx]

theorem get?_extended (hget : k.get? a = some (.array o)) (hb : k.get? b = some (.buffer buf))
    (index : Nat) (v : Value) (x : Nat) :
    (k.extended a b index v).get? x =
      if x = a then some (.array { o with len := o.len + 1 })
      else if x = b then some (.buffer { buf with elements := buf.elements.setIfInBounds index v })
      else k.get? x := by
  have hne : a ≠ b := by
    rintro rfl
    cases hget.symm.trans hb
  unfold extended
  rw [get?_modify, get?_withElement hb]
  by_cases hx : x = a
  · subst hx
    simp [hne, hget]
  · simp [hx, Ne.symm hx]

theorem resettled_withBuffer (hw : k.WellFormed) (hget : k.get? a = some (.array o))
    (elements : Array Value) (capacity : Nat) :
    k.Resettled a k.nextAddress (k.withBuffer a elements capacity) := by
  refine ⟨fun x ha hb => ?_, fun buf hbuf => ?_, fun buf hbuf => ?_⟩
  · rw [get?_withBuffer hw hget, if_neg ha, if_neg hb]
  · cases hget.symm.trans hbuf
  · cases (get?_nextAddress hw).symm.trans hbuf

theorem backed_withBuffer (hw : k.WellFormed) (hget : k.get? a = some (.array o))
    {elements : Array Value} (hlen : elements.size = o.len) (hcap : max 4 o.len ≤ capacity) :
    ArrayObject.Backed { o with buffer := some k.nextAddress, capacity }
      (k.withBuffer a elements capacity) a k.nextAddress
      { owner := a, elements := Host.storage elements capacity } := by
  have hb : (k.withBuffer a elements capacity).get? k.nextAddress =
      some (.buffer { owner := a, elements := Host.storage elements capacity }) := by
    rw [get?_withBuffer hw hget, if_neg (Nat.ne_of_lt (lt_nextAddress hw hget)).symm, if_pos rfl]
  have hbacked := backed_storage hb (hlen ▸ hcap)
  rw [hlen] at hbacked
  exact hbacked

theorem resettled_extended (hget : k.get? a = some (.array o)) (hb : o.Backed k a b buf)
    (index : Nat) (v : Value) : k.Resettled a b (k.extended a b index v) := by
  refine ⟨fun x hxa hxb => ?_, fun buf' hbuf => ?_, fun buf' hbuf => ?_⟩
  · rw [get?_extended hget hb.object, if_neg hxa, if_neg hxb]
  · cases hget.symm.trans hbuf
  · cases hb.object.symm.trans hbuf
    exact hb.owner

theorem backed_extended (hget : k.get? a = some (.array o)) (hb : o.Backed k a b buf)
    (hroom : o.len < o.capacity) (v : Value) :
    ArrayObject.Backed { o with len := o.len + 1 } (k.extended a b o.len v) a b
      { buf with elements := buf.elements.setIfInBounds o.len v } where
  buffer := hb.buffer
  object := by
    rw [get?_extended hget hb.object, if_neg, if_pos rfl]
    rintro rfl
    cases hget.symm.trans hb.object
  owner := hb.owner
  size := by
    rw [Array.size_setIfInBounds]
    exact hb.size
  least := by
    have := hb.least
    show max 4 (o.len + 1) ≤ o.capacity
    omega
  zeros i hi hcap := by
    have hi : o.len + 1 ≤ i := hi
    rw [Array.getElem?_setIfInBounds, if_neg (by omega)]
    exact hb.zeros i (by omega) hcap

theorem extract_push {es : Array Value} {n : Nat} (hn : n < es.size) (v : Value) :
    (es.setIfInBounds n v).extract 0 (n + 1) = (es.extract 0 n).push v := by
  apply Array.ext_getElem?
  intro i
  simp only [Array.getElem?_push, Array.getElem?_extract, Array.getElem?_setIfInBounds,
    Array.size_extract, Array.size_setIfInBounds]
  grind

theorem elements_extended (hget : k.get? a = some (.array o)) (hb : o.Backed k a b buf)
    (hroom : o.len < o.capacity) (v : Value) :
    (k.extended a b o.len v).elements a = .ok ((buf.elements.extract 0 o.len).push v) := by
  have hafter : (k.extended a b o.len v).get? a = some (.array { o with len := o.len + 1 }) := by
    rw [get?_extended hget hb.object, if_pos rfl]
  rw [(backed_extended hget hb hroom v).elements hafter]
  exact congrArg Except.ok (extract_push (by rw [hb.size]; exact hroom) v)

theorem Furnished.withElement (hf : k.Furnished) (hget : k.get? a = some (.array o))
    (hb : o.Backed k a b buf) (hidx : index < o.len) (v : Value) :
    (k.withElement b index v).Furnished := by
  have hne : a ≠ b := by
    rintro rfl
    cases hget.symm.trans hb.object
  have hr : k.Resettled a b (k.withElement b index v) := by
    refine ⟨fun x _ hxb => ?_, fun buf' hbuf => ?_, fun buf' hbuf => ?_⟩
    · rw [get?_withElement hb.object, if_neg hxb]
    · cases hget.symm.trans hbuf
    · cases hb.object.symm.trans hbuf
      exact hb.owner
  have hbacked : o.Backed (k.withElement b index v) a b
      { buf with elements := buf.elements.setIfInBounds index v } := by
    refine ⟨hb.buffer, ?_, hb.owner, ?_, hb.least, fun i hi hcap => ?_⟩
    · rw [get?_withElement hb.object, if_pos rfl]
    · rw [Array.size_setIfInBounds]
      exact hb.size
    · rw [Array.getElem?_setIfInBounds, if_neg (by omega)]
      exact hb.zeros i hi hcap
  exact hf.resettle hr (by rw [get?_withElement hb.object, if_neg hne, hget]) hbacked

end Heap

namespace Host

variable {h g : Host} {a b : Nat} {o : ArrayObject} {buf : Buffer} {v : Value}

/-! ## Collections -/

theorem Retained.follow (hl : h.heap.Laid) (hr : h.Retained a) {p q : Object}
    (hget : h.heap.get? a = some p) (hb : b ∈ p.references) (hq : h.heap.get? b = some q) :
    h.Retained b := by
  obtain ⟨c, hc, rfl⟩ := Heap.get?_eq_some_iff.mp hget
  obtain ⟨d, hd, -⟩ := Heap.get?_eq_some_iff.mp hq
  rcases hr with hr | ⟨c', hc', hpin⟩
  · exact .inl (.follow hr hc hb ((NatMap.mem_iff_getElem? _ _).mpr ⟨d, hd⟩))
  · -- a pinned object is a class, and a class refers to nothing
    cases hc.symm.trans hc'
    have hkind := (hl.pinned a c hc).mp hpin
    cases hobj : c.object <;> simp_all [Object.kind, Object.references]

theorem get?_collected (ho : h.Orderly) (hr : h.Retained a) :
    h.collected.get? a = h.heap.get? a := by
  classical
  unfold Heap.get?
  rw [getElem?_collected ho, if_pos hr]

theorem furnished_collected (hw : h.Whole) (hf : h.heap.Furnished) : h.collected.Furnished := by
  intro a o hget
  obtain ⟨c, hc, hobj⟩ := Heap.get?_eq_some_iff.mp hget
  obtain ⟨hr, hc⟩ := getElem?_of_collected hw.1 hc
  have hold := Heap.get?_eq_some_iff.mpr ⟨c, hc, hobj⟩
  obtain ⟨b, buf, hb⟩ := hf a o hold
  refine ⟨b, buf, hb.congr (get?_collected hw.1 (hr.follow hw.2.laid hold ?_ hb.object))⟩
  simp [Object.references, hb.buffer]

theorem durable_furnished : Durable Heap.Furnished where
  collected := furnished_collected
  place _ hw harr hf := hf.place hw harr
  array elements hw hf := hf.withArray hw elements

theorem Collects.elements_eq (hc : Collects h g) (hw : h.Whole) (hf : h.heap.Furnished)
    (hget : g.heap.get? x = some (.array p)) :
    h.heap.get? x = some (.array p) ∧ g.heap.elements x = h.heap.elements x := by
  obtain ⟨y, buf, hy⟩ := durable_furnished.collects hw hf hc x p hget
  have hold := hc.get? hw.1 hget
  have hy' : p.Backed h.heap x y buf := hy.congr ((hc.get? hw.1 hy.object).trans hy.object.symm)
  exact ⟨hold, (hy.elements hget).trans (hy'.elements hold).symm⟩

/-! ## Pushing -/

theorem storeElement_eq (hget : h.heap.get? a = some (.array o)) (hbuffer : o.buffer = some b)
    (hb : h.heap.get? b = some (.buffer buf)) (hidx : index < buf.elements.size) (v : Value) :
    storeElement a index v h = .ok () { h with heap := h.heap.withElement b index v } := by
  have hobj : h.heap.object b = .ok (.buffer buf) := by
    unfold Heap.object
    rw [hb]
  unfold storeElement
  rw [bind_ok (inspect_ok (arrayAt_eq hget)), hbuffer]
  simp only
  rw [bind_ok (inspect_ok hobj)]
  simp only [if_pos hidx]
  rfl

theorem storeLast_eq (hget : h.heap.get? a = some (.array o)) (hb : o.Backed h.heap a b buf)
    (hroom : o.len < o.capacity) (v : Value) :
    (do storeElement a o.len v; changeArray a fun o => { o with len := o.len + 1 } : Act Unit) h =
      .ok () { h with heap := h.heap.extended a b o.len v } := by
  have hafter : (h.heap.withElement b o.len v).get? a = some (.array o) := by
    rw [Heap.get?_withElement hb.object, if_neg, hget]
    rintro rfl
    cases hget.symm.trans hb.object
  rw [bind_ok (storeElement_eq hget hb.buffer hb.object (by rw [hb.size]; exact hroom) v)]
  exact changeArray_eq (h := { h with heap := h.heap.withElement b o.len v }) hafter _

/-- How growing ends: with a larger buffer after some collections; without memory for one; or with
the array itself gone, which nothing referred to. -/
inductive Grows (h : Host) (a : Nat) (o : ArrayObject) (elements : Array Value) (v : Value) :
    EStateM.Result Interrupt Host Unit → Prop
  | ok {m : Host} (collects : Collects (h.spilled [.array a, v]) m)
      (alive : m.heap.get? a = some (.array o)) : Grows h a o elements v
        (.ok () { h with heap := m.heap.withBuffer a elements (grownCapacity o) })
  | failed {m : Host} {e : Interrupt} (collects : Collects (h.spilled [.array a, v]) m)
      (quiet : ∀ w, e ≠ .raise w) : Grows h a o elements v (.error e { h with heap := m.heap })
  | lost {m k : Host} {f : Fault} (collects : Collects (h.spilled [.array a, v]) m)
      (gone : m.heap.get? a = none) : Grows h a o elements v (.error (.fault f) k)

theorem grow_cases (ho : h.Orderly) (hget : h.heap.get? a = some (.array o)) {elements : Array Value}
    (helems : h.heap.elements a = .ok elements) (v : Value) :
    Grows h a o elements v (grow a o v h) := by
  have ho' : (h.spilled [.array a, v]).Orderly := ho.withStack _
  unfold grow
  rw [bind_ok (inspect_ok helems), withFrame_eq]
  have hcases := allocate_cases ho' (.buffer
    { owner := a, elements := storage elements (max (o.capacity * 2) minCapacity) }) false
  generalize hr : allocate _ false (h.spilled [.array a, v]) = r at hcases
  cases hcases with
  | fatal hc | fault hc =>
    rw [bind_error hr]
    simp only
    rw [hc.unspilled]
    exact .failed hc nofun
  | ok hc =>
    rename_i m
    rw [bind_ok hr]
    -- a collection may have taken the array itself, but has not changed it
    have hold : ∀ p, m.heap.get? a = some p → p = .array o := fun p hp =>
      Option.some.inj ((hc.get? ho' hp).symm.trans hget)
    have hne : m.heap.nextAddress ≠ a := by
      have hlt := Heap.lt_nextAddress ho.wellFormed hget
      unfold Heap.nextAddress at hlt ⊢
      rw [hc.nextFree]
      exact (Nat.ne_of_lt hlt).symm
    cases hm : m.heap.get? a with
    | none =>
      have hnone : ∀ c, (m.heap.place c).arrayAt a = .error (.dangling a) := by
        intro c
        unfold Heap.arrayAt Heap.object
        rw [Heap.get?_place, if_neg hne, hm]
        rfl
      unfold changeArray
      rw [bind_error (inspect_error (hnone _))]
      exact .lost hc hm
    | some p =>
      obtain rfl := hold p hm
      rw [changeArray_eq (o := o) ((Heap.get?_place ..).trans ((if_neg hne).trans hm))]
      have hstt := congrArg (fun k : Host =>
        { k with heap := m.heap.withBuffer a elements (grownCapacity o) }) hc.unspilled
      exact (congrArg (Grows h a o elements v) (congrArg (EStateM.Result.ok ()) hstt)).mpr
        (.ok hc hm)

/-- How a push ends. -/
inductive Pushes (h : Host) (a b : Nat) (o : ArrayObject) (elements : Array Value) (v : Value) :
    EStateM.Result Interrupt Host Unit → Prop
  | stored (room : o.len < o.capacity) :
      Pushes h a b o elements v (.ok () { h with heap := h.heap.extended a b o.len v })
  | grown {m : Host} (collects : Collects (h.spilled [.array a, v]) m)
      (alive : m.heap.get? a = some (.array o)) (full : o.len = o.capacity) :
      Pushes h a b o elements v (.ok () { h with heap :=
        (m.heap.withBuffer a elements (grownCapacity o)).extended a m.heap.nextAddress o.len v })
  | failed {m : Host} {e : Interrupt} (collects : Collects (h.spilled [.array a, v]) m)
      (quiet : ∀ w, e ≠ .raise w) : Pushes h a b o elements v (.error e { h with heap := m.heap })
  | lost {m k : Host} {f : Fault} (collects : Collects (h.spilled [.array a, v]) m)
      (gone : m.heap.get? a = none) : Pushes h a b o elements v (.error (.fault f) k)

theorem lt_grownCapacity (hb : o.Backed k a b buf) : o.len < grownCapacity o := by
  have := hb.least
  unfold grownCapacity minCapacity
  omega

theorem max_le_grownCapacity (hb : o.Backed k a b buf) : max 4 o.len ≤ grownCapacity o := by
  have := lt_grownCapacity hb
  unfold grownCapacity minCapacity at *
  omega

theorem pushElement_cases (hw : h.Whole) (hget : h.heap.get? a = some (.array o))
    (hb : o.Backed h.heap a b buf) (v : Value) :
    Pushes h a b o (buf.elements.extract 0 o.len) v (pushElement a v h) := by
  unfold pushElement
  rw [bind_ok (inspect_ok (arrayAt_eq hget))]
  split
  · rename_i hfull
    have hcases := grow_cases hw.1 hget (hb.elements hget) v
    generalize hr : grow a o v h = r at hcases
    cases hcases with
    | ok hc alive =>
      rename_i m
      have hwell := (hc.orderly (hw.1.withStack _)).wellFormed
      have hlen := hb.size_extract
      have hcap := max_le_grownCapacity hb
      rw [bind_ok hr]
      -- the array as it is now, with the larger buffer
      have hbacked := Heap.backed_withBuffer hwell alive hlen hcap
      have harr := (Heap.get?_withBuffer hwell alive (buf.elements.extract 0 o.len)
        (grownCapacity o) a).trans (if_pos rfl)
      have hlast := storeLast_eq (h := { h with heap := m.heap.withBuffer a _ _ }) harr hbacked
        (lt_grownCapacity hb) v
      exact (congrArg (Pushes h a b o _ v) hlast).mpr (.grown hc alive hfull)
    | failed hc quiet =>
      rw [bind_error hr]
      exact .failed hc quiet
    | lost hc gone =>
      rw [bind_error hr]
      exact .lost hc gone
  · rename_i hroom
    have hroom : o.len < o.capacity := by
      have := hb.least
      omega
    exact (congrArg (Pushes h a b o _ v) (storeLast_eq hget hb hroom v)).mpr (.stored hroom)

/-- The array at `a` has one more element, and the other arrays have theirs. -/
structure Appended (k : Heap) (a : Nat) (elements : Array Value) (v : Value) (k' : Heap) : Prop where
  furnished : k'.Furnished
  elements : k'.elements a = .ok (elements.push v)
  others : ∀ (x : Nat) (p : ArrayObject), x ≠ a → k'.get? x = some (.array p) →
    k.get? x = some (.array p) ∧ k'.elements x = k.elements x

theorem appended_extended (hf : k.Furnished) (hget : k.get? a = some (.array o))
    (hb : o.Backed k a b buf) (hroom : o.len < o.capacity) (v : Value) :
    Appended k a (buf.elements.extract 0 o.len) v (k.extended a b o.len v) := by
  have hbacked := Heap.backed_extended hget hb hroom v
  have hr := Heap.resettled_extended hget hb o.len v
  refine ⟨hf.resettle hr ?_ hbacked, Heap.elements_extended hget hb hroom v, fun x p hx hp =>
    hr.elements_eq hbacked.object hf hx hp⟩
  rw [Heap.get?_extended hget hb.object, if_pos rfl]

/-- **A push that succeeds** adds its element at the end and leaves the other arrays alone. -/
theorem appended_pushElement (hw : h.Whole) (hf : h.heap.Furnished)
    (hget : h.heap.get? a = some (.array o)) (hr : pushElement a v h = .ok () g) :
    ∃ elements, h.heap.elements a = .ok elements ∧ Appended h.heap a elements v g.heap := by
  obtain ⟨b, buf, hb⟩ := hf a o hget
  refine ⟨_, hb.elements hget, ?_⟩
  have hcases := pushElement_cases hw hget hb v
  rw [hr] at hcases
  cases hcases with
  | stored hroom => exact appended_extended hf hget hb hroom v
  | grown hc alive full =>
    rename_i m
    have hw' := hw.spilled [.array a, v]
    have hwell := (hc.orderly hw'.1).wellFormed
    have hfm : m.heap.Furnished := durable_furnished.collects hw' hf hc
    have hbacked := Heap.backed_withBuffer hwell alive (hb.size_extract) (max_le_grownCapacity hb)
    have hresettled := Heap.resettled_withBuffer hwell alive (buf.elements.extract 0 o.len)
      (grownCapacity o)
    have harr := (Heap.get?_withBuffer hwell alive (buf.elements.extract 0 o.len)
      (grownCapacity o) a).trans (if_pos rfl)
    have hlast := appended_extended (hfm.resettle hresettled harr hbacked) harr hbacked
      (lt_grownCapacity hb) v
    have hextract : (storage (buf.elements.extract 0 o.len) (grownCapacity o)).extract 0 o.len =
        buf.elements.extract 0 o.len := by
      have := Heap.extract_storage (buf.elements.extract 0 o.len) (grownCapacity o)
      rwa [hb.size_extract] at this
    refine ⟨hlast.furnished, hlast.elements.trans (congrArg (fun es => Except.ok (es.push v)) hextract),
      fun x p hx hp => ?_⟩
    -- back through the new element, the new buffer and the collections
    obtain ⟨hp, h1⟩ := hlast.others x p hx hp
    obtain ⟨hp, h2⟩ := hresettled.elements_eq hbacked.object hfm hx hp
    obtain ⟨hp, h3⟩ := hc.elements_eq hw' hf hp
    exact ⟨hp, h1.trans (h2.trans h3)⟩

theorem retained_spilled (hw : h.Whole) (hbot : h.stack.bottom ≤ h.stack.depth)
    {vs : List Value} (hv : v ∈ vs) (hlv : v.LiveIn h.heap) (ha : v.address? = some a) :
    (h.spilled vs).Retained a :=
  retained_of_anchored (h := h.spilled vs) (hw.1.withStack _) hw.2.laid.pinned
    (fun b c hc => (hw.2.laid.sized b c hc).2) hlv (anchored_spilled hbot hv) ha

theorem Collects.get?_eq (hc : Collects h g) (ho : h.Orderly) (hr : h.Retained a) :
    g.heap.get? a = h.heap.get? a :=
  congrArg (Option.map Cell.object) (hc.getElem? ho hr).2

/-- **A push that fails** leaves the array and its buffer alone. -/
theorem unchanged_pushElement (hw : h.Whole) (hbot : h.stack.bottom ≤ h.stack.depth)
    (hget : h.heap.get? a = some (.array o)) (hb : o.Backed h.heap a b buf) {e : Interrupt}
    (hr : pushElement a v h = .error e g) :
    g.heap.get? a = some (.array o) ∧ o.Backed g.heap a b buf := by
  have hw' := hw.spilled [.array a, v]
  have harr : (h.spilled [.array a, v]).Retained a :=
    retained_spilled hw hbot (v := .array a) (by simp) (Heap.kindAt_of_get? hget) rfl
  have hbuffer : (h.spilled [.array a, v]).Retained b :=
    harr.follow hw'.2.laid hget (by simp [Object.references, hb.buffer]) hb.object
  have hcases := pushElement_cases hw hget hb v
  rw [hr] at hcases
  cases hcases with
  | failed hc quiet => exact ⟨(hc.get?_eq hw'.1 harr).trans hget, hb.congr (hc.get?_eq hw'.1 hbuffer)⟩
  | lost hc gone =>
    rw [hc.get?_eq hw'.1 harr] at gone
    cases hget.symm.trans gone

/-! ## Requests -/

theorem furnished_pushElement (a : Nat) (v : Value) :
    Preserves Heap.Furnished (fun _ _ => True) (pushElement a v) := by
  refine ⟨fun h => (tame_pushElement a v).whole, fun h hw hf => ?_⟩
  cases harr : h.heap.arrayAt a with
  | error f =>
    unfold pushElement
    rw [bind_error (inspect_error harr)]
    trivial
  | ok o =>
    have hget := get?_of_arrayAt harr
    obtain ⟨b, buf, hb⟩ := hf a o hget
    have hcases := pushElement_cases hw hget hb v
    generalize hr : pushElement a v h = r at hcases
    cases hcases with
    | stored | grown =>
      obtain ⟨_, -, happended⟩ := appended_pushElement hw hf hget hr
      exact happended.furnished
    | failed hc quiet =>
      rename_i m e
      have hw' := hw.spilled [.array a, v]
      have hfm : m.heap.Furnished := durable_furnished.collects hw' hf hc
      cases e with
      | raise w => exact absurd rfl (quiet w)
      | fatal e => exact hfm
      | fault f => trivial
    | lost => trivial

theorem furnished_storeElement (hf : h.heap.Furnished)
    (hidx : ∀ o, h.heap.get? a = some (.array o) → index < o.len) :
    Upholds Heap.Furnished (fun _ _ => True) (storeElement a index v h) := by
  cases harr : h.heap.arrayAt a with
  | error f =>
    unfold storeElement
    rw [bind_error (inspect_error harr)]
    trivial
  | ok o =>
    have hget := get?_of_arrayAt harr
    obtain ⟨b, buf, hb⟩ := hf a o hget
    have hlen := hidx o hget
    have hsize : index < buf.elements.size := by
      have := hb.least
      have := hb.size
      omega
    rw [storeElement_eq hget hb.buffer hb.object hsize]
    exact hf.withElement hget hb hlen v

theorem furnished_change (a : Nat) (harr : ∀ p o, f p = .array o → p = .array o)
    (hbuffer : ∀ buf, f (.buffer buf) = .buffer buf) (hf : h.heap.Furnished) :
    Upholds Heap.Furnished (fun _ _ => True) (change a f h) :=
  hf.modify harr hbuffer

theorem furnished_setEntry (a : Nat) (key : String) (v : Value) :
    Preserves Heap.Furnished (fun _ _ => True) (setEntry a key v) := by
  refine ⟨fun h => (tame_setEntry a key v).whole, fun h hw hf => ?_⟩
  refine .inspect_bind fun _ _ => furnished_change a (fun p o hp => ?_) (fun _ => rfl) hf
  cases p <;> simp_all

theorem furnished_changeClass (v : Value) (f : ClassObject → ClassObject) :
    Preserves Heap.Furnished (fun _ _ => True) (changeClass v f) := by
  refine ⟨fun h => (tame_changeClass v f).whole, fun h hw hf => ?_⟩
  unfold changeClass
  cases v.address? with
  | none => exact hf
  | some a =>
    refine .inspect_bind fun _ _ => furnished_change _ (fun p o hp => ?_) (fun _ => rfl) hf
    cases p <;> simp_all

theorem lt_of_position {index : Value} {length : Nat} {site : Location}
    (hr : position index length site h = .ok i g) : i < length ∧ g = h := by
  unfold position at hr
  cases index with
  | int n =>
    simp only at hr
    split at hr
    · cases hr
      refine ⟨?_, rfl⟩
      omega
    · exact absurd hr (failure_ne_ok _ _ _)
  | float | bool | null | str | array | dict | cls | inst => exact absurd hr (failure_ne_ok _ _ _)

theorem stable_furnished (site : Location) : Stable site Heap.Furnished fun _ _ => True :=
  { durable_furnished with raised _ _ _ _ _ := trivial }

theorem furnished_indexSet (container index v : Value) (site : Location) :
    Preserves Heap.Furnished (fun _ _ => True) (indexSet container index v site) := by
  have hM := (stable_furnished site).inquiring
  refine ⟨fun h => (tame_indexSet container index v site).whole, fun h hw hf => ?_⟩
  unfold indexSet
  split
  · refine .inspect_bind fun o harr => ?_
    refine ((hM.position index o.len).upholds h hw hf).bind fun i g hi hf => ?_
    obtain ⟨hlt, rfl⟩ := lt_of_position hi
    refine furnished_storeElement hf fun o' ho' => ?_
    cases harr.symm.trans (arrayAt_eq ho')
    exact hlt
  · exact (hM.bind (hM.dictKey index) fun key => furnished_setEntry _ key v).upholds h hw hf
  · exact (hM.failure _).upholds h hw hf

theorem pervasive_furnished (site : Location) :
    Pervasive site (Preserves Heap.Furnished fun _ _ => True) where
  toInquiring := (stable_furnished site).inquiring
  get := .get
  pushElement := furnished_pushElement
  indexSet container index v := furnished_indexSet container index v site
  setEntry := furnished_setEntry
  printLine text := by
    refine ⟨fun h => (tame_printLine text).whole, fun h _ hf => ?_⟩
    unfold printLine
    split <;> exact hf
  readLine := by
    refine ⟨fun h => tame_readLine.whole, fun h _ hf => ?_⟩
    unfold readLine
    split <;> exact hf

/-- Whether an action ended with a fault. -/
def faulty {α : Type} : EStateM.Result Interrupt Host α → Bool
  | .error (.fault _) _ => true
  | _ => false

theorem Upholds.afterwards {α : Type} {P : Heap → Prop} {E : Value → Heap → Prop} {x : Act α}
    (hx : Upholds P E (x h)) (hflt : faulty (x h) = false) : P (Host.afterwards x h).heap := by
  unfold Host.afterwards
  cases hr : x h with
  | ok a g =>
    rw [hr] at hx
    exact hx
  | error e g =>
    rw [hr] at hx hflt
    cases e with
    | raise v => exact hx.1
    | fatal e => exact hx
    | fault f => cases hflt

/-- An element is set within the length of its array only. -/
def Request.Contained (h : Host) : Request → Prop
  | .storeElement a index _ => ∀ o, h.heap.get? a = some (.array o) → index < o.len
  | _ => True

/-- The states that a host reaches as long as no request ends with a fault. -/
inductive Attained : Host → Prop
  | new (config : Config) (console : Console) : Attained (Host.new config console)
  | request {h : Host} (r : Request) : Attained h → r.Admissible h → r.Contained h →
      faulty (r.perform h) = false → Attained (afterwards r.perform h)

theorem Attained.reachable (hr : Attained h) : Reachable h := by
  induction hr with
  | new config console => exact .new config console
  | request r _ hadm _ _ ih => exact .request r ih hadm

theorem furnished_perform (hw : h.Whole) (hf : h.heap.Furnished) (r : Request)
    (hin : r.Contained h) : Upholds Heap.Furnished (fun _ _ => True) (r.perform h) := by
  have hM := pervasive_furnished
  have hS := stable_furnished
  have hD := durable_furnished
  cases r with
  | newSlot | tryPush | tryPop | onStack | setArguments | setConsole | finish => exact hf
  | load slot =>
    have hload : Preserves Heap.Furnished (fun _ _ => True) (Host.load slot) := by
      unfold Host.load
      refine .bind .get fun k => ?_
      split
      · exact .pure _
      · exact .fault _
    exact hload.discard.upholds h hw hf
  | store slot v =>
    show Upholds _ _ (Host.store slot v h)
    unfold Host.store
    split
    · exact hf
    · trivial
  | pushRoot slot =>
    show Upholds _ _ (Host.pushRoot slot h)
    unfold Host.pushRoot
    rw [get_bind]
    cases h.roots.push slot <;> exact hf
  | popRoots count =>
    show Upholds _ _ (Host.popRoots count h)
    unfold Host.popRoots
    rw [get_bind]
    cases h.roots.pop count <;> exact hf
  | collect => exact hD.collect.discard.upholds h hw hf
  | string text => exact (hD.string text).discard.upholds h hw hf
  | newArray elements =>
    exact (Preserves.bind (hD.allocateArray elements) fun _ => .pure _).discard.upholds h hw hf
  | pushElement a v => exact (furnished_pushElement a v).upholds h hw hf
  | storeElement a index v => exact furnished_storeElement hf hin
  | newDict => exact (Preserves.bind hD.allocateDict fun _ => .pure _).discard.upholds h hw hf
  | setEntry a key v => exact (furnished_setEntry a key v).upholds h hw hf
  | display v => exact (Preserves.inspect _).discard.upholds h hw hf
  | truthy v => exact (Preserves.inspect _).discard.upholds h hw hf
  | equal lhs rhs => exact (Preserves.inspect _).discard.upholds h hw hf
  | operate op lhs rhs site => exact ((hM site).operate op lhs rhs).discard.upholds h hw hf
  | contains container item site =>
    exact ((hM site).contains container item).discard.upholds h hw hf
  | indexGet container index site =>
    exact ((hM site).indexGet container index).discard.upholds h hw hf
  | indexSet container index v site => exact (furnished_indexSet ..).upholds h hw hf
  | slice container start stop site =>
    exact ((hM site).slice container start stop).discard.upholds h hw hf
  | length v site => exact ((hM site).length v).discard.upholds h hw hf
  | dictKeys v site => exact ((hM site).dictKeys v).discard.upholds h hw hf
  | toInt v site => exact ((hM site).toInt v).discard.upholds h hw hf
  | toFloat v site => exact ((hM site).toFloat v).discard.upholds h hw hf
  | newClass name => exact (hD.newClass name).discard.upholds h hw hf
  | addField v field => exact (furnished_changeClass ..).upholds h hw hf
  | addMethod v method => exact (furnished_changeClass ..).upholds h hw hf
  | memberGet target name inside site =>
    exact ((hM site).memberGet target name inside).discard.upholds h hw hf
  | memberSet target name v inside site =>
    exact ((hM site).memberSet target name v inside).upholds h hw hf
  | methodFor target name supplied inside site =>
    exact ((hM site).methodFor target name supplied inside).discard.upholds h hw hf
  | begin cls arguments site => exact ((hS site).begin cls arguments).discard.upholds h hw hf
  | assign c field v => exact (furnished_setEntry ..).upholds h hw hf
  | conclude c =>
    have hconclude : Preserves Heap.Furnished (fun _ _ => True) (Host.conclude c) := by
      unfold Host.conclude
      refine .bind (.inspect _) fun _ => ?_
      split
      · exact (hM c.site).map _ ((hM c.site).methodFor ..)
      · exact iteInduction (fun _ => .pure _) fun _ => (hM c.site).failure _
    exact hconclude.discard.upholds h hw hf
  | raise v site => exact Stable.upholds_raise hf trivial site
  | failure site message => exact ((hS site).failure message).upholds h hw hf
  | caught v site => exact ((hM site).caught v).discard.upholds h hw hf
  | builtin b arguments site => exact ((hM site).builtin b arguments).discard.upholds h hw hf

theorem Attained.furnished (hr : Attained h) : h.heap.Furnished := by
  induction hr with
  | new config console =>
    intro a o hget
    obtain ⟨c, hc, -⟩ := Heap.get?_eq_some_iff.mp hget
    simp [Host.new, Heap.empty] at hc
  | request r hr _ hin hflt ih =>
    exact (furnished_perform (reachable_whole hr.reachable) ih r hin).afterwards hflt

/-- What a push of `v` on the array at `a` comes to: it adds the element at the end and leaves the
elements of all other arrays; or it fails, and leaves the array and its buffer as they are. -/
def PushedOnto (h : Host) (a : Nat) (o : ArrayObject) (v : Value) :
    EStateM.Result Interrupt Host Unit → Prop
  | .ok _ g => ∃ elements, h.heap.elements a = .ok elements ∧ Appended h.heap a elements v g.heap
  | .error _ g => h.stack.bottom ≤ h.stack.depth →
    g.heap.get? a = some (.array o) ∧ g.heap.elements a = h.heap.elements a ∧
      ∀ b, o.buffer = some b → g.heap.get? b = h.heap.get? b

theorem pushedOnto_pushElement (hw : h.Whole) (hf : h.heap.Furnished)
    (hget : h.heap.get? a = some (.array o)) (v : Value) :
    PushedOnto h a o v (pushElement a v h) := by
  cases hpush : pushElement a v h with
  | ok u g => exact appended_pushElement hw hf hget hpush
  | error e g =>
    intro hbot
    obtain ⟨b, buf, hb⟩ := hf a o hget
    obtain ⟨hget', hb'⟩ := unchanged_pushElement hw hbot hget hb hpush
    refine ⟨hget', (hb'.elements hget').trans (hb.elements hget).symm, fun c hc => ?_⟩
    cases hb.buffer.symm.trans hc
    exact hb'.object.trans hb.object.symm

/-- **Arrays and pushes.** In every state that a host reaches without a fault, each array has a buffer
of its own with zeros behind the elements, and a push does what it should, whatever collections
happen. -/
theorem array_representation (hr : Attained h) :
    h.heap.Furnished ∧ ∀ (a : Nat) (o : ArrayObject) (v : Value),
      h.heap.get? a = some (.array o) → PushedOnto h a o v (pushElement a v h) := by
  have hw := reachable_whole hr.reachable
  exact ⟨hr.furnished, fun a o v hget => pushedOnto_pushElement hw hr.furnished hget v⟩

/-- A host with a full array, under settings that collect before the larger buffer is made. -/
def withFullArray : Host :=
  afterwards (Request.newArray #[.int 1, .int 2, .int 3, .int 4]).perform
    (Host.new { initialThreshold := 0, minThreshold := 0 })

theorem array_representation_full : Attained withFullArray ∧
    withFullArray.heap.stats.collections <
      (afterwards (pushElement 0x100020 (.int 5)) withFullArray).heap.stats.collections ∧
    ∃ g, pushElement 0x100020 (.int 5) withFullArray = .ok () g ∧
      g.heap.elements 0x100020 = .ok #[.int 1, .int 2, .int 3, .int 4, .int 5] := by
  have hattained : Attained withFullArray :=
    .request _ (.new _ {}) trivial trivial (by decide +kernel)
  refine ⟨hattained, by decide +kernel, ?_⟩
  have hpush := (array_representation hattained).2 0x100020
    { len := 4, capacity := 4, buffer := some 0x100060 } (.int 5) (by decide +kernel)
  cases hr : pushElement 0x100020 (.int 5) withFullArray with
  | ok u g =>
    rw [hr] at hpush
    obtain ⟨elements, helems, happended⟩ := hpush
    have hfour : withFullArray.heap.elements 0x100020 = .ok #[.int 1, .int 2, .int 3, .int 4] := by
      decide +kernel
    obtain rfl := Except.ok.inj (helems.symm.trans hfour)
    exact ⟨g, rfl, happended.elements⟩
  | error e g =>
    have hok : (match pushElement 0x100020 (.int 5) withFullArray with
        | .ok .. => true
        | .error .. => false) = true := by decide +kernel
    rw [hr] at hok
    cases hok

end Host

end Ember
