import Ember.Heap.Display
import Ember.Proofs.Heap.WellFormed

/-!
# Ember — typed heaps

A value says by its tag what kind of object its address refers to. A heap is typed when everything
that its objects refer to is there and is of the right kind. Then no reader of the heap that starts
from a live value comes to a missing object or to one of another kind.

What is read has to be independent of the objects that nothing refers to, since collections free
them at any time. So readers are looked at in two heaps at once, which agree where both have an
object.

Main result: `Heap.Reads`.
-/

namespace Ember

variable {h h' : Heap} {k : Kind} {L : Linkage} {a b : Nat} {o : Object} {v : Value}

/-! ## Kinds -/

/-- The kinds of objects. Buffers of different sizes are of different kinds. -/
inductive Kind
  | str | array | buffer (size : Nat) | dict | cls | inst
deriving DecidableEq

/-- The kind of an object. -/
def Object.kind : Object → Kind
  | .str _ => .str
  | .array _ => .array
  | .buffer b => .buffer b.elements.size
  | .dict _ => .dict
  | .cls _ => .cls
  | .inst _ => .inst

/-- The kind of the object at an address. -/
def Heap.kindAt (h : Heap) (a : Nat) : Option Kind :=
  (h.get? a).map Object.kind

/-- What a value refers to is there and is of the kind that its tag says. -/
def Value.LiveIn (h : Heap) : Value → Prop
  | .str a => h.kindAt a = some .str
  | .array a => h.kindAt a = some .array
  | .dict a => h.kindAt a = some .dict
  | .cls a => h.kindAt a = some .cls
  | .inst a => h.kindAt a = some .inst
  | _ => True

/-- Which fields and methods classes may have. -/
structure Linkage where
  field : Field → Prop
  method : Method → Prop

/-- The elements of an array have room in its buffer. -/
def ArrayObject.Fits (h : Heap) (o : ArrayObject) : Prop :=
  o.len ≤ o.capacity ∧
    match o.buffer with
    | none => o.capacity = 0
    | some b => ∃ n, h.kindAt b = some (.buffer n) ∧ o.capacity ≤ n

/-- What an object refers to is there and is of the right kind, and a class has admitted members
only. -/
def Object.LiveIn (L : Linkage) (h : Heap) : Object → Prop
  | .str _ => True
  | .array o => o.Fits h
  | .buffer b => h.kindAt b.owner = some .array ∧ ∀ v ∈ b.elements, v.LiveIn h
  | .dict d => ∀ v ∈ d.values, v.LiveIn h
  | .cls c => (∀ f ∈ c.fields, L.field f) ∧ ∀ m ∈ c.methods, L.method m
  | .inst i => h.kindAt i.cls = some .cls ∧ h.kindAt i.fields = some .dict

namespace Heap

variable {L : Linkage} {h h' : Heap}

/-- Everything that objects refer to is there and is of the right kind. Exactly the classes are
pinned, and every object has a payload, by which the collector finds it. -/
structure Typed (L : Linkage) (h : Heap) : Prop where
  live : ∀ (a : Nat) (o : Object), h.get? a = some o → o.LiveIn L h
  pinned : ∀ (a : Nat) (c : Cell), h.cells[a]? = some c → (c.pinned = true ↔ c.object.kind = .cls)
  sized : ∀ (a : Nat) (c : Cell), h.cells[a]? = some c → 0 < c.size

theorem get?_eq_some_iff : h.get? a = some o ↔ ∃ c, h.cells[a]? = some c ∧ c.object = o := by
  unfold get?
  rw [Option.map_eq_some_iff]

theorem kindAt_eq_some_iff : h.kindAt a = some k ↔ ∃ o, h.get? a = some o ∧ o.kind = k := by
  unfold kindAt
  rw [Option.map_eq_some_iff]

theorem kindAt_of_get? (ho : h.get? a = some o) : h.kindAt a = some o.kind :=
  kindAt_eq_some_iff.mpr ⟨o, ho, rfl⟩

theorem mem_of_kindAt (hk : h.kindAt a = some k) : a ∈ h.cells := by
  obtain ⟨o, ho, -⟩ := kindAt_eq_some_iff.mp hk
  obtain ⟨c, hc, -⟩ := get?_eq_some_iff.mp ho
  exact (NatMap.mem_iff_getElem? _ _).mpr ⟨c, hc⟩

end Heap

theorem Value.LiveIn.mono (hv : v.LiveIn h)
    (hk : ∀ (a : Nat) k, v.address? = some a → h.kindAt a = some k → h'.kindAt a = some k) :
    v.LiveIn h' := by
  cases v <;> first | exact hk _ _ rfl hv | trivial

theorem Value.LiveIn.mem (hv : v.LiveIn h) (ha : v.address? = some a) : a ∈ h.cells := by
  cases v with
  | int | float | null | bool => simp [Value.address?] at ha
  | str | array | dict | cls | inst =>
    cases ha
    exact Heap.mem_of_kindAt hv

theorem ArrayObject.Fits.mono {o : ArrayObject} (ho : o.Fits h)
    (hk : ∀ (b : Nat) k, o.buffer = some b → h.kindAt b = some k → h'.kindAt b = some k) :
    o.Fits h' := by
  refine ⟨ho.1, ?_⟩
  have hroom := ho.2
  cases hb : o.buffer with
  | none => rwa [hb] at hroom
  | some b =>
    rw [hb] at hroom
    obtain ⟨n, hn, hle⟩ := hroom
    exact ⟨n, hk b _ hb hn, hle⟩

theorem ArrayObject.Fits.buffer {o : ArrayObject} (ho : o.Fits h) (hb : o.buffer = some b) :
    ∃ n, h.kindAt b = some (.buffer n) ∧ o.capacity ≤ n := by
  have hroom := ho.2
  rwa [hb] at hroom

theorem ArrayObject.Fits.empty {o : ArrayObject} (ho : o.Fits h) (hb : o.buffer = none) :
    o.len = 0 := by
  have hroom := ho.2
  rw [hb] at hroom
  have := ho.1
  have hroom : o.capacity = 0 := hroom
  omega

theorem Object.LiveIn.mono (ho : o.LiveIn L h)
    (hk : ∀ (a : Nat) k, a ∈ o.references → h.kindAt a = some k → h'.kindAt a = some k) :
    o.LiveIn L h' := by
  cases o with
  | str s => trivial
  | array o =>
    refine ArrayObject.Fits.mono ho fun b k hb => hk b k ?_
    simp [Object.references, hb]
  | buffer b =>
    refine ⟨hk _ _ (by simp [Object.references]) ho.1, fun v hv => (ho.2 v hv).mono ?_⟩
    intro a k ha
    refine hk a k ?_
    simp only [Object.references, List.mem_cons, List.mem_filterMap]
    exact .inr ⟨v, by simpa using hv, ha⟩
  | dict d =>
    refine fun v hv => (ho v hv).mono ?_
    intro a k ha
    refine hk a k ?_
    simp only [Object.references, List.mem_filterMap]
    exact ⟨v, hv, ha⟩
  | cls c => exact ho
  | inst i =>
    exact ⟨hk _ _ (by simp [Object.references]) ho.1, hk _ _ (by simp [Object.references]) ho.2⟩

theorem Object.LiveIn.mem (ho : o.LiveIn L h) (ha : a ∈ o.references) : a ∈ h.cells := by
  cases o with
  | str s => simp [Object.references] at ha
  | array o =>
    obtain ⟨n, hn, -⟩ := ArrayObject.Fits.buffer ho (by simpa [Object.references] using ha)
    exact Heap.mem_of_kindAt hn
  | buffer b =>
    simp only [Object.references, List.mem_cons, List.mem_filterMap] at ha
    rcases ha with rfl | ⟨v, hv, ha⟩
    · exact Heap.mem_of_kindAt ho.1
    · exact (ho.2 v (by simpa using hv)).mem ha
  | dict d =>
    simp only [Object.references, List.mem_filterMap] at ha
    obtain ⟨v, hv, ha⟩ := ha
    exact (ho v hv).mem ha
  | cls c => simp [Object.references] at ha
  | inst i =>
    simp only [Object.references, List.mem_cons, List.not_mem_nil, or_false] at ha
    rcases ha with rfl | rfl
    · exact Heap.mem_of_kindAt ho.1
    · exact Heap.mem_of_kindAt ho.2

/-! ## Two heaps -/

namespace Heap

/-- Two typed heaps that agree where both have an object, and that go on at the same address. -/
structure Twin (L : Linkage) (h1 h2 : Heap) : Prop where
  typed1 : h1.Typed L
  typed2 : h2.Typed L
  next : h1.nextFree = h2.nextFree
  agree : ∀ (a : Nat) (c₁ c₂ : Cell), h1.cells[a]? = some c₁ → h2.cells[a]? = some c₂ → c₁ = c₂

/-- A value that is live in both heaps. -/
def Live (h1 h2 : Heap) (v : Value) : Prop :=
  v.LiveIn h1 ∧ v.LiveIn h2

/-- What is read from two heaps is the same, and the reader stays within its conditions, sizes and
addresses of more than 64 bits apart. -/
structure Reads {α : Type} (r1 r2 : Except Fault α) (Q : α → Prop) : Prop where
  same : r1 = r2
  ok : ∀ a, r1 = .ok a → Q a
  overflow : ∀ f, r1 = .error f → f = .overflow

variable {L : Linkage} {h1 h2 : Heap} {α β : Type}

namespace Twin

theorem symm (ht : Twin L h1 h2) : Twin L h2 h1 :=
  ⟨ht.typed2, ht.typed1, ht.next.symm, fun a c1 c2 hc1 hc2 => (ht.agree a c2 c1 hc2 hc1).symm⟩

theorem left (ht : Twin L h1 h2) : Twin L h1 h1 :=
  ⟨ht.typed1, ht.typed1, rfl, fun _ _ _ hc1 hc2 => Option.some.inj (hc1.symm.trans hc2)⟩

theorem common (ht : Twin L h1 h2) (hk1 : h1.kindAt a = some k) (hk2 : h2.kindAt a = some k) :
    ∃ o, h1.get? a = some o ∧ h2.get? a = some o ∧ o.kind = k ∧ o.LiveIn L h1 ∧ o.LiveIn L h2 := by
  obtain ⟨o1, ho1, hkind⟩ := kindAt_eq_some_iff.mp hk1
  obtain ⟨o2, ho2, -⟩ := kindAt_eq_some_iff.mp hk2
  obtain ⟨c1, hc1, rfl⟩ := get?_eq_some_iff.mp ho1
  obtain ⟨c2, hc2, rfl⟩ := get?_eq_some_iff.mp ho2
  obtain rfl := ht.agree a c1 c2 hc1 hc2
  exact ⟨c1.object, ho1, ho2, hkind, ht.typed1.live a _ ho1, ht.typed2.live a _ ho2⟩

end Twin

namespace Reads

variable {r1 r2 : Except Fault α} {Q R : α → Prop} {S : β → Prop}

theorem pure {a : α} (ha : Q a) : Reads (.ok a) (.ok a) Q :=
  ⟨rfl, fun _ hb => Except.ok.inj hb ▸ ha, fun _ hf => nomatch hf⟩

theorem fail : Reads (.error .overflow : Except Fault α) (.error .overflow) Q :=
  ⟨rfl, fun _ hb => (nomatch hb), fun _ hg => (Except.error.inj hg).symm⟩

theorem mono (hr : Reads r1 r2 Q) (hQ : ∀ a, Q a → R a) : Reads r1 r2 R :=
  ⟨hr.same, fun a ha => hQ a (hr.ok a ha), hr.overflow⟩

theorem bind {g1 g2 : α → Except Fault β} (hr : Reads r1 r2 Q)
    (hg : ∀ a, Q a → Reads (g1 a) (g2 a) S) : Reads (r1 >>= g1) (r2 >>= g2) S := by
  obtain ⟨rfl, hok, hoverflow⟩ := hr
  cases r1 with
  | ok a => exact hg a (hok a rfl)
  | error f =>
    obtain rfl := hoverflow f rfl
    exact .fail

theorem mapM {l : List α} {g1 g2 : α → Except Fault β} (hg : ∀ a ∈ l, Reads (g1 a) (g2 a) S) :
    Reads (l.mapM g1) (l.mapM g2) fun bs => ∀ b ∈ bs, S b := by
  induction l with
  | nil => exact .pure (by simp)
  | cons a rest ih =>
    have hrest := ih fun b hb => hg b (.tail _ hb)
    rw [List.mapM_cons, List.mapM_cons]
    refine (hg a (.head _)).bind fun b hb => hrest.bind fun bs hbs => .pure ?_
    simpa using ⟨hb, hbs⟩

end Reads

/-! ## Readers -/

namespace Twin

section

variable (ht : Twin L h1 h2)

include ht

theorem object (hk1 : h1.kindAt a = some k) (hk2 : h2.kindAt a = some k) :
    Reads (h1.object a) (h2.object a) fun o =>
      o.kind = k ∧ o.LiveIn L h1 ∧ o.LiveIn L h2 ∧ h1.get? a = some o ∧ h2.get? a = some o := by
  obtain ⟨o, ho1, ho2, hkind, hl1, hl2⟩ := ht.common hk1 hk2
  have hr1 : h1.object a = .ok o := by simp only [Heap.object, ho1]
  have hr2 : h2.object a = .ok o := by simp only [Heap.object, ho2]
  refine ⟨hr1.trans hr2.symm, fun b hb => ?_, fun f hf => ?_⟩
  · rw [hr1] at hb
    cases hb
    exact ⟨hkind, hl1, hl2, ho1, ho2⟩
  · rw [hr1] at hf
    cases hf

theorem arrayAt (ha : Live h1 h2 (.array a)) :
    Reads (h1.arrayAt a) (h2.arrayAt a) fun o => o.Fits h1 ∧ o.Fits h2 ∧
      h1.get? a = some (.array o) ∧ h2.get? a = some (.array o) := by
  refine (ht.object ha.1 ha.2).bind fun o ho => ?_
  obtain ⟨hkind, hl1, hl2, ho1, ho2⟩ := ho
  cases o <;> simp [Object.kind] at hkind
  exact .pure ⟨hl1, hl2, ho1, ho2⟩

theorem dictAt (ha : Live h1 h2 (.dict a)) :
    Reads (h1.dictAt a) (h2.dictAt a) fun d => (∀ v ∈ d.values, Live h1 h2 v) ∧
      h1.get? a = some (.dict d) ∧ h2.get? a = some (.dict d) := by
  refine (ht.object ha.1 ha.2).bind fun o ho => ?_
  obtain ⟨hkind, hl1, hl2, ho1, ho2⟩ := ho
  cases o <;> simp [Object.kind] at hkind
  exact .pure ⟨fun v hv => ⟨hl1 v hv, hl2 v hv⟩, ho1, ho2⟩

theorem classAt (ha : Live h1 h2 (.cls a)) :
    Reads (h1.classAt a) (h2.classAt a) fun c =>
      (∀ f ∈ c.fields, L.field f) ∧ ∀ m ∈ c.methods, L.method m := by
  refine (ht.object ha.1 ha.2).bind fun o ho => ?_
  obtain ⟨hkind, hl1, -⟩ := ho
  cases o <;> simp [Object.kind] at hkind
  exact .pure hl1

theorem instanceAt (ha : Live h1 h2 (.inst a)) :
    Reads (h1.instanceAt a) (h2.instanceAt a) fun i =>
      Live h1 h2 (.cls i.cls) ∧ Live h1 h2 (.dict i.fields) ∧ h1.get? a = some (.inst i) := by
  refine (ht.object ha.1 ha.2).bind fun o ho => ?_
  obtain ⟨hkind, hl1, hl2, ho1, -⟩ := ho
  cases o <;> simp [Object.kind] at hkind
  exact .pure ⟨⟨hl1.1, hl2.1⟩, ⟨hl1.2, hl2.2⟩, ho1⟩

theorem text? (hv : Live h1 h2 v) : Reads (h1.text? v) (h2.text? v) fun _ => True := by
  cases v with
  | str a =>
    refine (ht.object hv.1 hv.2).bind fun o _ => ?_
    cases o <;> exact .pure trivial
  | int | float | array | dict | cls | inst | null | bool => exact .pure trivial

theorem text (hv : Live h1 h2 v) : Reads (h1.text v) (h2.text v) fun _ => True :=
  (ht.text? hv).bind fun _ _ => .pure trivial

theorem buffer {o : ArrayObject} (ho1 : o.Fits h1) (ho2 : o.Fits h2) (hb : o.buffer = some b) :
    Reads (h1.object b) (h2.object b) fun p => ∃ buf, p = .buffer buf ∧
      o.capacity ≤ buf.elements.size ∧ p.LiveIn L h1 ∧ p.LiveIn L h2 ∧ h1.get? b = some p ∧
      h2.get? b = some p := by
  obtain ⟨n, hn, hle⟩ := ho1.buffer hb
  obtain ⟨m, hm, -⟩ := ho2.buffer hb
  obtain ⟨p1, hp1, hkind1⟩ := kindAt_eq_some_iff.mp hn
  obtain ⟨p2, hp2, hkind2⟩ := kindAt_eq_some_iff.mp hm
  obtain ⟨c1, hc1, rfl⟩ := get?_eq_some_iff.mp hp1
  obtain ⟨c2, hc2, rfl⟩ := get?_eq_some_iff.mp hp2
  obtain rfl := ht.agree b c1 c2 hc1 hc2
  refine (ht.object hn (hm.trans (by rw [← hkind1, ← hkind2]))).mono fun p hp => ?_
  obtain ⟨hkind, hl1, hl2, hp1, hp2⟩ := hp
  cases p <;> simp [Object.kind] at hkind
  exact ⟨_, rfl, hkind ▸ hle, hl1, hl2, hp1, hp2⟩

theorem elements (ha : Live h1 h2 (.array a)) :
    Reads (h1.elements a) (h2.elements a) fun es => (∀ v ∈ es, Live h1 h2 v) ∧
      ∀ o, h1.get? a = some (.array o) → es.size = o.len := by
  refine (ht.arrayAt ha).bind fun o ho => ?_
  obtain ⟨hfits1, hfits2, ho1, -⟩ := ho
  have hlen : ∀ {n : Nat}, n = o.len → ∀ o', h1.get? a = some (.array o') → n = o'.len := by
    rintro n hn o' ho'
    obtain rfl : o = o' := Object.array.inj (Option.some.inj (ho1.symm.trans ho'))
    exact hn
  cases hb : o.buffer with
  | none =>
    refine .pure ⟨by simp, hlen ?_⟩
    exact (hfits1.empty hb).symm
  | some b =>
    refine (ht.buffer hfits1 hfits2 hb).bind fun p hp => ?_
    obtain ⟨buf, rfl, hroom, hl1, hl2, -⟩ := hp
    have hfit : o.len ≤ buf.elements.size := Nat.le_trans hfits1.1 hroom
    simp only [if_pos hfit]
    refine .pure ⟨fun v hv => ?_, hlen ?_⟩
    · have hmem : v ∈ buf.elements := by
        rw [← Array.mem_toList_iff, Array.toList_extract] at hv
        have htake : v ∈ buf.elements.toList.take o.len := by simpa using hv
        exact Array.mem_toList_iff.mp (List.mem_of_mem_take htake)
      exact ⟨hl1.2 v hmem, hl2.2 v hmem⟩
    · simpa using hfit

end

/-! ## Texts of values -/

theorem length_enclosing_le {enclosing : List Nat} (hnd : enclosing.Nodup)
    (hmem : ∀ a ∈ enclosing, a ∈ h.cells) : enclosing.length ≤ h.cells.size := by
  rw [← Std.TreeMap.length_keys]
  refine (hnd.subperm fun a ha => ?_).length_le
  exact Std.TreeMap.mem_keys.mpr (hmem a ha)

/-- The text of a live value needs no more room than there are objects that do not enclose it. -/
theorem displayWithin (ht : Twin L h1 h2) (d1 : Nat) : ∀ (d2 : Nat) (inner : Bool)
    (enclosing : List Nat) (v : Value), enclosing.Nodup →
    (∀ a ∈ enclosing, a ∈ h1.cells ∧ a ∈ h2.cells) → h1.cells.size < d1 + enclosing.length →
    h2.cells.size < d2 + enclosing.length → Live h1 h2 v →
    Reads (h1.displayWithin d1 inner enclosing v) (h2.displayWithin d2 inner enclosing v)
      fun _ => True := by
  induction d1 with
  | zero =>
    intro d2 inner enclosing v hnd hmem hroom
    have := length_enclosing_le hnd fun a ha => (hmem a ha).1
    omega
  | succ d1 ih =>
    intro d2 inner enclosing v hnd hmem hroom1 hroom2 hv
    obtain _ | d2 := d2
    · have := length_enclosing_le hnd fun a ha => (hmem a ha).2
      omega
    -- inside a container that is not yet enclosing there is room for one level less
    have hin : ∀ (a : Nat) (w : Value), a ∉ enclosing → a ∈ h1.cells → a ∈ h2.cells →
        Live h1 h2 w → Reads (h1.displayWithin d1 true (a :: enclosing) w)
          (h2.displayWithin d2 true (a :: enclosing) w) fun _ => True := by
      intro a w hnew ha1 ha2 hw
      refine ih d2 true (a :: enclosing) w (List.nodup_cons.mpr ⟨hnew, hnd⟩) ?_ ?_ ?_ hw
      · intro b hb
        rcases List.mem_cons.mp hb with rfl | hb
        · exact ⟨ha1, ha2⟩
        · exact hmem b hb
      · simp only [List.length_cons]
        omega
      · simp only [List.length_cons]
        omega
    cases v with
    | int | float | null | bool => exact .pure trivial
    | str a => exact (ht.text hv).bind fun _ _ => .pure trivial
    | cls a => exact (ht.classAt hv).bind fun _ _ => .pure trivial
    | inst a =>
      exact (ht.instanceAt hv).bind fun i hi => (ht.classAt hi.1).bind fun _ _ => .pure trivial
    | array a =>
      simp only [Heap.displayWithin]
      split
      · exact .pure trivial
      · rename_i hnew
        have hnew : a ∉ enclosing := by simpa using hnew
        refine (ht.elements hv).bind fun es hes => ?_
        refine (Reads.mapM (S := fun _ => True) fun w hw => ?_).bind fun _ _ => .pure trivial
        exact hin a w hnew (mem_of_kindAt hv.1) (mem_of_kindAt hv.2) (hes.1 w (by simpa using hw))
    | dict a =>
      simp only [Heap.displayWithin]
      split
      · exact .pure trivial
      · rename_i hnew
        have hnew : a ∉ enclosing := by simpa using hnew
        refine (ht.dictAt hv).bind fun d hd => ?_
        refine (Reads.mapM (S := fun _ => True) fun e he => ?_).bind fun _ _ => .pure trivial
        have hlv : Live h1 h2 e.2 := hd.1 e.2 (List.mem_map_of_mem he)
        exact (hin a e.2 hnew (mem_of_kindAt hv.1) (mem_of_kindAt hv.2) hlv).bind
          fun _ _ => .pure trivial

theorem display (ht : Twin L h1 h2) (hv : Live h1 h2 v) :
    Reads (h1.display v) (h2.display v) fun _ => True :=
  ht.displayWithin _ _ false [] v List.nodup_nil (by simp) (by simp) (by simp) hv

end Twin

end Heap

end Ember
