import Ember.Proofs.Host.Twin

/-!
# Ember — operations treat twins alike

No operation of a host shows when collections happen. Called with values that are alive in both of
two twins, whether anything else holds on to them or not, it ends in the same way in both, comes to no
missing object, to none of another kind and to no position outside a buffer, and what it returns is
alive.

Main result: `alike_builtin`.
-/

namespace Ember.Host

open Heap (Live Reads)

variable {elements : Array Value} {o : ArrayObject} {c : Construction} {d : Dict} {e : Fault}
  {k1 k2 : Heap} {vs : List Value} {a buckets capacity : Nat} {op : Operator} {key : String}
  {container index item target v w : Value}

variable {L : Linkage} {h h1 h2 g1 g2 : Host} {α β : Type}

/-- The value that is returned is alive. -/
def Alive (v : Value) (k1 k2 : Heap) : Prop :=
  Live k1 k2 v

/-- Nothing is asked of what is returned. -/
def Any (_ : α) (_ _ : Heap) : Prop :=
  True

/-- Whatever was alive still is. -/
def Keeping (h1 h2 : Host) (_ : α) (k1 k2 : Heap) : Prop :=
  ∀ v, Live h1.heap h2.heap v → Live k1 k2 v

theorem live_of_get? {o : Object} (ho1 : k1.get? a = some o) (ho2 : k2.get? a = some o)
    (hv : ∀ k : Heap, k.kindAt a = some o.kind → v.LiveIn k) : Live k1 k2 v :=
  ⟨hv _ (Heap.kindAt_of_get? ho1), hv _ (Heap.kindAt_of_get? ho2)⟩

theorem Alike.inspect (ht : Twin L h1 h2) {k : Heap → Except Fault α} {P : α → Prop}
    {Q : α → Heap → Heap → Prop} (hk : Reads (k h1.heap) (k h2.heap) P)
    (hQ : ∀ a, P a → Q a h1.heap h2.heap) :
    Matched L h1 h2 Q (Host.inspect k) := by
  have hbind := Alike.inspect_bind (f := Pure.pure) ht hk fun a ha =>
    Alike.pure (Q := Q) ht (hQ a ha)
  rwa [bind_pure] at hbind

/-! ## Allocation -/

theorem alike_string (ht : Twin L h1 h2) (text : String) : Matched L h1 h2 Alive (string text) := by
  refine (Alike.allocate (o := .str text) ht (fun _ _ _ _ _ => ⟨trivial, trivial⟩)
    (by simp [Object.kind]) (Nat.succ_pos _)).bind fun a g1 g2 hg ha => .pure hg.twin ?_
  exact live_of_get? ha.1 ha.2.1 fun _ hk => hk

theorem alike_changeArray (ht : Twin L h1 h2) {f : ArrayObject → ArrayObject}
    (ha : Live h1.heap h2.heap (.array a))
    (hf : ∀ o, h1.heap.get? a = some (.array o) → (f o).Fits h1.heap ∧ (f o).Fits h2.heap) :
    Matched L h1 h2 (fun u k1 k2 => (∃ o, h1.heap.get? a = some (.array o) ∧
        k1.get? a = some (.array (f o))) ∧ Keeping h1 h2 u k1 k2) (changeArray a f) := by
  refine .inspect_bind ht (ht.heaps.arrayAt ha) fun o ho => ?_
  obtain ⟨-, -, ho1, ho2⟩ := ho
  obtain ⟨hfits1, hfits2⟩ := hf o ho1
  refine (Alike.change ht ho1 ho2 ⟨rfl, fun i hi => nomatch hi⟩ ?_ ?_).mono fun _ _ _ hQ =>
    ⟨⟨o, ho1, hQ.1⟩, hQ.2.2.1⟩
  · exact hfits1
  · exact hfits2

theorem mem_storage (hv : v ∈ storage elements capacity) : v ∈ elements ∨ v = default := by
  unfold storage at hv
  rcases Array.mem_append.mp hv with hv | hv
  · exact .inl hv
  · exact .inr (Array.mem_replicate.mp hv).2

theorem live_storage {k : Heap} (hlv : ∀ v ∈ elements, v.LiveIn k) :
    ∀ v ∈ storage elements capacity, v.LiveIn k := by
  intro v hv
  rcases mem_storage hv with hv | rfl
  · exact hlv v hv
  · trivial

section

variable (ht : Twin L h1 h2)

include ht

theorem alike_allocateArray (hlv : ∀ v ∈ elements, Live h1.heap h2.heap v) :
    Matched L h1 h2 (fun a k1 k2 => Live k1 k2 (.array a)) (allocateArray elements) := by
  unfold allocateArray
  refine .withFrame _ ht fun ht hanch => ?_
  refine .sound_bind ht (fun _ => overflow_of_footprint) fun array harr => ?_
  refine .sound_bind ht (fun _ => overflow_of_footprint) fun buffer hbuf => ?_
  by_cases hfit : h1.heap.nextFree + (array + buffer) < 0x10000000000000000
  · refine (Alike.reserve ht (Nat.le_refl 2) hfit).bind fun _ g1 g2 hg _ => ?_
    have hlive1 : ∀ v ∈ elements, Live g1.heap g2.heap v := fun v hv =>
      hg.live v (hanch v (by simpa using hv)) (hlv v hv)
    refine (Alike.insert hg.twin ?_ ?_ (by simp [Object.kind]) ?_).bind fun a k1 k2 hk ha => ?_
    · exact ⟨Nat.le_refl 0, rfl⟩
    · exact ⟨Nat.le_refl 0, rfl⟩
    · exact Nat.succ_pos 23
    obtain ⟨ha1, ha2, hkeep, -⟩ := ha
    have harr : Live k1.heap k2.heap (.array a) := live_of_get? ha1 ha2 fun _ hk => hk
    refine (Alike.insert hk.twin ?_ ?_ (by simp [Object.kind]) ?_).bind fun b m1 m2 hm hb => ?_
    · exact ⟨harr.1, live_storage fun v hv => (hkeep v (hlive1 v hv)).1⟩
    · exact ⟨harr.2, live_storage fun v hv => (hkeep v (hlive1 v hv)).2⟩
    · simp only [Object.size, size_storage, minCapacity]
      omega
    obtain ⟨hb1, hb2, hkeep', -⟩ := hb
    have hfits : ∀ k : Heap, k.get? b = some (.buffer
        { owner := a, elements := storage elements (max elements.size minCapacity) }) →
        ArrayObject.Fits k { len := elements.size, capacity := max elements.size minCapacity,
                             buffer := some b } := by
      intro k hk
      refine ⟨Nat.le_max_left .., _, Heap.kindAt_of_get? hk, ?_⟩
      rw [size_storage]
      exact Nat.le_max_right ..
    refine (alike_changeArray hm.twin (hkeep' _ harr) fun _ _ =>
      ⟨hfits _ hb1, hfits _ hb2⟩).bind fun _ n1 n2 hn hkeep'' =>
        .pure hn.twin (hkeep''.2 _ (hkeep' _ harr))
  · -- one of the two objects gets no address
    have hfails : ∀ h : Host, Mirror L h h → h.heap.nextFree = h1.heap.nextFree →
        Exhausted L h ((do
          reserve 2 (array + buffer)
          let a ← Host.insert (.array { len := 0, capacity := 0, buffer := none })
          let b ← Host.insert (.buffer
            { owner := a, elements := storage elements (max elements.size minCapacity) })
          changeArray a fun _ =>
            { len := elements.size, capacity := max elements.size minCapacity, buffer := some b }
          return a) h) := by
      intro h hm hnext
      refine .reserve_bind hm .refl (Nat.le_refl 2) fun g hc => .inr ?_
      have hnext : g.heap.nextFree = h1.heap.nextFree := hc.nextFree.trans hnext
      by_cases hfst : g.heap.nextFree + (headerSize + align 24) < 0x10000000000000000
      · rw [bind_ok ((insert_eq _ _ _).trans (if_pos hfst))]
        refine ⟨_, bind_error ((insert_eq _ _ _).trans (if_neg ?_)), hc.console⟩
        show ¬ g.heap.nextFree + (headerSize + align 24) + (headerSize + align (16 * _)) < _
        rw [size_storage, Nat.max_eq_right (Nat.le_max_left _ _), hnext, ← footprint_ok harr,
          ← footprint_ok hbuf, Nat.add_assoc]
        exact hfit
      · exact ⟨_, bind_error ((insert_eq _ _ _).trans (if_neg hfst)), hc.console⟩
    exact .exhausted ht.console (hfails _ ht.toMirror.left rfl)
      (hfails _ ht.toMirror.symm.left ht.heaps.next.symm)

theorem alike_newArray (hlv : ∀ v ∈ elements, Live h1.heap h2.heap v) :
    Matched L h1 h2 Alive (newArray elements) :=
  (alike_allocateArray ht hlv).bind fun _ _ _ hg ha => .pure hg.twin ha

theorem alike_storeElement {index : Nat} (ha : Live h1.heap h2.heap (.array a))
    (hv : Live h1.heap h2.heap v)
    (hidx : ∀ o, h1.heap.get? a = some (.array o) → index < o.capacity) :
    Matched L h1 h2 (fun u k1 k2 => k1.get? a = h1.heap.get? a ∧ Keeping h1 h2 u k1 k2)
      (storeElement a index v) := by
  refine .inspect_bind ht (ht.heaps.arrayAt ha) fun o ho => ?_
  obtain ⟨hfits1, hfits2, ho1, -⟩ := ho
  cases hb : o.buffer with
  | none => exact .pure ht ⟨rfl, fun _ hw => hw⟩
  | some b =>
    refine .inspect_bind ht (ht.heaps.buffer hfits1 hfits2 hb) fun p hp => ?_
    obtain ⟨buf, rfl, hroom, hl1, hl2, hp1, hp2⟩ := hp
    have hfit : index < buf.elements.size := Nat.lt_of_lt_of_le (hidx o ho1) hroom
    simp only [if_pos hfit]
    have hmem : ∀ w ∈ buf.elements.setIfInBounds index v, w = v ∨ w ∈ buf.elements := by
      intro w hw
      exact (Array.mem_or_eq_of_mem_setIfInBounds hw).symm
    have hab : a ≠ b := by
      rintro rfl
      cases Option.some.inj (ho1.symm.trans hp1)
    refine (Alike.change ht hp1 hp2 ⟨?_, fun i hi => nomatch hi⟩ ?_ ?_).mono
      fun _ _ _ hQ => ⟨hQ.2.2.2 a hab, hQ.2.2.1⟩
    · simp [Object.kind]
    · exact ⟨hl1.1, fun w hw => (hmem w hw).elim (fun heq => heq ▸ hv.1) (hl1.2 w)⟩
    · exact ⟨hl2.1, fun w hw => (hmem w hw).elim (fun heq => heq ▸ hv.2) (hl2.2 w)⟩

/-- The elements outlive the collections that make room for a larger buffer, because the array does. -/
theorem alike_grow (ho : h1.heap.get? a = some (.array o))
    (hfull : o.len = o.capacity) (ha : Live h1.heap h2.heap (.array a))
    (hv : Live h1.heap h2.heap v) :
    Matched L h1 h2 (fun _ k1 k2 => Live k1 k2 (.array a) ∧ Live k1 k2 v ∧
        ∃ o', k1.get? a = some (.array o') ∧ o'.len = o.len ∧ o.len < o'.capacity) (grow a o v) := by
  refine .inspect_bind (P := fun es => h1.heap.elements a = .ok es ∧ h2.heap.elements a = .ok es) ht
    ?_ fun es hes => ?_
  · have hreads := ht.heaps.elements ha
    exact ⟨hreads.same, fun es hes => ⟨hes, hreads.same ▸ hes⟩, hreads.overflow⟩
  refine .withFrame _ ht fun ht hanch => ?_
  have hkept : ∀ {g1 g2 : Host}, Onward L (h1.spilled [.array a, v]) (h2.spilled [.array a, v]) g1 g2 →
      Live g1.heap g2.heap (.array a) ∧ Live g1.heap g2.heap v := fun hg =>
    ⟨hg.live _ (hanch _ (by simp)) ha, hg.live _ (hanch _ (by simp)) hv⟩
  refine (Alike.allocate ht ?_ (by simp [Object.kind]) ?_).bind fun b g1 g2 hg hb => ?_
  · intro g1 g2 hg hc1 hc2
    have harr := (hkept hg).1
    have hes1 := (hc1.elements ht.orderly₁ hg.twin.heaps.typed1 harr.1).trans hes.1
    have hlv := ((hg.twin.heaps.elements harr).ok es hes1).1
    exact ⟨⟨harr.1, live_storage fun w hw => (hlv w hw).1⟩,
      ⟨harr.2, live_storage fun w hw => (hlv w hw).2⟩⟩
  · simp only [Object.size, size_storage, minCapacity]
    omega
  · obtain ⟨harr, hval⟩ := hkept hg
    obtain ⟨hb1, hb2, hold⟩ := hb
    -- the array is not the new buffer, so it is as it was
    have hsame : ∀ o', g1.heap.get? a = some (.array o') → o' = o := by
      intro o' ho'
      rcases hold a _ ho' with rfl | ho'
      · cases Option.some.inj (ho'.symm.trans hb1)
      · exact Object.array.inj (Option.some.inj (ho'.symm.trans ho))
    have hlarger : o.len < max (o.capacity * 2) minCapacity := by
      unfold minCapacity
      omega
    refine (alike_changeArray hg.twin harr fun o' ho' => ?_).mono fun _ _ _ hkeep => ?_
    · obtain rfl := hsame o' ho'
      have hroom := size_storage es (max (o'.capacity * 2) minCapacity)
      exact ⟨⟨Nat.le_of_lt hlarger, _, Heap.kindAt_of_get? hb1, hroom ▸ Nat.le_max_right ..⟩,
        ⟨Nat.le_of_lt hlarger, _, Heap.kindAt_of_get? hb2, hroom ▸ Nat.le_max_right ..⟩⟩
    · obtain ⟨⟨o', ho', hnew⟩, hkeep⟩ := hkeep
      obtain rfl := hsame o' ho'
      exact ⟨hkeep _ harr, hkeep _ hval, _, hnew, rfl, hlarger⟩

theorem alike_storeLast (ho : h1.heap.get? a = some (.array o))
    (hroom : o.len < o.capacity) (ha : Live h1.heap h2.heap (.array a))
    (hv : Live h1.heap h2.heap v) :
    Matched L h1 h2 Any
      (do storeElement a o.len v; changeArray a fun o => { o with len := o.len + 1 }) := by
  have hsame : ∀ o', h1.heap.get? a = some (.array o') → o' = o := fun o' ho' =>
    Object.array.inj (Option.some.inj (ho'.symm.trans ho))
  refine (alike_storeElement ht ha hv fun o' ho' => hsame o' ho' ▸ hroom).bind
    fun _ k1 k2 hk hkeep => ?_
  obtain ⟨hget, hkeep⟩ := hkeep
  refine (alike_changeArray hk.twin (hkeep _ ha) fun o' ho' => ?_).mono fun _ _ _ _ => trivial
  obtain ⟨-, -, ho1, ho2⟩ := (hk.twin.heaps.arrayAt (hkeep _ ha)).ok o' (by
    simp [Heap.arrayAt, Heap.object, ho', bind, Except.bind])
  obtain rfl := hsame o' (hget ▸ ho')
  have hfits1 : o'.Fits k1.heap := hk.twin.heaps.typed1.live a _ ho1
  have hfits2 : o'.Fits k2.heap := hk.twin.heaps.typed2.live a _ ho2
  exact ⟨⟨hroom, hfits1.2⟩, ⟨hroom, hfits2.2⟩⟩

theorem alike_pushElement (ha : Live h1.heap h2.heap (.array a)) (hv : Live h1.heap h2.heap v) :
    Matched L h1 h2 Any (pushElement a v) := by
  refine .inspect_bind ht (ht.heaps.arrayAt ha) fun o ho => ?_
  obtain ⟨hfits, -, ho, -⟩ := ho
  split
  · rename_i hfull
    refine (alike_grow ht ho hfull ha hv).bind fun _ g1 g2 hg hlv => ?_
    obtain ⟨ha, hv, o', ho', hlen, hroom⟩ := hlv
    rw [← hlen] at hroom ⊢
    exact alike_storeLast hg.twin ho' hroom ha hv
  · rename_i hfull
    exact alike_storeLast ht ho (Nat.lt_of_le_of_ne hfits.1 hfull) ha hv

theorem alike_pushStrings (ha : Live h1.heap h2.heap (.array a))
    (hanch : h1.Anchored (.array a)) (texts : List String) :
    Matched L h1 h2 Any (pushStrings a texts) := by
  induction texts generalizing h1 h2 with
  | nil => exact .pure ht trivial
  | cons s rest ih =>
    refine (alike_string ht s).bind fun v g1 g2 hg hv => ?_
    have hlv := hg.live _ hanch ha
    refine (alike_pushElement hg.twin hlv hv).bind fun _ k1 k2 hk _ => ?_
    have hanch := hg.frame.anchored hanch
    exact ih hk.twin (hk.live _ hanch hlv) (hk.frame.anchored hanch)

end

theorem make_ok (hd : Dict.make buckets = .ok d) : d.values = [] := by
  unfold Dict.make checkStorage at hd
  split at hd
  · cases hd
    simp [Dict.values, Dict.entries, Dict.empty]
  · cases hd

theorem overflow_of_checkStorage {count size : Nat} (he : checkStorage count size = .error e) :
    e = .overflow := by
  unfold checkStorage at he
  split at he
  · cases he
  · exact (Except.error.inj he).symm

theorem overflow_of_make (he : Dict.make buckets = .error e) : e = .overflow := by
  unfold Dict.make at he
  cases hs : checkStorage buckets 24 with
  | ok u => rw [hs] at he; cases he
  | error f =>
    rw [hs] at he
    exact Except.error.inj he ▸ overflow_of_checkStorage hs

theorem alike_allocateDict (ht : Twin L h1 h2) :
    Matched L h1 h2 (fun a k1 k2 => Live k1 k2 (.dict a)) allocateDict := by
  unfold Matched allocateDict
  rw [get_bind, get_bind, ht.dictBuckets]
  refine .sound_bind ht (fun _ => overflow_of_make) fun d hd => ?_
  have hempty : ∀ k : Heap, Object.LiveIn L k (.dict d) := by
    intro k v hv
    rw [make_ok hd] at hv
    cases hv
  refine (Alike.allocate ht (fun _ _ _ _ _ => ⟨hempty _, hempty _⟩) (by simp [Object.kind])
    (Nat.succ_pos _)).mono fun a k1 k2 ha => ?_
  exact live_of_get? ha.1 ha.2.1 fun _ hk => hk

theorem alike_newDict (ht : Twin L h1 h2) : Matched L h1 h2 Alive newDict :=
  (alike_allocateDict ht).bind fun _ _ _ hg ha => .pure hg.twin ha

theorem mem_values_insert (hw : w ∈ (d.insert key v).values) : w = v ∨ w ∈ d.values := by
  simp only [Dict.values, Dict.entries, List.mem_map, List.mem_flatten, Array.mem_toList_iff,
    Dict.insert] at hw ⊢
  obtain ⟨e, ⟨chain, hchain, he⟩, rfl⟩ := hw
  obtain ⟨i, hi⟩ := Array.mem_iff_getElem?.mp hchain
  rw [Array.getElem?_modify] at hi
  split at hi
  · obtain ⟨old, hold, rfl⟩ := Option.map_eq_some_iff.mp hi
    rcases Chain.mem_insert he with rfl | he
    · exact .inl rfl
    · exact .inr ⟨e, ⟨old, Array.mem_iff_getElem?.mpr ⟨i, hold⟩, he⟩, rfl⟩
  · exact .inr ⟨e, ⟨chain, Array.mem_iff_getElem?.mpr ⟨i, hi⟩, he⟩, rfl⟩

theorem alike_setEntry (ht : Twin L h1 h2) (key : String) (ha : Live h1.heap h2.heap (.dict a))
    (hv : Live h1.heap h2.heap v) :
    Matched L h1 h2 (Keeping h1 h2) (setEntry a key v) := by
  refine .inspect_bind ht (ht.heaps.dictAt ha) fun d hd => ?_
  obtain ⟨hlv, hd1, hd2⟩ := hd
  refine (Alike.change ht hd1 hd2 ⟨rfl, fun i hi => nomatch hi⟩ ?_ ?_).mono fun _ _ _ hQ => hQ.2.2.1
  · exact fun w hw => (mem_values_insert hw).elim (fun heq => heq ▸ hv.1) fun hw => (hlv w hw).1
  · exact fun w hw => (mem_values_insert hw).elim (fun heq => heq ▸ hv.2) fun hw => (hlv w hw).2

/-! ## Exceptions -/

variable {Q : α → Heap → Heap → Prop}

theorem alike_raise (ht : Twin L h1 h2) (hv : Live h1.heap h2.heap v) (site : Location) :
    Matched L h1 h2 Q (raise v site : Act α) := by
  have hleaves1 := (tame_raise (α := α) v site).leaves h1 ht.orderly₁
  have hleaves2 := (tame_raise (α := α) v site).leaves h2 ht.orderly₂
  unfold raise at *
  unfold Matched
  rw [get_bind] at hleaves1 ⊢
  rw [get_bind] at hleaves2 ⊢
  rw [ht.checkpoints] at hleaves2 ⊢
  cases hc : h1.checkpoints with
  | nil =>
    refine .inspect_bind ht (ht.heaps.display hv) fun text _ => .fatal ht.toMirror ?_
    exact ⟨.refl _, fun s m heq => ⟨hc, site, by injection heq with heq; exact heq.symm⟩, nofun⟩
  | cons c rest =>
    rw [hc] at hleaves1 hleaves2
    obtain ⟨ho1, hraised⟩ := hleaves1
    obtain ⟨ho2, -⟩ := hleaves2
    have hbot : h1.stack.bottom ≤ c.stack := ht.bottoms c (hc ▸ List.mem_cons_self)
    have hrts := ht.roots
    have hstk := ht.stack
    refine .raise ⟨⟨ho1, ho2, ht.heaps, ht.memoryLimit, ht.dictBuckets, ht.slots,
      congrArg (·.truncate c.roots) hrts, congrArg (·.truncate c.stack) hstk, rfl, rfl,
      ht.arguments, ht.console, ?_⟩, ?_, ?_⟩ hraised ⟨fun _ _ hw => hw, .refl _, .refl _⟩
    · rintro w hw
      cases hw
      exact hv
    · have := ht.bottom
      show h1.stack.bottom ≤ (h1.stack.words.take c.stack).size
      unfold Stack.depth at this
      simp
      omega
    · exact fun c' hc' => ht.bottoms c' (hc ▸ List.mem_cons_of_mem _ hc')

theorem alike_failure (ht : Twin L h1 h2) (site : Location) (message : String) :
    Matched L h1 h2 Q (failure site message : Act α) :=
  (alike_string ht _).bind fun _ _ _ hg hv => alike_raise hg.twin hv site

/-! ## Operators -/

theorem reads_truthy (ht : Heap.Twin L k1 k2) (hv : Live k1 k2 v) :
    Reads (truthy k1 v) (truthy k2 v) fun _ => True := by
  cases v with
  | int | float | bool | null | cls | inst => exact .pure trivial
  | str a => exact (ht.text? hv).bind fun _ _ => .pure trivial
  | array a => exact (ht.arrayAt hv).bind fun _ _ => .pure trivial
  | dict a => exact (ht.dictAt hv).bind fun _ _ => .pure trivial

theorem reads_equal (ht : Heap.Twin L k1 k2) (hv : Live k1 k2 v) (hw : Live k1 k2 w) :
    Reads (equal k1 v w) (equal k2 v w) fun _ => True := by
  unfold equal
  split
  · exact (ht.text? hv).bind fun _ _ => (ht.text? hw).bind fun _ _ => .pure trivial
  all_goals exact .pure trivial

theorem Exhausted.sound_bind {r : Except Fault α} {f : α → Act β} (hconsole : g1.console = h.console)
    (hr : ∀ e, r = .error e → e = .overflow) (hf : ∀ a, r = .ok a → Exhausted L h (f a g1)) :
    Exhausted L h ((sound r >>= f) g1) := by
  cases r with
  | ok a => exact hf a rfl
  | error e =>
    obtain rfl := hr e rfl
    exact .inr ⟨g1, rfl, hconsole⟩

/-- A repeated text. Room is made twice, for the bytes and for the string, and both times the same
addresses are asked for. -/
theorem alike_repeated (ht : Twin L h1 h2) (text : String) (count : Int64) :
    Matched L h1 h2 Alive (repeated text count) := by
  unfold Matched repeated
  rw [get_bind, get_bind, ht.memoryLimit]
  have hsize := utf8ByteSize_repeatText text count.toInt.toNat
  generalize text.utf8ByteSize * count.toInt.toNat = bytes at hsize ⊢
  by_cases hlimit : bytes ≤ h1.config.memoryLimit ∧ bytes < 0x10000000000000000
  case neg =>
    rw [if_neg hlimit]
    exact .left (Collects.refl.outOfMemory ht.toMirror.left ..)
  rw [if_pos hlimit, if_pos hlimit]
  refine .sound_bind ht (fun _ => overflow_of_footprint) fun room hroom => ?_
  have halign : align bytes ≤ align (bytes + 1) := by
    unfold align
    omega
  have hroom := footprint_ok hroom
  -- without addresses for the text both runs fail, though perhaps at different points
  by_cases hfit : h1.heap.nextFree + (headerSize + align (bytes + 1)) < 0x10000000000000000
  case pos =>
    refine (Alike.reserve ht (by omega) (by omega)).bind fun _ g1 g2 hg hc => ?_
    refine .sound_bind hg.twin (fun _ => overflow_of_checkStorage) fun _ _ => ?_
    refine .sound_bind hg.twin (fun _ => overflow_of_footprint) fun whole hwhole => ?_
    have hwhole := footprint_ok hwhole
    obtain ⟨⟨k, hk, hheap⟩, -⟩ := hc
    have hnext : g1.heap.nextFree = h1.heap.nextFree := hheap ▸ hk.nextFree
    refine (Alike.reserve hg.twin (by omega) (by omega)).bind fun _ k1 k2 hk _ => ?_
    refine (Alike.insert hk.twin ?_ ?_ (by simp [Object.kind]) ?_).bind fun a m1 m2 hm ha =>
      .pure hm.twin (live_of_get? ha.1 ha.2.1 fun _ hk => hk)
    · trivial
    · trivial
    · exact Nat.succ_pos _
  case neg =>
    have hfails : ∀ h : Host, Mirror L h h → h.heap.nextFree = h1.heap.nextFree →
        Exhausted L h ((do
          reserve 1 room
          sound (checkStorage bytes 1)
          reserve 1 (← sound (Heap.footprint (bytes + 1)))
          return .str (← Host.insert (.str (repeatText text count.toInt.toNat))) : Act Value) h) := by
      intro h hm hnext
      refine .reserve_bind hm .refl (by omega) fun g hc => ?_
      refine .sound_bind hc.console (fun _ => overflow_of_checkStorage) fun _ _ => ?_
      refine .sound_bind hc.console (fun _ => overflow_of_footprint) fun whole _ => ?_
      refine .reserve_bind hm hc (by omega) fun k hk => .inr ⟨k, ?_, hk.console⟩
      refine bind_error ((insert_eq _ _ _).trans (if_neg ?_))
      show ¬ k.heap.nextFree + (headerSize + align (_ + 1)) < _
      rw [hk.nextFree, hnext, hsize]
      exact hfit
    exact .exhausted ht.console (hfails h1 ht.toMirror.left rfl)
      (hfails h2 ht.toMirror.symm.left ht.heaps.next.symm)

/-- Whether an operator has a result on two numbers as such. Equality and the logical operators are
for all values. -/
def IsNumeric : Operator → Prop
  | .equal | .notEqual | .and | .or => False
  | _ => True

theorem alike_integerOp (ht : Twin L h1 h2) (hop : IsNumeric op) (a b : Int64) (site : Location) :
    Matched L h1 h2 Alive (integerOp op a b site) := by
  cases op with
  | divide | modulus =>
    unfold integerOp
    simp only
    split
    · exact alike_failure ht _ _
    · exact .pure ht ⟨trivial, trivial⟩
  | equal | notEqual | and | or => exact hop.elim
  | add | subtract | multiply | less | lessEqual | greater | greaterEqual =>
    exact .pure ht ⟨trivial, trivial⟩

theorem alike_floatOp (ht : Twin L h1 h2) (hop : IsNumeric op) (x y : Number.Double) :
    Matched L h1 h2 Alive (floatOp op x y) := by
  cases op with
  | equal | notEqual | and | or => exact hop.elim
  | add | subtract | multiply | divide | modulus | less | lessEqual | greater | greaterEqual =>
    exact .pure ht ⟨trivial, trivial⟩

theorem alike_numberOp (ht : Twin L h1 h2) (hop : IsNumeric op) (v w : Value) (site : Location) :
    Matched L h1 h2 Alive (numberOp op v w site) := by
  unfold numberOp
  match Quantity.of? v, Quantity.of? w with
  | some (.int a), some (.int b) => exact alike_integerOp ht hop ..
  | some (.int a), some (.float y) => exact alike_floatOp ht hop ..
  | some (.float x), some q => exact alike_floatOp ht hop ..
  | some (.int a), none => exact alike_failure ht _ _
  | some (.float x), none => exact alike_failure ht _ _
  | none, _ => exact alike_failure ht _ _

section

variable (ht : Twin L h1 h2) (hv : Live h1.heap h2.heap v) (hw : Live h1.heap h2.heap w)

include ht hv hw

theorem alike_joined : Matched L h1 h2 Alive (joined v w) :=
  .inspect_bind ht (ht.heaps.display hv) fun _ _ =>
    .inspect_bind ht (ht.heaps.display hw) fun _ _ => alike_string ht _

theorem alike_plus (site : Location) : Matched L h1 h2 Alive (plus v w site) := by
  unfold plus
  split
  · exact alike_joined ht hv hw
  · exact alike_joined ht hv hw
  · refine .inspect_bind ht (ht.heaps.elements hv) fun es hes => ?_
    refine .inspect_bind ht (ht.heaps.elements hw) fun fs hfs => alike_newArray ht fun u hu => ?_
    exact (Array.mem_append.mp hu).elim (hes.1 u) (hfs.1 u)
  · exact alike_numberOp ht (show IsNumeric .add from trivial) ..

theorem alike_times (site : Location) : Matched L h1 h2 Alive (times v w site) := by
  unfold times
  split
  · exact .inspect_bind ht (ht.heaps.text hv) fun _ _ => alike_repeated ht ..
  · exact .inspect_bind ht (ht.heaps.text hw) fun _ _ => alike_repeated ht ..
  · exact alike_numberOp ht (show IsNumeric .multiply from trivial) ..

end

theorem alike_ranked (ht : Twin L h1 h2) (hop : IsNumeric op) (hv : Live h1.heap h2.heap v)
    (hw : Live h1.heap h2.heap w) (site : Location) :
    Matched L h1 h2 Alive (ranked op v w site) := by
  unfold ranked
  split
  · exact .inspect_bind ht (ht.heaps.text? hv) fun _ _ =>
      .inspect_bind ht (ht.heaps.text? hw) fun _ _ => .pure ht ⟨trivial, trivial⟩
  · exact alike_numberOp ht hop ..

section

variable (ht : Twin L h1 h2) (op : Operator) (hv : Live h1.heap h2.heap v)
  (hw : Live h1.heap h2.heap w) (site : Location)

include ht hv hw

theorem alike_apply : Matched L h1 h2 Alive (apply op v w site) := by
  have htruth : Matched L h1 h2 Alive
      (do return .bool (← Host.inspect fun heap => truthy heap w) : Act Value) :=
    .inspect_bind ht (reads_truthy ht.heaps hw) fun _ _ => .pure ht ⟨trivial, trivial⟩
  unfold apply
  split
  · exact .inspect_bind ht (reads_equal ht.heaps hv hw) fun _ _ => .pure ht ⟨trivial, trivial⟩
  · exact .inspect_bind ht (reads_equal ht.heaps hv hw) fun _ _ => .pure ht ⟨trivial, trivial⟩
  · refine .inspect_bind ht (reads_truthy ht.heaps hv) fun b _ => ?_
    cases b with
    | true => exact htruth
    | false => exact .pure ht ⟨trivial, trivial⟩
  · refine .inspect_bind ht (reads_truthy ht.heaps hv) fun b _ => ?_
    cases b with
    | true => exact .pure ht ⟨trivial, trivial⟩
    | false => exact htruth
  · exact alike_plus ht hv hw site
  · exact alike_times ht hv hw site
  · have hop : IsNumeric op := by cases op <;> trivial
    split
    · exact alike_ranked ht hop hv hw site
    · exact alike_numberOp ht hop ..

theorem alike_operate : Matched L h1 h2 Alive (operate op v w site) :=
  .withFrame _ ht fun ht _ => alike_apply ht op hv hw site

end

/-! ## Containers -/

theorem alike_dictKey (ht : Twin L h1 h2) {key : Value} (hkey : Live h1.heap h2.heap key)
    (site : Location) :
    Matched L h1 h2 (Keeping h1 h2) (dictKey key site) := by
  unfold dictKey
  split
  · exact .pure ht fun _ hw => hw
  · exact .inspect ht (ht.heaps.text hkey) fun _ _ _ hw => hw
  · exact alike_failure ht _ _

theorem reads_anyEqual (ht : Heap.Twin L k1 k2) (hitem : Live k1 k2 item)
    (hvs : ∀ v ∈ vs, Live k1 k2 v) :
    Reads (anyEqual k1 item vs) (anyEqual k2 item vs) fun _ => True := by
  induction vs with
  | nil => exact .pure trivial
  | cons v rest ih =>
    refine (reads_equal ht (hvs v (.head _)) hitem).bind fun b _ => ?_
    cases b with
    | true => exact .pure trivial
    | false => exact ih fun w hw => hvs w (.tail _ hw)

theorem alike_contains (ht : Twin L h1 h2) (hcont : Live h1.heap h2.heap container)
    (hitem : Live h1.heap h2.heap item) (site : Location) :
    Matched L h1 h2 Alive (contains container item site) := by
  unfold contains
  split
  · refine .inspect_bind ht (ht.heaps.text? hcont) fun hay _ => ?_
    refine .inspect_bind ht (ht.heaps.text? hitem) fun needle _ => ?_
    cases hay <;> cases needle <;>
      first | exact .pure ht ⟨trivial, trivial⟩ | exact alike_failure ht _ _
  · refine .inspect_bind ht (ht.heaps.elements hcont) fun es hes => ?_
    refine .inspect_bind ht (reads_anyEqual ht.heaps hitem fun v hv => hes.1 v (by simpa using hv))
      fun _ _ => .pure ht ⟨trivial, trivial⟩
  · refine (alike_dictKey ht hitem site).bind fun key g1 g2 hg hkeep => ?_
    exact .inspect_bind hg.twin (hg.twin.heaps.dictAt (hkeep _ hcont)) fun _ _ =>
      .pure hg.twin ⟨trivial, trivial⟩
  · exact alike_failure ht _ _

theorem alike_position (ht : Twin L h1 h2) (index : Value) (length : Nat) (site : Location) :
    Matched L h1 h2 (fun i k1 k2 => i < length ∧ k1 = h1.heap ∧ k2 = h2.heap)
      (position index length site) := by
  unfold position
  split
  · split
    · rename_i hrange
      exact .pure ht ⟨by omega, rfl, rfl⟩
    · exact alike_failure ht _ _
  · exact alike_failure ht _ _

theorem alike_elementOf (ht : Twin L h1 h2) {elements : Array α}
    (hQ : ∀ a ∈ elements, Q a h1.heap h2.heap) {i : Nat} (hi : i < elements.size) :
    Matched L h1 h2 Q (elementOf elements i) := by
  unfold elementOf
  rw [Array.getElem?_eq_getElem hi]
  exact .pure ht (hQ _ (Array.getElem_mem hi))

theorem mem_of_lookup {chain : Chain} (hv : List.lookup key chain = some v) :
    ∃ k, (k, v) ∈ chain := by
  induction chain with
  | nil => cases hv
  | cons e rest ih =>
    rw [List.lookup_cons] at hv
    split at hv
    · cases hv
      exact ⟨e.1, .head _⟩
    · obtain ⟨k, hk⟩ := ih hv
      exact ⟨k, .tail _ hk⟩

theorem mem_values_of_get? (hv : d.get? key = some v) : v ∈ d.values := by
  obtain ⟨chain, hchain, hlookup⟩ := Option.bind_eq_some_iff.mp hv
  obtain ⟨k, hk⟩ := mem_of_lookup hlookup
  simp only [Dict.values, Dict.entries, List.mem_map, List.mem_flatten, Array.mem_toList_iff]
  exact ⟨(k, v), ⟨chain, Array.mem_of_getElem? hchain, hk⟩, rfl⟩

theorem alike_indexGet (ht : Twin L h1 h2) (hcont : Live h1.heap h2.heap container)
    (hidx : Live h1.heap h2.heap index) (site : Location) :
    Matched L h1 h2 Alive (indexGet container index site) := by
  unfold indexGet
  split
  · refine .inspect_bind ht (ht.heaps.arrayAt hcont) fun o ho => ?_
    obtain ⟨-, -, ho, -⟩ := ho
    refine (alike_position ht index o.len site).bind fun i g1 g2 hg hi => ?_
    obtain ⟨hi, heq1, heq2⟩ := hi
    rw [← heq1, ← heq2] at hcont
    rw [← heq1] at ho
    exact .inspect_bind hg.twin (hg.twin.heaps.elements hcont) fun es hes =>
      alike_elementOf hg.twin hes.1 ((hes.2 o ho).symm ▸ hi)
  · refine .inspect_bind ht (ht.heaps.text hcont) fun text _ => ?_
    refine (alike_position ht index _ site).bind fun i g1 g2 hg hi => ?_
    exact (alike_elementOf (Q := Any) hg.twin (fun _ _ => trivial) hi.1).bind fun c k1 k2 hk _ =>
      alike_string hk.twin _
  · refine (alike_dictKey ht hidx site).bind fun key g1 g2 hg hkeep => ?_
    refine .inspect_bind hg.twin (hg.twin.heaps.dictAt (hkeep _ hcont)) fun d hd => ?_
    cases hv : d.get? key with
    | some v => exact .pure hg.twin (hd.1 v (mem_values_of_get? hv))
    | none => exact alike_failure hg.twin _ _
  · exact alike_failure ht _ _

theorem alike_indexSet (ht : Twin L h1 h2) (hcont : Live h1.heap h2.heap container)
    (hidx : Live h1.heap h2.heap index) (hv : Live h1.heap h2.heap v) (site : Location) :
    Matched L h1 h2 Any (indexSet container index v site) := by
  unfold indexSet
  split
  · refine .inspect_bind ht (ht.heaps.arrayAt hcont) fun o ho => ?_
    obtain ⟨hfits, -, ho, -⟩ := ho
    refine (alike_position ht index o.len site).bind fun i g1 g2 hg hi => ?_
    obtain ⟨hi, heq1, heq2⟩ := hi
    rw [← heq1, ← heq2] at hcont hv
    rw [← heq1] at ho
    refine (alike_storeElement hg.twin hcont hv fun o' ho' => ?_).mono fun _ _ _ _ => trivial
    cases ho.symm.trans ho'
    exact Nat.lt_of_lt_of_le hi hfits.1
  · refine (alike_dictKey ht hidx site).bind fun key g1 g2 hg hkeep => ?_
    exact (alike_setEntry hg.twin key (hkeep _ hcont) (hkeep _ hv)).mono fun _ _ _ _ => trivial
  · exact alike_failure ht _ _

theorem alike_sliceBound (ht : Twin L h1 h2) (v : Value) (site : Location) :
    Matched L h1 h2 (Keeping h1 h2) (sliceBound v site) := by
  unfold sliceBound
  split
  · exact .pure ht fun _ hw => hw
  · exact .pure ht fun _ hw => hw
  · exact alike_failure ht _ _

theorem mem_of_mem_sliceOf {elements : Array α} {start stop : Option Int} {a : α}
    (ha : a ∈ sliceOf elements start stop) : a ∈ elements := by
  unfold sliceOf at ha
  obtain ⟨i, hi⟩ := Array.mem_iff_getElem?.mp ha
  rw [Array.getElem?_extract] at hi
  split at hi
  · exact Array.mem_of_getElem? hi
  · cases hi

section

variable (ht : Twin L h1 h2)

include ht

theorem alike_slice (hcont : Live h1.heap h2.heap container)
    (start stop : Value) (site : Location) :
    Matched L h1 h2 Alive (slice container start stop site) := by
  refine (alike_sliceBound ht start site).bind fun low g1 g2 hg hkeep => ?_
  refine (alike_sliceBound hg.twin stop site).bind fun high k1 k2 hk hkeep' => ?_
  have hlv := hkeep' _ (hkeep _ hcont)
  refine .withFrame _ hk.twin fun ht _ => ?_
  split
  · exact .inspect_bind ht (ht.heaps.text hlv) fun _ _ => alike_string ht _
  · exact .inspect_bind ht (ht.heaps.elements hlv) fun es hes =>
      alike_newArray ht fun v hv => hes.1 v (mem_of_mem_sliceOf hv)
  · exact alike_failure ht _ _

theorem alike_length (hv : Live h1.heap h2.heap v) (site : Location) :
    Matched L h1 h2 Any (length v site) := by
  unfold length
  split
  · exact .inspect_bind ht (ht.heaps.text hv) fun _ _ => .pure ht trivial
  · exact .inspect_bind ht (ht.heaps.arrayAt hv) fun _ _ => .pure ht trivial
  · exact .inspect_bind ht (ht.heaps.dictAt hv) fun _ _ => .pure ht trivial
  · exact alike_failure ht _ _

theorem alike_filled (ha : Live h1.heap h2.heap (.array a))
    (hanch : h1.Anchored (.array a)) (texts : List String) :
    Matched L h1 h2 Alive (do pushStrings a texts; return .array a : Act Value) :=
  (alike_pushStrings ht ha hanch texts).bind fun _ _ _ hg _ =>
    .pure hg.twin (hg.live _ hanch ha)

theorem alike_emptyArray :
    Matched L h1 h2 (fun a k1 k2 => Live k1 k2 (.array a)) (allocateArray #[]) :=
  alike_allocateArray ht fun v hv => absurd hv (Array.not_mem_empty v)

theorem alike_dictKeys (hv : Live h1.heap h2.heap v) (site : Location) :
    Matched L h1 h2 Alive (dictKeys v site) := by
  unfold dictKeys
  split
  · refine .inspect_bind ht (ht.heaps.dictAt hv) fun d _ => .withFrame _ ht fun ht _ => ?_
    refine (alike_emptyArray ht).bind fun a g1 g2 hg ha => .withFrame _ hg.twin fun ht hanch => ?_
    exact alike_filled ht ha (hanch _ (by simp)) d.keys
  · exact alike_failure ht _ _

theorem alike_toInt (v : Value) (site : Location) : Matched L h1 h2 Any (toInt v site) := by
  unfold toInt
  match Quantity.of? v with
  | some (.int n) => exact .pure ht trivial
  | some (.float x) => exact .pure ht trivial
  | none => exact alike_failure ht _ _

theorem alike_toFloat (v : Value) (site : Location) : Matched L h1 h2 Any (toFloat v site) := by
  unfold toFloat
  match Quantity.of? v with
  | some q => exact .pure ht trivial
  | none => exact alike_failure ht _ _

/-! ## Classes and instances -/

theorem alike_newClass (name : String) : Matched L h1 h2 Alive (newClass name) := by
  have hempty : ∀ k : Heap, Object.LiveIn L k (.cls { name }) := fun k =>
    ⟨fun f hf => (nomatch hf), fun m hm => (nomatch hm)⟩
  refine (Alike.allocate ht (fun _ _ _ _ _ => ⟨hempty _, hempty _⟩) (by simp [Object.kind])
    (Nat.succ_pos 47)).bind fun a g1 g2 hg ha => .pure hg.twin ?_
  exact live_of_get? ha.1 ha.2.1 fun _ hk => hk

end

section

variable (ht : Twin L h1 h2) (hv : Live h1.heap h2.heap v)

include ht hv

theorem alike_changeClass {f : ClassObject → ClassObject}
    (hf : ∀ (c : ClassObject) (k : Heap), Object.LiveIn L k (.cls c) →
      Object.LiveIn L k (.cls (f c))) :
    Matched L h1 h2 Any (changeClass v f) := by
  unfold changeClass
  cases ha : v.address? with
  | none => exact .pure ht trivial
  | some a =>
    have hkind : ∃ k, h1.heap.kindAt a = some k ∧ h2.heap.kindAt a = some k := by
      cases v <;> simp [Value.address?] at ha <;> subst ha <;> exact ⟨_, hv.1, hv.2⟩
    obtain ⟨k, hk1, hk2⟩ := hkind
    refine .inspect_bind ht (ht.heaps.object hk1 hk2) fun o ho => ?_
    obtain ⟨-, hl1, hl2, ho1, ho2⟩ := ho
    refine (Alike.change ht ho1 ho2 ?_ ?_ ?_).mono fun _ _ _ _ => trivial
    · cases o <;> exact ⟨rfl, fun i hi => by simp_all⟩
    · cases o <;> first | exact hf _ _ hl1 | exact hl1
    · cases o <;> first | exact hf _ _ hl2 | exact hl2

theorem alike_addField {field : Field}
    (hfield : L.field field) : Matched L h1 h2 Any (addField v field) := by
  refine alike_changeClass ht hv fun c k hc => ⟨fun f hf => ?_, hc.2⟩
  rcases List.mem_append.mp hf with hf | hf
  · exact hc.1 f hf
  · exact List.mem_singleton.mp hf ▸ hfield

theorem alike_addMethod {method : Method} (hmeth : L.method method) :
    Matched L h1 h2 Any (addMethod v method) := by
  refine alike_changeClass ht hv fun c k hc => ⟨hc.1, fun m hm => ?_⟩
  rcases List.mem_append.mp hm with hm | hm
  · exact hc.2 m hm
  · exact List.mem_singleton.mp hm ▸ hmeth

end

section

variable (ht : Twin L h1 h2) (htgt : Live h1.heap h2.heap target)

include ht htgt

theorem alike_receiver (name : String) (site : Location) :
    Matched L h1 h2 (fun (p : InstanceObject × ClassObject) k1 k2 =>
        Live k1 k2 (.dict p.1.fields) ∧ (∀ m ∈ p.2.methods, L.method m) ∧ Keeping h1 h2 p k1 k2)
      (receiver target name site) := by
  unfold receiver
  split
  · refine .inspect_bind ht (ht.heaps.instanceAt htgt) fun i hi => ?_
    exact .inspect_bind ht (ht.heaps.classAt hi.1) fun c hc =>
      .pure ht ⟨hi.2.1, hc.2, fun _ hw => hw⟩
  · exact alike_failure ht _ _

theorem alike_memberGet (name : String) (inside : Bool) (site : Location) :
    Matched L h1 h2 Alive (memberGet target name inside site) := by
  refine (alike_receiver ht htgt name site).bind fun p g1 g2 hg hp => ?_
  obtain ⟨i, c⟩ := p
  simp only
  match c.field? name, c.method? name with
  | some f, _ =>
    simp only
    split
    · exact alike_failure hg.twin _ _
    · refine .inspect_bind hg.twin (hg.twin.heaps.dictAt hp.1) fun d hd => .pure hg.twin ?_
      cases hv : d.get? name with
      | none => exact ⟨trivial, trivial⟩
      | some v => exact hd.1 v (mem_values_of_get? hv)
  | none, some _ => exact alike_failure hg.twin _ _
  | none, none => exact alike_failure hg.twin _ _

theorem alike_memberSet
    (hv : Live h1.heap h2.heap v) (name : String) (inside : Bool) (site : Location) :
    Matched L h1 h2 Any (memberSet target name v inside site) := by
  refine (alike_receiver ht htgt name site).bind fun p g1 g2 hg hp => ?_
  obtain ⟨i, c⟩ := p
  simp only
  match c.field? name with
  | none => exact alike_failure hg.twin _ _
  | some f =>
    simp only
    split
    · exact alike_failure hg.twin _ _
    · exact (alike_setEntry hg.twin name hp.1 (hp.2.2 v hv)).mono fun _ _ _ _ => trivial

theorem alike_methodFor (name : String) (supplied : Nat) (inside : Bool) (site : Location) :
    Matched L h1 h2 (fun m k1 k2 => L.method m ∧ m.arity = supplied ∧ Keeping h1 h2 m k1 k2)
      (methodFor target name supplied inside site) := by
  refine (alike_receiver ht htgt name site).bind fun p g1 g2 hg hp => ?_
  obtain ⟨i, c⟩ := p
  simp only
  cases hm : c.method? name with
  | none => exact alike_failure hg.twin _ _
  | some m =>
    simp only
    split
    · exact alike_failure hg.twin _ _
    · split
      · exact alike_failure hg.twin _ _
      · next harity =>
        exact .pure hg.twin ⟨hp.2.1 m (List.mem_of_find?_eq_some hm), not_not.mp harity, hp.2.2⟩

end

theorem alike_assign (ht : Twin L h1 h2) (hflds : Live h1.heap h2.heap (.dict c.fields))
    (hv : Live h1.heap h2.heap v) (field : Field) :
    Matched L h1 h2 (Keeping h1 h2) (assign c field v) :=
  alike_setEntry ht field.name hflds hv

theorem alike_conclude (ht : Twin L h1 h2) (hcls : Live h1.heap h2.heap (.cls c.cls))
    (hrecv : Live h1.heap h2.heap c.receiver) :
    Matched L h1 h2 (fun m k1 k2 => (∀ x, m = some x → L.method x ∧ x.arity = c.arguments.length) ∧
        Keeping h1 h2 m k1 k2) (conclude c) := by
  refine .inspect_bind ht (ht.heaps.classAt hcls) fun cls _ => ?_
  match cls.method? initName with
  | some _ =>
    refine (alike_methodFor ht hrecv initName _ true c.site).map fun m k1 k2 hm => ⟨?_, hm.2.2⟩
    exact fun x hx => Option.some.inj hx ▸ ⟨hm.1, hm.2.1⟩
  | none =>
    simp only
    split
    · exact .pure ht ⟨fun _ hx => (nomatch hx), fun _ hw => hw⟩
    · exact alike_failure ht _ _

/-! ## The beginning of a construction -/

/-- The instance of a class and the dict of its fields, with the class itself. -/
def newInstance (a : Address) : Act (Address × Address × ClassObject) := do
  let fields ← allocateDict
  let i ← withFrame [.dict fields] (allocate (.inst { cls := a, fields }))
  let c ← inspect fun heap => heap.classAt a
  return (fields, i, c)

theorem pushValue_pushValues (s : Stack) (vs : List Value) (v : Value) :
    (s.pushValues vs).pushValue v = s.pushValues (vs ++ [v]) := by
  simp [Stack.pushValues, List.foldl_append]

theorem pure_apply (a : α) (h : Host) : (pure a : Act α) h = .ok a h := rfl
theorem restoring_apply (depth : Nat) (x : Act α) (h : Host) :
    restoring depth x h = match x h with
      | .ok a g => .ok a g
      | .error e g => .error e { g with stack := g.stack.truncate depth } := rfl

/-- A construction begins with a new instance, and leaves it and the arguments on the stack. -/
theorem begin_eq (ho : h.Orderly) (a : Nat) (arguments : List Value) (site : Location) :
    begin (.cls a) arguments site h = match withFrame arguments (newInstance a) h with
      | .ok (fields, i, c) g =>
        .ok { cls := a, fields, receiver := .inst i, arguments, site, depth := h.stack.depth,
              remaining := c.fields }
          (g.spilled (arguments ++ [.inst i]))
      | .error e g => .error e g := by
  unfold begin
  simp only
  rw [get_bind, restoring_apply, withFrame_eq,
    bind_ok (show onStack (fun s => s.pushValues arguments) h = .ok () (h.spilled arguments)
      from rfl)]
  have ho' : (h.spilled arguments).Orderly := ho.withStack _
  unfold newInstance
  cases hd : allocateDict (h.spilled arguments) with
  | error e g => rw [bind_error hd, bind_error hd]
  | ok fields g =>
    have hg := tame_allocateDict.leaves _ ho'
    rw [hd] at hg
    rw [bind_ok hd, bind_ok hd]
    cases hi : withFrame [.dict fields] (allocate (.inst { cls := a, fields })) g with
    | error e g' => rw [bind_error hi, bind_error hi]
    | ok i g' =>
      have hg' := (Mild.withFrame [.dict fields] (tame_allocateInst a fields)).leaves _ hg.1
      rw [hi] at hg'
      have hstk : g'.stack = h.stack.pushValues arguments := hg'.2.stack.trans hg.2.stack
      rw [bind_ok hi, bind_ok hi, bind_ok (show onStack (fun s => s.pushValue (.inst i)) g' =
        .ok () { g' with stack := g'.stack.pushValue (.inst i) } from rfl)]
      cases hc : g'.heap.classAt a with
      | error f =>
        rw [bind_error (inspect_error hc), bind_error (inspect_error hc)]
        simp only [hstk, pushValue_pushValues, truncate_pushValues_self]
      | ok c =>
        rw [bind_ok (inspect_ok hc), bind_ok (inspect_ok hc), pure_apply, pure_apply]
        simp only [hstk, pushValue_pushValues, truncate_pushValues_self, spilled]

/-- An instance in the making: it is there in both heaps, what it was given is alive, and the
initializers that are left are admitted. -/
structure Making (L : Linkage) (k1 k2 : Heap) (c : Construction) : Prop where
  made : ∃ i, c.receiver = .inst i ∧ k1.get? i = some (.inst ⟨c.cls, c.fields⟩) ∧
    k2.get? i = some (.inst ⟨c.cls, c.fields⟩)
  arguments : ∀ v ∈ c.arguments, Live k1 k2 v
  remaining : ∀ f ∈ c.remaining, L.field f

namespace Making

variable {k1 k2 : Heap} {c : Construction}

theorem receiver (hm : Making L k1 k2 c) : Live k1 k2 c.receiver := by
  obtain ⟨i, hi, hi1, hi2⟩ := hm.made
  rw [hi]
  exact live_of_get? hi1 hi2 fun _ hk => hk

theorem fields (hm : Making L k1 k2 c) (ht : Heap.Twin L k1 k2) : Live k1 k2 (.dict c.fields) := by
  obtain ⟨i, -, hi1, hi2⟩ := hm.made
  exact ⟨(ht.typed1.live i _ hi1).2, (ht.typed2.live i _ hi2).2⟩

theorem cls (hm : Making L k1 k2 c) (ht : Heap.Twin L k1 k2) : Live k1 k2 (.cls c.cls) := by
  obtain ⟨i, -, hi1, hi2⟩ := hm.made
  exact ⟨(ht.typed1.live i _ hi1).1, (ht.typed2.live i _ hi2).1⟩

theorem kept (hm : Making L h1.heap h2.heap c) (ht : Twin L h1 h2) (hg : Kept h1 h2 g1 g2)
    (hrecv : Live g1.heap g2.heap c.receiver)
    (hargs : ∀ v ∈ c.arguments, Live g1.heap g2.heap v) : Making L g1.heap g2.heap c := by
  obtain ⟨i, hi, hi1, hi2⟩ := hm.made
  rw [hi] at hrecv
  obtain ⟨o1, ho1, -⟩ := Heap.kindAt_eq_some_iff.mp hrecv.1
  obtain ⟨o2, ho2, -⟩ := Heap.kindAt_eq_some_iff.mp hrecv.2
  have heq1 := hg.grown1.inst_eq ht.orderly₁.wellFormed hi1 ho1
  have heq2 := hg.grown2.inst_eq ht.orderly₂.wellFormed hi2 ho2
  exact ⟨⟨i, hi, heq1 ▸ ho1, heq2 ▸ ho2⟩, hargs, hm.remaining⟩

end Making

section

variable (ht : Twin L h1 h2)

include ht

theorem alike_newInstance (ha : Live h1.heap h2.heap (.cls a)) :
    Matched L h1 h2 (fun p k1 k2 => (∀ f ∈ p.2.2.fields, L.field f) ∧
        k1.get? p.2.1 = some (.inst ⟨a, p.1⟩) ∧ k2.get? p.2.1 = some (.inst ⟨a, p.1⟩))
      (newInstance a) := by
  have hcls : ∀ h : Host, h.Anchored (.cls a) := fun _ => .inl rfl
  refine (alike_allocateDict ht).bind fun fields g1 g2 hg hflds => ?_
  refine (Alike.withFrame _ hg.twin fun ht' hanch =>
    Alike.allocate ht' ?_ ?_ ?_).bind fun i k1 k2 hk hi => ?_
  · intro k1 k2 hk _ _
    have hcls' := hk.live _ (hcls _) (hg.live _ (hcls _) ha)
    have hfields' := hk.live _ (hanch _ (.head _)) hflds
    exact ⟨⟨hcls'.1, hfields'.1⟩, ⟨hcls'.2, hfields'.2⟩⟩
  · simp [Object.kind]
  · exact Nat.succ_pos _
  · have hcls' : Live k1.heap k2.heap (.cls a) := hk.live _ (hcls _) (hg.live _ (hcls _) ha)
    refine .inspect_bind hk.twin (hk.twin.heaps.classAt hcls') fun c hc => ?_
    exact .pure hk.twin ⟨hc.1, hi.1, hi.2.1⟩

/-- A construction begins in the same way in both hosts, with the arguments and the instance left on
the stack; or it does not begin. -/
theorem alike_begin {cls : Value} {arguments : List Value}
    (hcls : Live h1.heap h2.heap cls) (hargs : ∀ v ∈ arguments, Live h1.heap h2.heap v)
    (site : Location) :
    (∃ c g1 g2, begin cls arguments site h1 = .ok c (g1.spilled (c.arguments ++ [c.receiver])) ∧
      begin cls arguments site h2 = .ok c (g2.spilled (c.arguments ++ [c.receiver])) ∧
      Onward L h1 h2 g1 g2 ∧ Making L g1.heap g2.heap c ∧ c.depth = h1.stack.depth ∧
      c.site = site) ∨
    Matched L h1 h2 (fun _ _ _ => False) (begin cls arguments site) := by
  cases cls with
  | cls a =>
    have hfr := Alike.withFrame arguments ht fun ht' hanch =>
      (alike_newInstance ht' hcls).bind (f := pure) (S := fun p k1 k2 =>
        ((∀ f ∈ p.2.2.fields, L.field f) ∧ k1.get? p.2.1 = some (.inst ⟨a, p.1⟩) ∧
          k2.get? p.2.1 = some (.inst ⟨a, p.1⟩)) ∧ ∀ v ∈ arguments, Live k1 k2 v)
        fun p g1 g2 hg hp => .pure hg.twin
          ⟨hp, fun v hv => hg.live v (hanch v hv) (hargs v hv)⟩
    rw [bind_pure] at hfr
    -- but for the values that stay spilled, an instance is made inside a frame
    rw [Matched, begin_eq ht.orderly₁, begin_eq ht.orderly₂, ht.stack]
    generalize withFrame arguments (newInstance a) h1 = r1 at hfr ⊢
    generalize withFrame arguments (newInstance a) h2 = r2 at hfr ⊢
    cases hfr with
    | @ok p g1 g2 onward post =>
      obtain ⟨fields, i, c⟩ := p
      obtain ⟨⟨hremaining, hi1, hi2⟩, hlv⟩ := post
      exact .inl ⟨_, g1, g2, rfl, rfl, onward, ⟨⟨i, rfl, hi1, hi2⟩, hlv, hremaining⟩, rfl, rfl⟩
    | raise twin raised kept => exact .inr (.raise twin raised kept)
    | fatal mirror ended => exact .inr (.fatal mirror ended)
    | overflow console => exact .inr (.overflow console)
    | left out =>
      obtain ⟨requested, live, limit, g, rfl, hg⟩ := out
      exact .inr (.left ⟨requested, live, limit, g, rfl, hg⟩)
    | right out =>
      obtain ⟨requested, live, limit, g, rfl, hg⟩ := out
      exact .inr (.right ⟨requested, live, limit, g, rfl, hg⟩)
  | _ => exact .inr (alike_failure ht site _)

/-! ## Builtins -/

theorem Onward.console (console : Console) :
    Onward L h1 h2 { h1 with console } { h2 with console } :=
  ⟨⟨fun _ _ hv => hv, .refl _, .refl _⟩,
    ⟨⟨⟨ht.orderly₁.wellFormed, ht.orderly₁.unmarked, ht.orderly₁.idle, ht.orderly₁.slots⟩,
      ⟨ht.orderly₂.wellFormed, ht.orderly₂.unmarked, ht.orderly₂.idle, ht.orderly₂.slots⟩, ht.heaps,
      ht.memoryLimit, ht.dictBuckets, ht.slots, ht.roots, ht.stack, ht.checkpoints, ht.exception,
      ht.arguments, rfl, ht.caught⟩, ht.bottom, ht.bottoms⟩, .console _ _, .console _ _⟩

theorem alike_printLine (text : String) : Matched L h1 h2 Any (printLine text) := by
  unfold Matched printLine
  rw [ht.console]
  split
  · exact .ok (.console ht _) trivial
  · refine .fatal (Onward.console ht _).twin.toMirror ⟨.console _ _, ?_, nofun⟩
    exact fun _ _ heq => nomatch heq

theorem alike_readLine : Matched L h1 h2 Any readLine := by
  unfold Matched readLine
  rw [ht.console]
  split
  · exact .ok (.console ht _) trivial
  · exact .ok (.console ht _) trivial
  · refine .fatal (Onward.console ht _).twin.toMirror ⟨.console _ _, ?_, nofun⟩
    exact fun _ _ heq => nomatch heq

theorem alike_displays (hlv : ∀ v ∈ vs, Live h1.heap h2.heap v) :
    Matched L h1 h2 Any (vs.mapM display) := by
  induction vs with
  | nil => exact .pure ht trivial
  | cons v rest ih =>
    rw [List.mapM_cons]
    refine .inspect_bind ht (ht.heaps.display (hlv v (.head _))) fun _ _ => ?_
    exact (ih fun w hw => hlv w (.tail _ hw)).bind fun _ _ _ hg _ =>
      .pure hg.twin trivial

theorem alike_print (hlv : ∀ v ∈ vs, Live h1.heap h2.heap v) : Matched L h1 h2 Alive (print vs) :=
  (alike_displays ht hlv).bind fun _ _ _ hg _ =>
    (alike_printLine hg.twin _).bind fun _ _ _ hk _ => .pure hk.twin ⟨trivial, trivial⟩

theorem alike_intOf (hv : Live h1.heap h2.heap v) (site : Location) :
    Matched L h1 h2 Alive (intOf v site) := by
  refine .inspect_bind ht (ht.heaps.text? hv) fun text _ => ?_
  cases text with
  | none => exact (alike_toInt ht v site).bind fun _ _ _ hg _ => .pure hg.twin ⟨trivial, trivial⟩
  | some s =>
    simp only
    match readInteger (Text.trim s.toList) with
    | some n => exact .pure ht ⟨trivial, trivial⟩
    | none => exact alike_failure ht _ _

theorem alike_floatOf (hv : Live h1.heap h2.heap v) (site : Location) :
    Matched L h1 h2 Alive (floatOf v site) := by
  refine .inspect_bind ht (ht.heaps.text? hv) fun text _ => ?_
  cases text with
  | none => exact (alike_toFloat ht v site).bind fun _ _ _ hg _ => .pure hg.twin ⟨trivial, trivial⟩
  | some s =>
    simp only
    match Number.readDouble (Text.trim s.toList) with
    | some x => exact .pure ht ⟨trivial, trivial⟩
    | none => exact alike_failure ht _ _

theorem alike_strOf (hv : Live h1.heap h2.heap v) : Matched L h1 h2 Alive (strOf v) := by
  unfold strOf
  split
  · exact .pure ht hv
  · exact .inspect_bind ht (ht.heaps.display hv) fun _ _ => alike_string ht _

theorem alike_append {array : Value} (harr : Live h1.heap h2.heap array)
    (hv : Live h1.heap h2.heap v) (site : Location) :
    Matched L h1 h2 Alive (append array v site) := by
  unfold append
  split
  · exact (alike_pushElement ht harr hv).bind fun _ _ _ hg _ => .pure hg.twin ⟨trivial, trivial⟩
  · exact alike_failure ht _ _

theorem alike_hasKey {dict key : Value} (hdict : Live h1.heap h2.heap dict)
    (hkey : Live h1.heap h2.heap key) (site : Location) :
    Matched L h1 h2 Alive (hasKey dict key site) := by
  unfold hasKey
  split
  · refine (alike_dictKey ht hkey site).bind fun _ g1 g2 hg hkeep => ?_
    exact .inspect_bind hg.twin (hg.twin.heaps.dictAt (hkeep _ hdict)) fun _ _ =>
      .pure hg.twin ⟨trivial, trivial⟩
  · exact alike_failure ht _ _

theorem alike_input : Matched L h1 h2 Alive input := by
  refine (alike_readLine ht).bind fun line g1 g2 hg _ => ?_
  cases line with
  | none => exact .pure hg.twin ⟨trivial, trivial⟩
  | some s => exact alike_string hg.twin s

theorem alike_programArguments : Matched L h1 h2 Alive programArguments := by
  refine (alike_emptyArray ht).bind fun a g1 g2 hg ha => .withFrame _ hg.twin fun ht hanch => ?_
  rw [get_bind,
    get_bind, ht.arguments]
  exact alike_filled ht ha (hanch _ (by simp)) _

theorem alike_builtin (b : Ir.Builtin)
    (hlv : ∀ v ∈ vs, Live h1.heap h2.heap v) (site : Location) :
    Matched L h1 h2 Alive (builtin b vs site) := by
  unfold builtin
  split
  case h_1 => exact alike_print ht hlv
  case h_2 v =>
    exact (alike_length ht (hlv v (by simp)) site).bind fun _ _ _ hg _ =>
      .pure hg.twin ⟨trivial, trivial⟩
  case h_3 v => exact alike_strOf ht (hlv v (by simp))
  case h_4 v => exact alike_intOf ht (hlv v (by simp)) site
  case h_5 v => exact alike_floatOf ht (hlv v (by simp)) site
  case h_6 v => exact alike_string ht _
  case h_7 v => exact alike_dictKeys ht (hlv v (by simp)) site
  case h_8 array v => exact alike_append ht (hlv array (by simp)) (hlv v (by simp)) site
  case h_9 dict key => exact alike_hasKey ht (hlv dict (by simp)) (hlv key (by simp)) site
  case h_10 => exact alike_input ht
  case h_11 => exact alike_programArguments ht
  case h_12 => exact alike_failure ht _ _

end

end Ember.Host
