import Ember.Proofs.Heap.Dict
import Ember.Proofs.Host.Arrays

/-!
# Ember — the keys of a dict as an array

A new array is filled with a string for each key. Every string and every larger buffer may cause a
collection; the array is on the machine stack, so it is kept with its buffer and the strings in it,
and each new string is spilled before the array grows.

Main result: `dicts_are_finite_maps`.
-/

namespace Ember

open Host (storage)

variable {k' : Heap} {v : Value}

/-! ## Arrays of strings -/

namespace Heap

variable {k : Heap} {a b : Nat} {o : ArrayObject} {buf : Buffer} {keys : List String}

/-- A string value of a text. -/
def Spells (k : Heap) (v : Value) (text : String) : Prop :=
  ∃ c, v = .str c ∧ k.get? c = some (.str text)

theorem Spells.text? {text : String} (hv : k.Spells v text) : k.text? v = .ok (some text) := by
  obtain ⟨c, rfl, hget⟩ := hv
  simp only [Heap.text?, Heap.object, hget]
  rfl

theorem Spells.text {text : String} (hv : k.Spells v text) : k.text v = .ok text := by
  unfold Heap.text
  rw [hv.text?]
  rfl

/-- An array with its buffer, which holds strings of given texts. -/
structure Lists (k : Heap) (a : Nat) (o : ArrayObject) (b : Nat) (buf : Buffer)
    (keys : List String) : Prop where
  array : k.get? a = some (.array o)
  backed : o.Backed k a b buf
  spelled : List.Forall₂ k.Spells (buf.elements.extract 0 o.len).toList keys

theorem Lists.spells (hl : k.Lists a o b buf keys)
    (hsame : ∀ c s, k.get? c = some (.str s) → .str c ∈ buf.elements → k'.get? c = k.get? c) :
    List.Forall₂ k'.Spells (buf.elements.extract 0 o.len).toList keys := by
  have hmem : ∀ v ∈ (buf.elements.extract 0 o.len).toList, v ∈ buf.elements := fun v hv =>
    Host.mem_of_mem_take (Array.mem_toList_iff.mp hv)
  have hspelled := hl.spelled
  clear hl
  generalize (buf.elements.extract 0 o.len).toList = values at hmem hspelled
  induction hspelled with
  | nil => exact .nil
  | cons hv _ ih =>
    obtain ⟨c, rfl, hc⟩ := hv
    refine .cons ⟨c, rfl, (hsame c _ hc (hmem _ (.head _))).trans hc⟩ ?_
    exact ih fun v hv => hmem v (.tail _ hv)

theorem Lists.congr (hl : k.Lists a o b buf keys) (ha : k'.get? a = k.get? a)
    (hb : k'.get? b = k.get? b)
    (hsame : ∀ c s, k.get? c = some (.str s) → .str c ∈ buf.elements → k'.get? c = k.get? c) :
    k'.Lists a o b buf keys :=
  ⟨ha.trans hl.array, hl.backed.congr hb, hl.spells hsame⟩

theorem get?_place_of_some (hw : k.WellFormed) (c : Cell) {p : Object} (hget : k.get? a = some p) :
    (k.place c).get? a = some p := by
  rw [get?_place, if_neg (Nat.ne_of_lt (lt_nextAddress hw hget)).symm, hget]

theorem Lists.place (hl : k.Lists a o b buf keys) (hw : k.WellFormed) (c : Cell) :
    (k.place c).Lists a o b buf keys := by
  refine hl.congr ?_ ?_ fun x s hx _ => ?_
  · rw [get?_place_of_some hw c hl.array, hl.array]
  · rw [get?_place_of_some hw c hl.backed.object, hl.backed.object]
  · rw [get?_place_of_some hw c hx, hx]

theorem Lists.withBuffer (hl : k.Lists a o b buf keys) (hw : k.WellFormed) {capacity : Nat}
    (hcap : max 4 o.len ≤ capacity) :
    (k.withBuffer a (buf.elements.extract 0 o.len) capacity).Lists a
      { o with buffer := some k.nextAddress, capacity } k.nextAddress
      { owner := a, elements := storage (buf.elements.extract 0 o.len) capacity } keys := by
  have hget := get?_withBuffer hw hl.array (buf.elements.extract 0 o.len) capacity
  have hsize := hl.backed.size_extract
  refine ⟨(hget a).trans (if_pos rfl), backed_withBuffer hw hl.array hsize hcap, ?_⟩
  have hextract : (storage (buf.elements.extract 0 o.len) capacity).extract 0 o.len =
      buf.elements.extract 0 o.len := by
    have hself := extract_storage (buf.elements.extract 0 o.len) capacity
    rwa [hsize] at hself
  show List.Forall₂ _ ((storage (buf.elements.extract 0 o.len) capacity).extract 0 o.len).toList _
  rw [hextract]
  refine hl.spells fun c s hc _ => ?_
  rw [hget, if_neg, if_neg (Nat.ne_of_lt (lt_nextAddress hw hc))]
  rintro rfl
  cases hl.array.symm.trans hc

theorem Lists.extended (hl : k.Lists a o b buf keys) (hroom : o.len < o.capacity) {text : String}
    (hv : k.Spells v text) :
    (k.extended a b o.len v).Lists a { o with len := o.len + 1 } b
      { buf with elements := buf.elements.setIfInBounds o.len v } (keys ++ [text]) := by
  have hget := get?_extended hl.array hl.backed.object o.len v
  have hstr : ∀ c s, k.get? c = some (.str s) → (k.extended a b o.len v).get? c = k.get? c := by
    intro c s hc
    rw [hget, if_neg, if_neg]
    · rintro rfl
      cases hl.backed.object.symm.trans hc
    · rintro rfl
      cases hl.array.symm.trans hc
  refine ⟨(hget a).trans (if_pos rfl), backed_extended hl.array hl.backed hroom v, ?_⟩
  show List.Forall₂ _ ((buf.elements.setIfInBounds o.len v).extract 0 (o.len + 1)).toList _
  rw [extract_push (by rw [hl.backed.size]; exact hroom), Array.toList_push]
  refine List.rel_append (hl.spells fun c s hc _ => hstr c s hc) ?_
  obtain ⟨c, rfl, hc⟩ := hv
  exact .cons ⟨c, rfl, (hstr c text hc).trans hc⟩ .nil

end Heap

namespace Host

variable {h g : Host} {a b : Nat} {o : ArrayObject} {buf : Buffer} {keys : List String}

theorem retained_of_anchored_array (hw : h.Whole) (hget : h.heap.get? a = some (.array o))
    (hanch : h.Anchored (.array a)) : h.Retained a :=
  retained_of_anchored hw.1 hw.2.laid.pinned (fun b c hc => (hw.2.laid.sized b c hc).2)
    (v := .array a) (Heap.kindAt_of_get? hget) hanch rfl

theorem lists_collects (hw : h.Whole) (hl : h.heap.Lists a o b buf keys)
    (hanch : h.Anchored (.array a)) (hc : Collects h g) : g.heap.Lists a o b buf keys := by
  have ha := retained_of_anchored_array hw hl.array hanch
  have hb : h.Retained b :=
    ha.follow hw.2.laid hl.array (by simp [Object.references, hl.backed.buffer]) hl.backed.object
  refine hl.congr (hc.get?_eq hw.1 ha) (hc.get?_eq hw.1 hb) fun c s hget hmem => ?_
  refine hc.get?_eq hw.1 (hb.follow hw.2.laid hl.backed.object ?_ hget)
  refine .tail _ (List.mem_filterMap.mpr ⟨.str c, ?_, rfl⟩)
  exact Array.mem_toList_iff.mpr hmem

theorem lists_pushElement (hw : h.Whole) (hbot : h.stack.bottom ≤ h.stack.depth)
    (hl : h.heap.Lists a o b buf keys) {text : String} (hv : h.heap.Spells v text)
    (hr : pushElement a v h = .ok () g) : ∃ o b buf, g.heap.Lists a o b buf (keys ++ [text]) := by
  have hcases := pushElement_cases hw hl.array hl.backed v
  rw [hr] at hcases
  cases hcases with
  | stored hroom => exact ⟨_, _, _, hl.extended hroom hv⟩
  | grown hc alive full =>
    have hw' := hw.spilled [.array a, v]
    have hwell := (hc.orderly hw'.1).wellFormed
    have hlm := lists_collects hw' hl (anchored_spilled hbot (by simp)) hc
    obtain ⟨c, rfl, hget⟩ := hv
    -- the new string is in no object yet, but it is spilled
    have hretained : (h.spilled [.array a, .str c]).Retained c :=
      retained_spilled hw hbot (v := .str c) (by simp) (Heap.kindAt_of_get? hget) rfl
    have hstr := (hc.get?_eq hw'.1 hretained).trans hget
    refine ⟨_, _, _, (hlm.withBuffer hwell (max_le_grownCapacity hl.backed)).extended
      (lt_grownCapacity hl.backed) ⟨c, rfl, ?_⟩⟩
    rw [Heap.get?_withBuffer hwell alive, if_neg, if_neg (Nat.ne_of_lt (Heap.lt_nextAddress hwell hstr)),
      hstr]
    rintro rfl
    cases alive.symm.trans hstr

theorem lists_string (hw : h.Whole) (hl : h.heap.Lists a o b buf keys)
    (hanch : h.Anchored (.array a)) {text : String} (hr : string text h = .ok v g) :
    g.heap.Lists a o b buf keys ∧ g.heap.Spells v text := by
  unfold string at hr
  have hcases := allocate_cases hw.1 (.str text) false
  generalize halloc : allocate (.str text) false h = r at hcases
  cases hcases with
  | ok hc =>
    have hwell := (hc.orderly hw.1).wellFormed
    rw [bind_ok halloc] at hr
    obtain ⟨rfl, rfl⟩ := EStateM.Result.ok.inj hr
    exact ⟨(lists_collects hw hl hanch hc).place hwell _, _, rfl,
      (Heap.get?_place ..).trans (if_pos rfl)⟩
  | fatal | fault =>
    rw [bind_error halloc] at hr
    cases hr

theorem lists_pushStrings (hw : h.Whole) (hbot : h.stack.bottom ≤ h.stack.depth)
    (hanch : h.Anchored (.array a)) (hl : h.heap.Lists a o b buf keys) (texts : List String)
    (hr : pushStrings a texts h = .ok () g) :
    ∃ o b buf, g.heap.Lists a o b buf (keys ++ texts) := by
  induction texts generalizing h o b buf keys with
  | nil =>
    obtain ⟨-, rfl⟩ := EStateM.Result.ok.inj hr
    exact ⟨o, b, buf, by rwa [List.append_nil]⟩
  | cons text rest ih =>
    obtain ⟨v, k, hstring, hr⟩ := bind_eq_ok hr
    obtain ⟨_, m, hpush, hr⟩ := bind_eq_ok hr
    obtain ⟨hwk, hsame⟩ := (tame_string text).ok hw hstring
    obtain ⟨hlk, hv⟩ := lists_string hw hl hanch hstring
    have hbottomk : k.stack.bottom ≤ k.stack.depth := hsame.stack ▸ hbot
    obtain ⟨hwm, hsame'⟩ := (tame_pushElement a v).ok hwk hpush
    obtain ⟨_, _, _, hlm⟩ := lists_pushElement hwk hbottomk hlk hv hpush
    have hlast := ih hwm (hsame'.stack ▸ hbottomk) (hsame'.anchored (hsame.anchored hanch)) hlm hr
    simpa using hlast

theorem bottom_spilled (hbot : h.stack.bottom ≤ h.stack.depth) (vs : List Value) :
    (h.spilled vs).stack.bottom ≤ (h.spilled vs).stack.depth := by
  show (h.stack.pushValues vs).bottom ≤ (h.stack.pushValues vs).depth
  rw [(pushValues_words h.stack vs).2, depth_pushValues]
  exact Nat.le_add_right_of_le hbot

theorem withFrame_ok {α : Type} {vs : List Value} {x : Act α} {v : α}
    (hr : withFrame vs x h = .ok v g) : ∃ k, x (h.spilled vs) = .ok v k ∧ g.heap = k.heap := by
  rw [withFrame_eq] at hr
  cases hx : x (h.spilled vs) with
  | ok w k =>
    rw [hx] at hr
    obtain ⟨rfl, rfl⟩ := EStateM.Result.ok.inj hr
    exact ⟨k, rfl, rfl⟩
  | error e k =>
    rw [hx] at hr
    cases hr

theorem lists_allocateArray (ho : h.Orderly) (hr : allocateArray #[] h = .ok a g) :
    ∃ o b buf, g.heap.Lists a o b buf [] := by
  have hcases := allocateArray_cases ho #[]
  rw [hr] at hcases
  cases hcases with
  | ok hc =>
    rename_i m
    refine ⟨_, _, _, (Heap.get?_withArray ..).trans (if_pos rfl), Heap.backed_storage ?_ ?_, .nil⟩
    · rw [Heap.get?_withArray, if_neg (Heap.nextAddress_ne_nextBuffer m.heap).symm, if_pos rfl]
    · decide

/-- The value is an array of strings of given texts. -/
def Listing (k : Heap) (v : Value) (keys : List String) : Prop :=
  ∃ b elements, v = .array b ∧ k.elements b = .ok elements ∧
    List.Forall₂ k.Spells elements.toList keys

theorem listing_dictKeys (hw : h.Whole) (hbot : h.stack.bottom ≤ h.stack.depth) {d : Dict}
    (hget : h.heap.get? a = some (.dict d)) {site : Location}
    (hr : dictKeys (.dict a) site h = .ok v g) : Listing g.heap v d.keys := by
  unfold dictKeys at hr
  simp only at hr
  rw [bind_ok (inspect_ok (dictAt_eq hget))] at hr
  obtain ⟨k1, hr, hheap1⟩ := withFrame_ok hr
  obtain ⟨b, k2, harr, hr⟩ := bind_eq_ok hr
  obtain ⟨k3, hr, hheap3⟩ := withFrame_ok hr
  obtain ⟨_, k4, hpush, hr⟩ := bind_eq_ok hr
  obtain ⟨rfl, rfl⟩ := EStateM.Result.ok.inj hr
  -- the array is spilled before the first string is made
  have hw1 := hw.spilled [.dict a]
  obtain ⟨hw2, hsame2⟩ := (tame_allocateArray #[]).ok hw1 harr
  have hbottom2 : k2.stack.bottom ≤ k2.stack.depth :=
    hsame2.stack ▸ bottom_spilled hbot [.dict a]
  obtain ⟨_, _, _, hl⟩ := lists_allocateArray hw1.1 harr
  obtain ⟨_, _, _, hl⟩ := lists_pushStrings (h := k2.spilled [.array b]) (hw2.withStack _)
    (bottom_spilled hbottom2 _) (anchored_spilled hbottom2 (by simp)) hl d.keys hpush
  rw [hheap1, hheap3]
  exact ⟨b, _, rfl, hl.backed.elements hl.array, hl.spelled⟩

/-! ## Dicts as maps -/

/-- What a dict of `n` buckets holds after a sequence of insertions. -/
structure Records (d : Dict) (n : Nat) (l : List (String × Value)) : Prop where
  /-- The value of a key is that of its last insertion. -/
  get : ∀ k, d.get? k = l.reverse.lookup k
  contains : ∀ k, d.contains k = true ↔ k ∈ l.map Prod.fst
  size : d.size = (Dict.firstKeys l).length
  nodup : d.keys.Nodup
  /-- Keys are grouped by bucket, and stand in a bucket as they came first. -/
  keys : d.keys = (List.range (max n 1)).flatMap fun i =>
    (Dict.firstKeys l).filter fun k => bucketAmong (max n 1) k = i
  entries : ∀ k v, (k, v) ∈ d.entries ↔ d.get? k = some v
  values : d.values.map some = d.keys.map d.get?

theorem records_insertAll (n : Nat) (l : List (String × Value)) :
    Records ((Dict.empty n).insertAll l) n l where
  get := Dict.get?_insertAll n l
  contains _ := Dict.contains_insertAll n l
  size := Dict.size_insertAll n l
  nodup := Dict.nodup_keys _
  keys := Dict.keys_insertAll n l
  entries _ _ := Dict.mem_entries_iff
  values := Dict.map_some_values _

/-- **Dicts are finite maps.** As long as there is storage for the buckets, a dict holds the last value
of every key that was inserted, lists each key once and in the order of its buckets; and the keys of a
live dict as an array are those keys in that order, whatever collections happen while it is made, as
long as the stack is scanned. -/
theorem dicts_are_finite_maps :
    (∀ (n : Nat) (l : List (String × Value)), n * 24 < 2 ^ 63 →
      ∃ d, Dict.make n = .ok d ∧ Records (d.insertAll l) n l) ∧
    ∀ (h g : Host) (a : Nat) (d : Dict) (site : Location) (v : Value), Reachable h →
      h.stack.bottom ≤ h.stack.depth → h.heap.get? a = some (.dict d) →
      dictKeys (.dict a) site h = .ok v g → Listing g.heap v d.keys := by
  refine ⟨fun n l hn => ⟨Dict.empty n, ?_, records_insertAll n l⟩, ?_⟩
  · unfold Dict.make checkStorage
    rw [if_pos (show n * 24 < 0x8000000000000000 from hn)]
    rfl
  · intro h g a d site v hr hbot hget hkeys
    exact listing_dictKeys (reachable_whole hr) hbot hget hkeys

/-- A dict of five keys in a host where the ninth object causes a collection. The slot that is
registered holds the address of the next array. -/
def withKeys : Host :=
  let requests : List Request :=
    (["a", "b", "c", "d", "e"].map fun key => .setEntry 0x100020 key .null) ++
      [.store 0 (.array 0x100050)]
  requests.foldl (fun h r => afterwards r.perform h) <| afterwards Request.newDict.perform <|
    afterwards (Request.pushRoot 0).perform <| afterwards Request.newSlot.perform <|
      Host.new { initialThreshold := 8, minThreshold := 0, dictBuckets := 1 }

theorem Reachable.requests (requests : List Request) (hr : Reachable h)
    (hrts : ∀ r ∈ requests, ∀ slot, r ≠ .pushRoot slot) :
    Reachable (requests.foldl (fun h r => afterwards r.perform h) h) := by
  induction requests generalizing h with
  | nil => exact hr
  | cons r rest ih =>
    refine ih (.request r hr ?_) fun r hr => hrts r (.tail _ hr)
    have := hrts r (.head _)
    cases r <;> simp_all [Request.Admissible]

theorem reachable_withKeys : Reachable withKeys := by
  have hslot : Reachable (afterwards Request.newSlot.perform
      (Host.new { initialThreshold := 8, minThreshold := 0, dictBuckets := 1 })) :=
    .request .newSlot (.new _ _) trivial
  exact .requests _ ((hslot.request (.pushRoot 0) Nat.zero_lt_one).request .newDict trivial) (by simp)

/-- The keys of the dict that an object is. -/
def keysOf : Option Object → Option (List String)
  | some (.dict d) => some d.keys
  | _ => none

theorem keysOf_withKeys : ∃ d, withKeys.heap.get? 0x100020 = some (.dict d) ∧
    d.keys = ["a", "b", "c", "d", "e"] := by
  have hkeys : keysOf (withKeys.heap.get? 0x100020) = some ["a", "b", "c", "d", "e"] := by cbv
  unfold keysOf at hkeys
  split at hkeys
  · exact ⟨_, ‹_›, Option.some.inj hkeys⟩
  · cases hkeys

theorem dicts_are_finite_maps_withKeys :
    (∃ d, Dict.make 2 = .ok d ∧ Records (d.insertAll [("a", .int 1), ("b", .null), ("a", .int 2)]) 2
      [("a", .int 1), ("b", .null), ("a", .int 2)]) ∧
    ∃ v g, dictKeys (.dict 0x100020) default withKeys = .ok v g ∧
      Listing g.heap v ["a", "b", "c", "d", "e"] := by
  refine ⟨dicts_are_finite_maps.1 2 _ (by decide), ?_⟩
  obtain ⟨d, hget, hkeys⟩ := keysOf_withKeys
  have hok : (match dictKeys (.dict 0x100020) default withKeys with
      | .ok .. => true
      | .error .. => false) = true := by cbv
  cases hr : dictKeys (.dict 0x100020) default withKeys with
  | ok v g =>
    have hlst := dicts_are_finite_maps.2 withKeys g 0x100020 d default v reachable_withKeys
      (by decide) hget hr
    exact ⟨v, g, rfl, hkeys ▸ hlst⟩
  | error e g =>
    rw [hr] at hok
    cases hok

/-- Whether there is an answer, an array whose fifth element is a string that does not exist. -/
def lacksFifth : EStateM.Result Interrupt Host Value → Bool
  | .ok (.array b) g =>
    match g.heap.elements b with
    | .ok es =>
      match (es[4]? : Option Value) with
      | some (.str c) => (g.heap.get? c).isNone
      | _ => false
    | .error _ => false
  | _ => false

/-- There may be no storage for the buckets; and with the bottom of the stack above its top, a key may
be gone by the time the array has room for it. -/
theorem dicts_without_storage_or_scan :
    (∀ d, Dict.make (2 ^ 60) ≠ .ok d) ∧
    ∃ (h g : Host) (a : Nat) (d : Dict) (site : Location) (v : Value), Reachable h ∧
      h.heap.get? a = some (.dict d) ∧ dictKeys (.dict a) site h = .ok v g ∧
      ¬ Listing g.heap v d.keys := by
  refine ⟨fun d => nofun, ?_⟩
  let unscanned := afterwards (Request.onStack fun s => { s with bottom := 100 }).perform withKeys
  obtain ⟨d, hget, -⟩ := keysOf_withKeys
  have hlacks : lacksFifth (dictKeys (.dict 0x100020) default unscanned) = true := by cbv
  cases hr : dictKeys (.dict 0x100020) default unscanned with
  | ok v g =>
    refine ⟨unscanned, g, 0x100020, d, default, v, .request _ reachable_withKeys trivial, hget, hr, ?_⟩
    rw [hr] at hlacks
    rintro ⟨b, es, rfl, helems, hspelled⟩
    simp only [lacksFifth, helems] at hlacks
    split at hlacks
    · rename_i c hfifth
      obtain ⟨hfour, hfifth⟩ := Array.getElem?_eq_some_iff.mp hfifth
      obtain ⟨hlen, hall⟩ := List.forall₂_iff_get.mp hspelled
      obtain ⟨c', hstr, hc⟩ := hall 4 hfour (hlen ▸ hfour)
      obtain rfl : c = c' := Value.str.inj (hfifth.symm.trans hstr)
      rw [hc] at hlacks
      cases hlacks
    · cases hlacks
  | error e g =>
    rw [hr] at hlacks
    cases hlacks

end Host

end Ember
