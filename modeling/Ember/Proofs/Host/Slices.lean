import Ember.Proofs.Host.Keys

/-!
# Ember — slices

A slice is cut between two bounds, each of which may be absent. A bound below zero counts from the end,
and bounds outside of the sequence, or the wrong way around, never fail.

Main result: `slices_clamp_bounds`.
-/

namespace Ember

variable {i : Int64}

/-! ## Contents -/

/-- What a string or an array holds, as a sequence. -/
inductive Contents
  | chars (l : List Char)
  | values (l : List Value)

/-- A bound of a slice as a value. -/
def boundValue : Option Int64 → Value
  | none => .null
  | some n => .int n

/-- The position that a bound denotes in a sequence of length `n`. -/
def boundAt (n : Nat) (absent : Int) : Option Int64 → Int
  | none => absent
  | some b => if b.toInt < 0 then max 0 (n + b.toInt) else min b.toInt n

namespace Contents

def length : Contents → Nat
  | chars l => l.length
  | values l => l.length

/-- What is at the positions from `low` on, and before `high`. -/
def between (low high : Int) : Contents → Contents
  | chars l => chars ((l.drop low.toNat).take (high.toNat - low.toNat))
  | values l => values ((l.drop low.toNat).take (high.toNat - low.toNat))

/-- The part between two bounds. -/
def slice (c : Contents) (start stop : Option Int64) : Contents :=
  c.between (boundAt c.length 0 start)
    (max (boundAt c.length 0 start) (boundAt c.length c.length stop))

/-- Two sequences of one kind in a row. -/
def append : Contents → Contents → Contents
  | chars a, chars b => chars (a ++ b)
  | values a, values b => values (a ++ b)
  | c, _ => c

/-- The bytes that a string or an array with these contents takes. -/
def bytes : Contents → Nat
  | chars l => Host.room (Object.str (String.ofList l)).size
  | values l => Host.arrayRoom l.toArray

/-- The values that are on the machine stack while an array with these contents is made. -/
def held : Contents → List Value
  | chars _ => []
  | values l => l

/-- A value has these contents. -/
def Of (k : Heap) (v : Value) : Contents → Prop
  | chars l => k.Spells v (String.ofList l)
  | values l => ∃ a, v = .array a ∧ k.elements a = .ok l.toArray

variable (c : Contents)

theorem boundAt_range (n : Nat) {absent : Int} (h : 0 ≤ absent ∧ absent ≤ n) (b : Option Int64) :
    0 ≤ boundAt n absent b ∧ boundAt n absent b ≤ n := by
  cases b with
  | none => exact h
  | some b =>
    unfold boundAt
    simp only
    split <;> omega

theorem between_all : c.between 0 c.length = c := by
  cases c <;> simp [between, length]

theorem slice_all : c.slice none none = c := by
  have hmax : max 0 (c.length : Int) = c.length := by omega
  show c.between 0 (max 0 (c.length : Int)) = c
  rw [hmax, between_all]

theorem append_slices (k : Int64) : (c.slice none (some k)).append (c.slice (some k) none) = c := by
  have hrange := boundAt_range c.length ⟨Int.natCast_nonneg c.length, le_refl (c.length : Int)⟩ (some k)
  have hsame : boundAt c.length 0 (some k) = boundAt c.length c.length (some k) := rfl
  unfold slice
  rw [hsame]
  generalize boundAt c.length c.length (some k) = p at hrange
  show (c.between 0 (max 0 p)).append (c.between p (max p c.length)) = c
  rw [max_eq_right hrange.1, max_eq_right hrange.2]
  cases c with
  | chars l => simp [between, append, length, ← List.length_drop]
  | values l => simp [between, append, length, ← List.length_drop]

theorem slice_one {j : Int64} (hi : 0 ≤ i.toInt) (hlt : i.toInt < c.length)
    (hj : j.toInt = i.toInt + 1) : c.slice (some i) (some j) = c.between i.toInt (i.toInt + 1) := by
  have hlow : boundAt c.length 0 (some i) = i.toInt := by
    unfold boundAt
    simp only
    split <;> omega
  have hhigh : boundAt c.length c.length (some j) = i.toInt + 1 := by
    unfold boundAt
    simp only
    split <;> omega
  unfold slice
  rw [hlow, hhigh, max_eq_right (by omega)]

end Contents

namespace Host

variable {h g : Host} {v w : Value} {c : Contents} {α : Type}

theorem clampBound_eq (n : Nat) (absent : Nat) (b : Option Int64) :
    clampBound (b.map Int64.toInt) n absent = (boundAt n absent b).toNat := by
  cases b with
  | none => rfl
  | some b =>
    simp only [Option.map_some, clampBound, boundAt]
    split <;> omega

theorem toList_sliceOf (l : List α) (start stop : Option Int64) :
    (sliceOf l.toArray (start.map Int64.toInt) (stop.map Int64.toInt)).toList =
      let low := boundAt l.length 0 start
      let high := max low (boundAt l.length l.length stop)
      (l.drop low.toNat).take (high.toNat - low.toNat) := by
  unfold sliceOf
  simp only [List.size_toArray]
  rw [clampBound_eq l.length 0 start, clampBound_eq l.length l.length stop, Array.toList_extract,
    List.extract_eq_take_drop]
  congr 1
  simp only [Nat.cast_zero]
  omega

/-! ## Answers up to memory -/

/-- An answer with some contents, for which there is no room only if what a collection keeps leaves
none while the values `vs` are on the machine stack, and no place only if the addresses of 64 bits are
used up. -/
inductive Yields (h : Host) (vs : List Value) (c : Contents) :
    EStateM.Result Interrupt Host Value → Prop
  | ok {v : Value} {g : Host} (answer : c.Of g.heap v) : Yields h vs c (.ok v g)
  | outOfMemory {g : Host} {requested live limit : Nat}
      (lacking : (h.spilled (vs ++ c.held)).Lacks c.bytes) :
      Yields h vs c (.error (.fatal (.outOfMemory requested live limit)) g)
  | exhausted {g : Host} (large : 2 ^ 64 ≤ h.heap.nextFree + c.bytes) :
      Yields h vs c (.error (.fault .overflow) g)

theorem spilled_spilled (h : Host) (vs ws : List Value) :
    (h.spilled vs).spilled ws = h.spilled (vs ++ ws) := by
  simp only [spilled, Stack.pushValues, List.foldl_append]

theorem Yields.withFrame {vs : List Value} {x : Act Value}
    (hx : Yields (h.spilled vs) [] c (x (h.spilled vs))) :
    Yields h vs c (Host.withFrame vs x h) := by
  rw [withFrame_eq]
  generalize x (h.spilled vs) = r at hx
  cases hx with
  | ok answer => exact .ok answer
  | outOfMemory lacking =>
    rw [List.nil_append, spilled_spilled] at lacking
    exact .outOfMemory lacking
  | exhausted large => exact .exhausted large

theorem yields_string (ho : h.Orderly) (l : List Char) :
    Yields h [] (.chars l) (string (String.ofList l) h) := by
  have hcases := allocate_cases ho (.str (String.ofList l)) false
  unfold string
  rw [bind_apply]
  generalize allocate (.str (String.ofList l)) false h = r at hcases
  cases hcases with
  | ok hc => exact .ok ⟨_, rfl, (Heap.get?_place ..).trans (if_pos rfl)⟩
  | fatal _ lacking => exact .outOfMemory lacking
  | fault _ large => exact .exhausted large

theorem elements_withArray (k : Heap) (es : Array Value) :
    (k.withArray es).elements k.nextAddress = .ok es := by
  have hget := Heap.get?_withArray k es
  have hback := Heap.backed_storage (a := k.nextAddress) ((hget k.nextBuffer).trans
    ((if_neg (Heap.nextAddress_ne_nextBuffer k).symm).trans (if_pos rfl)))
    (by unfold Heap.arrayCapacity minCapacity; omega)
  rw [hback.elements ((hget _).trans (if_pos rfl)), Heap.extract_storage]

theorem yields_newArray (ho : h.Orderly) (l : List Value) :
    Yields h [] (.values l) (newArray l.toArray h) := by
  have hcases := allocateArray_cases ho l.toArray
  unfold newArray
  rw [bind_apply]
  generalize allocateArray l.toArray h = r at hcases
  cases hcases with
  | ok hc => exact .ok ⟨_, rfl, elements_withArray ..⟩
  | fatal _ lacking => exact .outOfMemory lacking
  | fault large => exact .exhausted large

/-! ## Slices -/

theorem sliceBound_eq (b : Option Int64) (site : Location) :
    sliceBound (boundValue b) site h = .ok (b.map Int64.toInt) h := by
  cases b <;> rfl

theorem yields_slice (ho : h.Orderly) (hv : c.Of h.heap v) (start stop : Option Int64)
    (site : Location) :
    Yields h [v] (c.slice start stop)
      (slice v (boundValue start) (boundValue stop) site h) := by
  unfold slice
  rw [bind_ok (sliceBound_eq start site), bind_ok (sliceBound_eq stop site)]
  refine .withFrame ?_
  have ho' : (h.spilled [v]).Orderly := ho.withStack _
  cases c with
  | chars l =>
    obtain ⟨a, rfl, hget⟩ := hv
    have htext : (h.spilled [.str a]).heap.text (.str a) = .ok (String.ofList l) :=
      Heap.Spells.text ⟨a, rfl, hget⟩
    simp only [bind_ok (inspect_ok (f := fun heap => heap.text (.str a)) htext),
      String.toList_ofList, toList_sliceOf]
    exact yields_string ho' _
  | values l =>
    obtain ⟨a, rfl, helems⟩ := hv
    simp only [bind_ok (inspect_ok (h := h.spilled [.array a]) (f := fun heap => heap.elements a)
      helems)]
    have hlist : sliceOf l.toArray (start.map Int64.toInt) (stop.map Int64.toInt) =
        List.toArray _ := Array.toList_inj.mp (toList_sliceOf l start stop)
    rw [hlist]
    exact yields_newArray ho' _

theorem display_eq {a : Nat} {text : String} (hget : h.heap.get? a = some (.str text)) :
    display (.str a) h = .ok text h := by
  refine inspect_ok ?_
  simp only [Heap.display, Heap.displayWithin, Heap.Spells.text ⟨a, rfl, hget⟩]
  rfl

theorem yields_plus (ho : h.Orderly) {k : Int64} {x y : Value}
    (hx : (c.slice none (some k)).Of h.heap x) (hy : (c.slice (some k) none).Of h.heap y)
    (site : Location) : Yields h [x, y] c (operate .add x y site h) := by
  refine .withFrame ?_
  have ho' : (h.spilled [x, y]).Orderly := ho.withStack _
  have hall := c.append_slices k
  cases c with
  | chars l =>
    obtain ⟨a, rfl, hgeta⟩ := hx
    obtain ⟨b, rfl, hgetb⟩ := hy
    have hla := display_eq (h := h.spilled [.str a, .str b]) hgeta
    have hlb := display_eq (h := h.spilled [.str a, .str b]) hgetb
    simp only [apply, plus, joined, bind_ok hla, bind_ok hlb, ← String.ofList_append]
    have hl := Contents.chars.inj hall
    rw [hl]
    exact yields_string ho' l
  | values l =>
    obtain ⟨a, rfl, hea⟩ := hx
    obtain ⟨b, rfl, heb⟩ := hy
    have hla := inspect_ok (h := h.spilled [.array a, .array b]) (f := fun heap => heap.elements a) hea
    have hlb := inspect_ok (h := h.spilled [.array a, .array b]) (f := fun heap => heap.elements b) heb
    simp only [apply, plus, bind_ok hla, bind_ok hlb, List.append_toArray]
    have hl := Contents.values.inj hall
    rw [hl]
    exact yields_newArray ho' l

/-! ## Single elements -/

/-- An answer is the one element of some contents: the element of an array itself, and a new string of
a character. -/
def Picks (h : Host) (c : Contents) (r : EStateM.Result Interrupt Host Value) : Prop :=
  match c with
  | .chars l => l.length = 1 ∧ Yields h [] c r
  | .values l => ∃ v, l = [v] ∧ r = .ok v h

theorem position_eq {n : Nat} (hi : 0 ≤ i.toInt) (hlt : i.toInt < n) (site : Location) :
    position (.int i) n site h = .ok i.toInt.toNat h := by
  unfold position
  simp only [if_pos (And.intro hi hlt)]
  rfl

theorem elementOf_eq {l : List α} {i : Nat} {a : α} (hi : l[i]? = some a) :
    elementOf l.toArray i h = .ok a h := by
  unfold elementOf
  rw [List.getElem?_toArray, hi]
  rfl

theorem exists_take_one {l : List α} {i : Int} (hi : 0 ≤ i) (hlt : i < l.length) :
    ∃ a, l[i.toNat]? = some a ∧ (l.drop i.toNat).take ((i + 1).toNat - i.toNat) = [a] := by
  have hone : (i + 1).toNat - i.toNat = 1 := by omega
  have hget := List.getElem?_eq_getElem (show i.toNat < l.length by omega)
  refine ⟨_, hget, ?_⟩
  rw [hone, List.take_one, List.head?_drop, hget]
  rfl

theorem picks_indexGet (hw : h.Whole) (hv : c.Of h.heap v) (hi : 0 ≤ i.toInt)
    (hlt : i.toInt < c.length) (site : Location) :
    Picks h (c.between i.toInt (i.toInt + 1)) (indexGet v (.int i) site h) := by
  cases c with
  | chars l =>
    obtain ⟨a, rfl, hget⟩ := hv
    have hlt : i.toInt < l.length := hlt
    obtain ⟨ch, hch, hlist⟩ := exists_take_one hi hlt
    simp only [Contents.between, Picks, hlist, indexGet,
      bind_ok (inspect_ok (f := fun heap => heap.text (.str a)) (Heap.Spells.text ⟨a, rfl, hget⟩)),
      String.toList_ofList, List.size_toArray, bind_ok (position_eq hi hlt site),
      bind_ok (elementOf_eq hch)]
    exact ⟨rfl, yields_string hw.1 [ch]⟩
  | values l =>
    obtain ⟨a, rfl, helems⟩ := hv
    have hlt : i.toInt < l.length := hlt
    obtain ⟨e, he, hlist⟩ := exists_take_one hi hlt
    obtain ⟨o, harr⟩ : ∃ o, h.heap.arrayAt a = .ok o := by
      unfold Heap.elements at helems
      cases ho : h.heap.arrayAt a with
      | ok o => exact ⟨o, rfl⟩
      | error f =>
        rw [ho] at helems
        cases helems
    have hlen : o.len = l.length := by
      obtain ⟨es, hes, hsize⟩ := elements_eq hw.2.laid (get?_of_arrayAt harr)
      obtain rfl := Except.ok.inj (hes.symm.trans helems)
      rw [← hsize, List.size_toArray]
    simp only [Contents.between, Picks, hlist, indexGet,
      bind_ok (inspect_ok (f := fun heap => heap.arrayAt a) harr), hlen,
      bind_ok (position_eq hi hlt site),
      bind_ok (inspect_ok (f := fun heap => heap.elements a) helems), elementOf_eq he]
    exact ⟨e, rfl, rfl⟩

/-- **Slices clamp their bounds.** In every state, a slice of a string or an array between any bounds has
the contents between the positions that the bounds denote, and nothing but the memory can fail. So the
parts before and after a bound join to the original contents, the slice without bounds has them all, and
the slice of one position holds what is at that position. -/
theorem slices_clamp_bounds {h : Host} (hr : Reachable h) (c : Contents) (site : Location) :
    (∀ v, c.Of h.heap v → ∀ start stop,
      Yields h [v] (c.slice start stop)
        (slice v (boundValue start) (boundValue stop) site h)) ∧
    (∀ k x y, (c.slice none (some k)).Of h.heap x → (c.slice (some k) none).Of h.heap y →
      Yields h [x, y] c (operate .add x y site h)) ∧
    (∀ v, c.Of h.heap v → Yields h [v] c (slice v .null .null site h)) ∧
    ∀ v, c.Of h.heap v → ∀ i j : Int64, 0 ≤ i.toInt → i.toInt < c.length → j.toInt = i.toInt + 1 →
      Picks h (c.slice (some i) (some j)) (indexGet v (.int i) site h) := by
  have hw := reachable_whole hr
  refine ⟨fun v hv start stop => yields_slice hw.1 hv start stop site, fun k x y hx hy =>
    yields_plus hw.1 hx hy site, fun v hv => ?_, fun v hv i j hi hlt hj => ?_⟩
  · have hall := yields_slice hw.1 hv none none site
    rwa [c.slice_all] at hall
  · rw [c.slice_one hi hlt hj]
    exact picks_indexGet hw hv hi hlt site

/-- A host with a string, and with thresholds under which the next allocation collects. -/
def withString : Host :=
  afterwards (Request.string "añb").perform (Host.new { initialThreshold := 0, minThreshold := 0 })

/-- The string is sliced while a collection takes place. -/
theorem slices_clamp_bounds_withString :
    Reachable withString ∧ (Contents.chars ['a', 'ñ', 'b']).Of withString.heap (.str 0x100020) ∧
    (∃ w g, slice (.str 0x100020) (.int (-2)) (.int (-1)) default withString = .ok w g ∧
      g.heap.stats.collections = 2 ∧ (Contents.chars ['ñ']).Of g.heap w) ∧
    Picks withString (.chars ['ñ']) (indexGet (.str 0x100020) (.int 1) default withString) := by
  have hr : Reachable withString := .request (.string "añb") (.new _ _) trivial
  have hv : (Contents.chars ['a', 'ñ', 'b']).Of withString.heap (.str 0x100020) :=
    ⟨0x100020, rfl, by decide +kernel⟩
  have hall := slices_clamp_bounds hr (.chars ['a', 'ñ', 'b']) default
  have hslice := hall.1 _ hv (some (-2)) (some (-1))
  refine ⟨hr, hv, ?_, hall.2.2.2 _ hv 1 2 (by decide) (by decide) (by decide)⟩
  have hok : Succeeds (slice (.str 0x100020) (.int (-2)) (.int (-1)) default withString) := by cbv
  have hcollected : (afterwards (slice (.str 0x100020) (.int (-2)) (.int (-1)) default)
      withString).heap.stats.collections = 2 := by decide +kernel
  obtain ⟨r, hres⟩ : ∃ r, slice (.str 0x100020) (.int (-2)) (.int (-1)) default withString = r :=
    ⟨_, rfl⟩
  unfold afterwards at hcollected
  change Yields _ _ _ (slice (.str 0x100020) (.int (-2)) (.int (-1)) default withString) at hslice
  rw [hres] at hslice hok hcollected ⊢
  cases hslice with
  | ok answer => exact ⟨_, _, rfl, hcollected, answer⟩
  | outOfMemory => exact hok.elim
  | exhausted => exact hok.elim

/-- A slot that is registered and does not exist is found by the collection in a slice. -/
theorem slices_without_slot : ∃ g, (Contents.chars ['a', 'ñ', 'b']).Of
      (afterwards (pushRoot 5) withString).heap (.str 0x100020) ∧
    slice (.str 0x100020) .null .null default (afterwards (pushRoot 5) withString) =
      .error (.fault (.outOfRange 5)) g :=
  ⟨_, ⟨0x100020, rfl, by decide +kernel⟩, rfl⟩

end Host

end Ember
