import Ember.Proofs.Host.Keys

/-!
# Ember — integers as keys

An integer stands for its decimal text as a key of a dict. The text is the one that a string of the
integer has, different integers have different texts, and the text reads back as the integer by the
grammar of integers alone.

Main result: `integer_keys_recoverable`.
-/

namespace Ember

variable {ns : List Int64}

/-! ## Decimal texts -/

namespace Number

theorem digitsValue_toDigits (n : Nat) : digitsValue (Nat.toDigits 10 n) = n :=
  Nat.ofDigitChars_ten_toDigits

theorem isDigits_toDigits (n : Nat) : isDigits (Nat.toDigits 10 n) = true := by
  have hall : ∀ c ∈ Nat.toDigits 10 n, c.isDigit = true := fun c hc =>
    Nat.isDigit_of_mem_toDigits (by omega) (by omega) hc
  simpa [isDigits, Nat.toDigits_ne_nil] using hall

theorem toList_writeInt (n : Int64) : (writeInt n).toList =
    if 0 ≤ n.toInt then Nat.toDigits 10 n.toInt.toNat
    else '-' :: Nat.toDigits 10 (-n.toInt).toNat := by
  unfold writeInt
  rw [Int.toString_eq_repr, Int.repr_eq_if]
  split <;> simp [Nat.repr_eq_ofList_toDigits]

theorem splitSign_toDigits (n : Nat) :
    splitSign (Nat.toDigits 10 n) = (false, Nat.toDigits 10 n) := by
  have hall : ∀ c ∈ Nat.toDigits 10 n, c.isDigit = true := fun c hc =>
    Nat.isDigit_of_mem_toDigits (by omega) (by omega) hc
  unfold splitSign
  split
  · rename_i rest heq
    exact absurd (hall '-' (by simp [heq])) (by decide)
  · rename_i rest heq
    exact absurd (hall '+' (by simp [heq])) (by decide)
  · rfl

theorem readWhole_writeInt (n : Int64) : readWhole (writeInt n).toList = some n.toInt := by
  rw [toList_writeInt]
  split
  · simp only [readWhole, splitSign_toDigits, isDigits_toDigits, digitsValue_toDigits, if_true]
    simp only [Bool.false_eq_true, if_false]
    congr 1
    omega
  · simp only [readWhole, splitSign, isDigits_toDigits, digitsValue_toDigits, if_true]
    congr 1
    omega

/-- **The text of an integer reads back**, at both ends of the range too. -/
theorem readInt_writeInt (n : Int64) : readInt (writeInt n).toList = some n := by
  unfold readInt
  rw [readWhole_writeInt]
  have hlow := Int64.minValue_le_toInt n
  have hhigh : n.toInt ≤ Int64.maxValue.toInt := Int.le_of_lt_add_one (Int64.toInt_lt n)
  show (if Int64.minValue.toInt ≤ n.toInt ∧ n.toInt ≤ Int64.maxValue.toInt then _ else none) = _
  rw [if_pos ⟨hlow, hhigh⟩, Int64.ofInt_toInt]

theorem writeInt_injective {n m : Int64} (heq : writeInt n = writeInt m) : n = m := by
  have hread := readInt_writeInt n
  rw [heq, readInt_writeInt] at hread
  exact (Option.some.inj hread).symm

theorem trim_writeInt (n : Int64) : Text.trim (writeInt n).toList = (writeInt n).toList := by
  have hdigit : ∀ c : Char, c.isDigit = true → Text.isBlank c = false := by
    intro c hc
    have hrange := Char.isDigit_iff_toNat.mp hc
    have hzero : '0'.toNat = 48 := rfl
    have hnine : '9'.toNat = 57 := rfl
    simp only [Text.isBlank, Bool.or_eq_false_iff, Bool.and_eq_false_iff, decide_eq_false_iff_not,
      beq_eq_false_iff_ne]
    omega
  have hall : ∀ c ∈ (writeInt n).toList, Text.isBlank c = false := by
    intro c hc
    rw [toList_writeInt] at hc
    split at hc
    · exact hdigit c (Nat.isDigit_of_mem_toDigits (by omega) (by omega) hc)
    · rcases List.mem_cons.mp hc with rfl | hc
      · decide
      · exact hdigit c (Nat.isDigit_of_mem_toDigits (by omega) (by omega) hc)
  have hdrop : ∀ s : List Char, (∀ c ∈ s, Text.isBlank c = false) → s.dropWhile Text.isBlank = s := by
    intro s hs
    cases s with
    | nil => rfl
    | cons c rest => simp [hs c List.mem_cons_self]
  unfold Text.trim
  rw [hdrop _ hall, hdrop _ fun c hc => hall c (List.mem_reverse.mp hc), List.reverse_reverse]

end Number

namespace Host

open Number (writeInt)

variable {h g : Host} {a : Nat} {d : Dict} {n : Int64} {v : Value} {site : Location}

/-! ## One text for an integer -/

theorem dictKey_int (n : Int64) (site : Location) (h : Host) :
    dictKey (.int n) site h = .ok (writeInt n) h :=
  rfl

theorem dictKey_spells {text : String} (hv : h.heap.Spells v text) (site : Location) :
    dictKey v site h = .ok text h := by
  have htext := hv.text
  obtain ⟨c, rfl, -⟩ := hv
  exact inspect_ok (f := fun heap => heap.text (.str c)) htext

theorem spells_strOf (ho : h.Orderly) (hr : strOf (.int n) h = .ok v g) :
    g.heap.Spells v (writeInt n) := by
  have htext : display (.int n) h = .ok (writeInt n) h := rfl
  have hr : (display (.int n) >>= string) h = .ok v g := hr
  rw [bind_ok htext] at hr
  obtain ⟨b, m, halloc, hr⟩ := bind_eq_ok hr
  cases hr
  obtain ⟨k, -, rfl, hheap⟩ := allocate_ok ho halloc
  exact ⟨_, rfl, by rw [hheap, Heap.get?_place, if_pos rfl]⟩

theorem intOf_spells (hv : h.heap.Spells v (writeInt n)) (site : Location) :
    intOf v site h = .ok (.int n) h := by
  unfold intOf
  rw [bind_ok (inspect_ok (hv.text?))]
  simp only [readInteger, Number.trim_writeInt, Number.readInt_writeInt]
  rfl

/-- The one text of an integer. -/
structure Canonical (n : Int64) : Prop where
  key : ∀ site h, dictKey (.int n) site h = .ok (writeInt n) h
  string : ∀ h v g, Reachable h → strOf (.int n) h = .ok v g → g.heap.Spells v (writeInt n)
  text : ∀ h v site, h.heap.Spells v (writeInt n) → dictKey v site h = .ok (writeInt n) h
  injective : ∀ m site h, dictKey (.int m) site h = dictKey (.int n) site h → m = n
  /-- Doubles are not needed to read it. -/
  read : Number.readInt (Text.trim (writeInt n).toList) = some n
  int : ∀ h v site, h.heap.Spells v (writeInt n) → intOf v site h = .ok (.int n) h
  /-- The integer and its text are one key. -/
  agree : ∀ a h v site, h.heap.Spells v (writeInt n) →
    indexGet (.dict a) v site h = indexGet (.dict a) (.int n) site h ∧
    contains (.dict a) v site h = contains (.dict a) (.int n) site h ∧
    hasKey (.dict a) v site h = hasKey (.dict a) (.int n) site h

theorem canonical (n : Int64) : Canonical n where
  key := dictKey_int n
  string _ _ _ hr := spells_strOf (reachable_whole hr).1
  text _ _ site hv := dictKey_spells hv site
  injective m site h heq := Number.writeInt_injective (EStateM.Result.ok.inj heq).1
  read := by rw [Number.trim_writeInt, Number.readInt_writeInt]
  int _ _ site hv := intOf_spells hv site
  agree a h v site hv := by
    have hkey := dictKey_spells hv site
    refine ⟨?_, ?_, ?_⟩
    · simp only [indexGet, bind_ok hkey, bind_ok (dictKey_int n site h)]
    · simp only [contains, bind_ok hkey, bind_ok (dictKey_int n site h)]
    · simp only [hasKey, bind_ok hkey, bind_ok (dictKey_int n site h)]

/-! ## A dict under assignments -/

/-- A key of a dict as the program writes it. -/
inductive Key
  | int (n : Int64)
  | text (s : String)

/-- The text by which a dict knows the key. -/
def Key.entry : Key → String
  | .int n => writeInt n
  | .text s => s

/-- A value gives a key. -/
def Key.Given (heap : Heap) (v : Value) : Key → Prop
  | .int n => v = .int n
  | .text s => heap.Spells v s

/-- A dict after a sequence of assignments, with whatever happened in between that left the dict as it
was. -/
inductive Assigned (a : Address) : Host → List (Key × Value) → Prop
  | new {h g : Host} : Reachable h → newDict h = .ok (.dict a) g → Assigned a g []
  | set {h g : Host} {l : List (Key × Value)} {key : Key} {i v : Value} {site : Location} :
      Assigned a h l → key.Given h.heap i → indexSet (.dict a) i v site h = .ok () g →
      Assigned a g (l ++ [(key, v)])
  | other {h g : Host} {l : List (Key × Value)} :
      Assigned a h l → g.heap.get? a = h.heap.get? a → Assigned a g l

/-- The insertions that assignments come to. -/
def insertions (l : List (Key × Value)) : List (String × Value) :=
  l.map fun e => (e.1.entry, e.2)

variable {l : List (Key × Value)} {key : Key} {i : Value}

theorem dictKey_given (hi : key.Given h.heap i) (site : Location) :
    dictKey i site h = .ok key.entry h := by
  cases key with
  | int n =>
    obtain rfl : i = .int n := hi
    exact dictKey_int n site h
  | text s => exact dictKey_spells hi site

theorem indexSet_given (hget : h.heap.get? a = some (.dict d)) (hi : key.Given h.heap i) (v : Value)
    (site : Location) :
    ∃ g, indexSet (.dict a) i v site h = .ok () g ∧
      g.heap.get? a = some (.dict (d.insert key.entry v)) := by
  have hset : setEntry a key.entry v h = .ok () (afterwards (setEntry a key.entry v) h) := by
    unfold afterwards setEntry
    rw [bind_ok (inspect_ok (dictAt_eq hget))]
    rfl
  refine ⟨afterwards (setEntry a key.entry v) h, ?_, ?_⟩
  · simp only [indexSet, bind_ok (dictKey_given hi site), hset]
  · unfold afterwards setEntry
    rw [bind_ok (inspect_ok (dictAt_eq hget))]
    show (h.heap.modify a _).get? a = _
    rw [Heap.get?_modify, if_pos rfl, hget]
    rfl

theorem get?_newDict (ho : h.Orderly) (hr : newDict h = .ok (.dict a) g) :
    ∃ b, g.heap.get? a = some (.dict (.empty b)) := by
  obtain ⟨b, k, halloc, hr⟩ := bind_eq_ok hr
  obtain ⟨heq, rfl⟩ := EStateM.Result.ok.inj hr
  cases heq
  unfold allocateDict at halloc
  rw [get_bind] at halloc
  obtain ⟨d, m, hmake, halloc⟩ := bind_eq_ok halloc
  unfold Dict.make checkStorage at hmake
  split at hmake
  · cases hmake
    obtain ⟨_, -, rfl, hheap⟩ := allocate_ok ho halloc
    exact ⟨_, by rw [hheap, Heap.get?_place, if_pos rfl]⟩
  · cases hmake

theorem Assigned.get? (ha : Assigned a h l) :
    ∃ b, h.heap.get? a = some (.dict ((Dict.empty b).insertAll (insertions l))) := by
  induction ha with
  | new hreach hr => exact get?_newDict (reachable_whole hreach).1 hr
  | @set h g l key i v site _ hi hr ih =>
    obtain ⟨b, hget⟩ := ih
    obtain ⟨g', hset, hget'⟩ := indexSet_given hget hi v site
    obtain ⟨-, rfl⟩ := EStateM.Result.ok.inj (hset.symm.trans hr)
    have happend : insertions (l ++ [(key, v)]) = insertions l ++ [(key.entry, v)] :=
      List.map_append
    exact ⟨b, by rw [hget', happend, Dict.insertAll_append]⟩
  | other _ hsame ih =>
    obtain ⟨b, hget⟩ := ih
    exact ⟨b, hsame.trans hget⟩

/-- What a dict answers for a key: the value that was assigned last. -/
structure Answers (a : Address) (h : Host) (l : List (Key × Value)) (key : Key) (i : Value)
    (site : Location) : Prop where
  get : indexGet (.dict a) i site h =
    match (insertions l).reverse.lookup key.entry with
    | some v => .ok v h
    | none => failure site ("key " ++ Text.quoted key.entry ++ " not found") h
  contains : Host.contains (.dict a) i site h =
    .ok (.bool (decide (key.entry ∈ (insertions l).map Prod.fst))) h
  hasKey : Host.hasKey (.dict a) i site h =
    .ok (.bool (decide (key.entry ∈ (insertions l).map Prod.fst))) h

theorem Assigned.answers (ha : Assigned a h l) (hi : key.Given h.heap i) (site : Location) :
    Answers a h l key i site := by
  obtain ⟨b, hget⟩ := ha.get?
  have hkey := dictKey_given hi site
  have hdict := inspect_ok (f := fun heap => heap.dictAt a) (dictAt_eq hget)
  have hcontains : ((Dict.empty b).insertAll (insertions l)).contains key.entry =
      decide (key.entry ∈ (insertions l).map Prod.fst) :=
    Bool.eq_iff_iff.mpr ((Dict.contains_insertAll ..).trans decide_eq_true_iff.symm)
  refine ⟨?_, ?_, ?_⟩
  · simp only [indexGet, bind_ok hkey, bind_ok hdict, Dict.get?_insertAll]
    cases (insertions l).reverse.lookup key.entry <;> rfl
  · simp only [Host.contains, bind_ok hkey, bind_ok hdict, hcontains]
    rfl
  · simp only [Host.hasKey, bind_ok hkey, bind_ok hdict, hcontains]
    rfl

/-! ## The integers of a dict -/

/-- The value is an array of strings that stand for given integers, each of them once. -/
def Recovers (g : Host) (v : Value) (ns : List Int64) : Prop :=
  ∃ b elements ms, v = .array b ∧ g.heap.elements b = .ok elements ∧
    List.Forall₂ (fun e m => ∀ site, intOf e site g = .ok (.int m) g) elements.toList ms ∧
    ms.Nodup ∧ ∀ m, m ∈ ms ↔ m ∈ ns

theorem exists_integers {keys : List String} (hkeys : ∀ k ∈ keys, k ∈ ns.map writeInt) :
    ∃ ms : List Int64, keys = ms.map writeInt := by
  induction keys with
  | nil => exact ⟨[], rfl⟩
  | cons k rest ih =>
    obtain ⟨ms, hms⟩ := ih fun k hk => hkeys k (.tail _ hk)
    obtain ⟨m, -, hm⟩ := List.mem_map.mp (hkeys k (.head _))
    exact ⟨m :: ms, by rw [hms, ← hm, List.map_cons]⟩

theorem Assigned.recovers (ha : Assigned a h l) (honly : l.map Prod.fst = ns.map Key.int)
    (hw : h.Whole) (hbot : h.stack.bottom ≤ h.stack.depth)
    (hr : dictKeys (.dict a) site h = .ok v g) : Recovers g v ns := by
  obtain ⟨b, hget⟩ := ha.get?
  obtain ⟨c, elements, rfl, helems, hspelled⟩ := listing_dictKeys hw hbot hget hr
  have htexts : (insertions l).map Prod.fst = ns.map writeInt := by
    rw [insertions, List.map_map]
    show l.map (Key.entry ∘ Prod.fst) = _
    rw [← List.map_map, honly, List.map_map]
    rfl
  have hmem : ∀ k, k ∈ ((Dict.empty b).insertAll (insertions l)).keys ↔ k ∈ ns.map writeInt :=
    fun k => by rw [Dict.mem_keys_iff, Dict.contains_insertAll, htexts]
  obtain ⟨ms, hms⟩ := exists_integers fun k hk => (hmem k).mp hk
  have hinj : Function.Injective writeInt := fun _ _ => Number.writeInt_injective
  have hnd := Dict.nodup_keys ((Dict.empty b).insertAll (insertions l))
  rw [hms] at hspelled hmem hnd
  refine ⟨c, elements, ms, rfl, helems, ?_, List.Nodup.of_map _ hnd, fun m => ?_⟩
  · exact (List.forall₂_map_right_iff.mp hspelled).imp fun _ _ he => intOf_spells he
  · simpa [List.mem_map_of_injective hinj] using hmem (writeInt m)

/-- **Integer keys are canonical and recoverable.** An integer has one text, as a key and as a string,
which reads back as the integer; a dict answers for the integer as for its text, with what was assigned
last; and a dict with integer keys only lists strings of just these integers, as long as the stack is
scanned. -/
theorem integer_keys_recoverable :
    (∀ n, Canonical n) ∧
    (∀ a h l, Assigned a h l → ∀ key i, key.Given h.heap i → ∀ site,
      Answers a h l key i site ∧
      ∀ v, ∃ g, indexSet (.dict a) i v site h = .ok () g ∧ Assigned a g (l ++ [(key, v)])) ∧
    ∀ a h l ns, Assigned a h l → l.map Prod.fst = ns.map Key.int → Reachable h →
      h.stack.bottom ≤ h.stack.depth → ∀ site v g, dictKeys (.dict a) site h = .ok v g →
      Recovers g v ns := by
  refine ⟨canonical, fun a h l ha key i hi site => ⟨ha.answers hi site, fun v => ?_⟩, ?_⟩
  · obtain ⟨b, hget⟩ := ha.get?
    obtain ⟨g, hset, -⟩ := indexSet_given hget hi v site
    exact ⟨g, hset, ha.set hi hset⟩
  · intro a h l ns ha honly hr hbot site v g hkeys
    exact ha.recovers honly (reachable_whole hr) hbot hkeys

/-- A host in which the ninth object causes a collection, with a registered slot. -/
def alert : Host :=
  afterwards (Request.pushRoot 0).perform <| afterwards Request.newSlot.perform <|
    Host.new { initialThreshold := 8, minThreshold := 0, dictBuckets := 1 }

/-- A dict with integer keys. The slot holds the address of the next array. -/
def counted (ns : List Int64) : Host :=
  let requests : List Request :=
    (ns.map fun n => .indexSet (.dict 0x100020) (.int n) .null default) ++
      [.store 0 (.array 0x100050)]
  requests.foldl (fun h r => afterwards r.perform h) (afterwards Request.newDict.perform alert)

theorem reachable_alert : Reachable alert :=
  .request (.pushRoot 0) (.request .newSlot (.new _ _) trivial) Nat.zero_lt_one

theorem reachable_counted (ns : List Int64) : Reachable (counted ns) :=
  .requests _ (reachable_alert.request .newDict trivial) (by
    simp only [List.mem_append, List.mem_map, List.mem_singleton]
    rintro r (⟨n, -, rfl⟩ | rfl) slot
    · nofun
    · nofun)

theorem heap_store (slot : Nat) (v : Value) (h : Host) :
    (afterwards (store slot v) h).heap = h.heap := by
  by_cases hs : slot < h.slots.size <;> simp [afterwards, store, hs]

theorem assigned_counted (ns : List Int64) :
    Assigned 0x100020 (counted ns) (ns.map fun n => (.int n, .null)) := by
  have hnew : Assigned 0x100020 (afterwards Request.newDict.perform alert) [] := by
    refine .new (g := afterwards Request.newDict.perform alert) reachable_alert ?_
    cbv
  have hsets : ∀ (ns : List Int64) {h : Host} {l : List (Key × Value)}, Assigned 0x100020 h l →
      Assigned 0x100020 ((ns.map fun n =>
        Request.indexSet (.dict 0x100020) (.int n) .null default).foldl
          (fun h r => afterwards r.perform h) h) (l ++ ns.map fun n => (.int n, .null)) := by
    intro ns
    induction ns with
    | nil => exact fun {_ l} ha => (List.append_nil l).symm ▸ ha
    | cons n rest ih =>
      intro h l ha
      obtain ⟨b, hget⟩ := ha.get?
      have hgvn : (Key.int n).Given h.heap (.int n) := rfl
      obtain ⟨g, hset, -⟩ := indexSet_given hget hgvn .null default
      have hg : afterwards (Request.indexSet (.dict 0x100020) (.int n) .null default).perform h = g := by
        rw [Request.perform, afterwards, hset]
      have hnext := ih (ha.set hgvn hset)
      rw [List.append_assoc, ← hg] at hnext
      exact hnext
  unfold counted
  rw [List.foldl_append]
  exact .other (hsets ns hnew) (congrArg (Heap.get? · _) (heap_store ..))

theorem integer_keys_recoverable_counted :
    Canonical Int64.minValue ∧
    Answers 0x100020 (counted [-1, 0]) [(.int (-1), .null), (.int 0, .null)] (.int (-1)) (.int (-1))
      default ∧
    ∃ v g, dictKeys (.dict 0x100020) default (counted [-5, 40, -5, Int64.minValue]) = .ok v g ∧
      Recovers g v [-5, 40, -5, Int64.minValue] := by
  refine ⟨integer_keys_recoverable.1 _,
    (integer_keys_recoverable.2.1 _ _ _ (assigned_counted [-1, 0]) (.int (-1)) _ rfl default).1, ?_⟩
  have hok : (match dictKeys (.dict 0x100020) default (counted [-5, 40, -5, Int64.minValue]) with
      | .ok .. => true
      | .error .. => false) = true := by decide +kernel
  cases hr : dictKeys (.dict 0x100020) default (counted [-5, 40, -5, Int64.minValue]) with
  | ok v g =>
    refine ⟨v, g, rfl, integer_keys_recoverable.2.2 _ _ _ _ (assigned_counted _) ?_
      (reachable_counted _) (by decide +kernel) default v g hr⟩
    rw [List.map_map]
    rfl
  | error e g =>
    rw [hr] at hok
    cases hok

/-- With the bottom of the stack above its top, a key may be gone before it can be read back. -/
theorem integer_keys_without_scan :
    ∃ a h l ns site v g, Assigned a h l ∧ l.map Prod.fst = ns.map Key.int ∧ Reachable h ∧
      dictKeys (.dict a) site h = .ok v g ∧ ¬ Recovers g v ns := by
  let unscanned := afterwards (Request.onStack fun s => { s with bottom := 100 }).perform
    (counted [1, 2, 3, 4, 5])
  have hlacks : lacksFifth (dictKeys (.dict 0x100020) default unscanned) = true := by cbv
  cases hr : dictKeys (.dict 0x100020) default unscanned with
  | ok v g =>
    refine ⟨_, unscanned, _, [1, 2, 3, 4, 5], default, v, g,
      .other (assigned_counted [1, 2, 3, 4, 5]) rfl, rfl, .request _ (reachable_counted _) trivial,
      hr, ?_⟩
    rw [hr] at hlacks
    rintro ⟨b, es, ms, rfl, helems, hread, -⟩
    simp only [lacksFifth, helems] at hlacks
    split at hlacks
    · rename_i c hfifth
      obtain ⟨hfour, hfifth⟩ := Array.getElem?_eq_some_iff.mp hfifth
      obtain ⟨hlen, hall⟩ := List.forall₂_iff_get.mp hread
      have hint := hall 4 hfour (hlen ▸ hfour) default
      have hnone := Option.isNone_iff_eq_none.mp hlacks
      have hfifth : es.toList.get ⟨4, hfour⟩ = .str c := hfifth
      have hflt : g.heap.text? (.str c) = .error (.dangling c) := by
        simp only [Heap.text?, Heap.object, hnone]
        rfl
      rw [hfifth, intOf, bind_error (inspect_error hflt)] at hint
      cases hint
    · cases hlacks
  | error e g =>
    rw [hr] at hlacks
    cases hlacks

end Host

end Ember
