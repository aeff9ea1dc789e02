import Ember.Proofs.Heap.Growth

/-!
# Ember — drawings of values

A value is drawn as a tree. An occurrence of a container is a node with its items or an abbreviation,
and an occurrence of any other value is a leaf. The text of a value is the text of the one drawing in
which exactly those occurrences are abbreviated that are within the container itself. A path of nodes
does not have a container twice, so it is no longer than there are containers.

Main result: `Heap.display_marks_cycles`.
-/

namespace Ember

variable {items : List (String × Shown)} {es : List (String × Value)}

/-! ## Drawings -/

/-- The address of a container. -/
def Value.container? : Value → Option Address
  | .array a | .dict a => some a
  | _ => none

/-- A text in the brackets of a container. -/
def Value.enclose : Value → String → String
  | .dict _, text => "\x7b" ++ text ++ "\x7d"
  | _, text => "[" ++ text ++ "]"

/-- A drawing of a value: a text, an abbreviated container, or a container with its items and what is
written before each of them. -/
inductive Shown
  | leaf (text : String)
  | again (v : Value)
  | opened (v : Value) (items : List (String × Shown))

namespace Shown

/-- The text of a drawing. -/
def text : Shown → String
  | .leaf text => text
  | .again v => v.enclose "..."
  | .opened v items => v.enclose (String.intercalate ", " (items.map fun p => p.1 ++ p.2.text))
termination_by s => sizeOf s
decreasing_by
  rename_i hp
  have hlt := List.sizeOf_lt_of_mem hp
  obtain ⟨label, s⟩ := p
  simp only [Prod.mk.sizeOf_spec, opened.sizeOf_spec] at hlt ⊢
  omega

/-- Inside the containers `enclosing`, a container is abbreviated exactly when it is one of those that
are around it. -/
inductive Marked : List Address → Shown → Prop
  | leaf {enclosing : List Address} (text : String) : Marked enclosing (.leaf text)
  | again {enclosing : List Address} {v : Value} {a : Address} (container : v.container? = some a)
      (around : a ∈ enclosing) : Marked enclosing (.again v)
  | opened {enclosing : List Address} {v : Value} {a : Address} {items : List (String × Shown)}
      (container : v.container? = some a) (new : a ∉ enclosing)
      (inside : ∀ p ∈ items, Marked (a :: enclosing) p.2) : Marked enclosing (.opened v items)

/-- Nothing is abbreviated. -/
inductive Plain : Shown → Prop
  | leaf (text : String) : Plain (.leaf text)
  | opened {v : Value} {items : List (String × Shown)} (inside : ∀ p ∈ items, Plain p.2) :
      Plain (.opened v items)

end Shown

namespace Heap

variable {L : Linkage} {h : Heap} {v w : Value} {a : Address} {s : Shown} {inner : Bool}
  {enclosing : List Address}

/-- What a container holds, each with what is written before it. -/
def contents (h : Heap) : Value → Except Fault (List (String × Value))
  | .array a => do return (← h.elements a).toList.map fun w => ("", w)
  | .dict a => do return (← h.dictAt a).entries.map fun e => (Text.quoted e.1 ++ ": ", e.2)
  | _ => .ok []

mutual

/-- The drawings of a value. Which containers are abbreviated is free. -/
inductive Depicts (h : Heap) : Bool → Shown → Value → Prop
  | leaf {inner : Bool} {v : Value} {text : String} (simple : v.container? = none)
      (written : h.displayWithin 1 inner [] v = .ok text) : Depicts h inner (.leaf text) v
  | again {inner : Bool} {v : Value} {a : Address} (container : v.container? = some a) :
      Depicts h inner (.again v) v
  | opened {inner : Bool} {v : Value} {a : Address} {es : List (String × Value)}
      {items : List (String × Shown)} (container : v.container? = some a)
      (contents : h.contents v = .ok es) (inside : DepictsAll h items es) :
      Depicts h inner (.opened v items) v

/-- The drawings of what a container holds. -/
inductive DepictsAll (h : Heap) : List (String × Shown) → List (String × Value) → Prop
  | nil : DepictsAll h [] []
  | cons {s : Shown} {w : Value} {items : List (String × Shown)} {es : List (String × Value)}
      (label : String) (head : Depicts h true s w) (tail : DepictsAll h items es) :
      DepictsAll h ((label, s) :: items) ((label, w) :: es)

end

theorem DepictsAll.exists_of_mem (hall : h.DepictsAll items es) {p : String × Shown}
    (hp : p ∈ items) : ∃ e ∈ es, h.Depicts true p.2 e.2 := by
  induction items generalizing es with
  | nil => cases hp
  | cons q rest ih =>
    cases hall with
    | cons label head tail =>
      rcases List.mem_cons.mp hp with rfl | hp
      · exact ⟨_, .head _, head⟩
      · obtain ⟨e, he, hdepicts⟩ := ih tail hp
        exact ⟨e, .tail _ he, hdepicts⟩

theorem DepictsAll.eq {items items' : List (String × Shown)} {es : List (String × Value)}
    (hall : h.DepictsAll items es) (hall' : h.DepictsAll items' es)
    (hone : ∀ p ∈ items, ∀ p' ∈ items', ∀ w, h.Depicts true p.2 w → h.Depicts true p'.2 w →
      p.2 = p'.2) : items = items' := by
  induction es generalizing items items' with
  | nil =>
    cases hall
    cases hall'
    rfl
  | cons e rest ih =>
    cases hall with
    | cons label head tail =>
      cases hall' with
      | cons _ head' tail' =>
        have hhead := hone _ (.head _) _ (.head _) _ head head'
        have htail := ih tail tail' fun p hp p' hp' =>
          hone p (.tail _ hp) p' (.tail _ hp')
        exact congrArg₂ _ (congrArg _ hhead) htail

theorem Depicts.eq_of_marked {s' : Shown} (hs : h.Depicts inner s v) (hm : s.Marked enclosing)
    (hs' : h.Depicts inner s' v) (hm' : s'.Marked enclosing) : s = s' := by
  -- whether a container is opened depends on what encloses it, and on nothing else
  induction hm generalizing inner v s' with
  | leaf text =>
    cases hs with
    | leaf simple written =>
      cases hs' with
      | leaf _ written' => rw [Except.ok.inj (written.symm.trans written')]
      | again container | opened container => cases simple.symm.trans container
  | again container around =>
    cases hs
    cases hs' with
    | leaf simple => cases simple.symm.trans container
    | again => rfl
    | opened =>
      cases hm' with
      | opened container' new =>
        cases container.symm.trans container'
        exact absurd around new
  | opened container new marked ih =>
    cases hs with
    | opened _ contents inside =>
      cases hs' with
      | leaf simple => cases simple.symm.trans container
      | again =>
        cases hm' with
        | again container' around =>
          cases container.symm.trans container'
          exact absurd around new
      | opened _ contents' inside' =>
        cases hm' with
        | opened container' _ marked' =>
          cases container.symm.trans container'
          cases contents.symm.trans contents'
          have hitems := inside.eq inside' fun p hp p' hp' w hw hw' => ih p hp hw hw' (marked' p' hp')
          rw [hitems]

/-! ## The text of a value is that of its drawing -/

section

variable {n : Nat}

theorem displayWithin_of_simple (hv : v.container? = none) :
    h.displayWithin (n + 1) inner enclosing v = h.displayWithin 1 inner [] v := by
  cases v with
  | array | dict => cases hv
  | _ => rfl

theorem displayWithin_of_mem (hv : v.container? = some a) (ha : a ∈ enclosing) :
    h.displayWithin (n + 1) inner enclosing v = .ok (v.enclose "...") := by
  have hcontains : enclosing.contains a = true := List.contains_iff_mem.mpr ha
  cases v with
  | array | dict =>
    cases hv
    rw [displayWithin, if_pos hcontains]
    rfl
  | _ => cases hv

theorem displayWithin_of_not_mem (hv : v.container? = some a) (ha : a ∉ enclosing) :
    h.displayWithin (n + 1) inner enclosing v = do
      let texts ← (← h.contents v).mapM fun e => do
        return e.1 ++ (← h.displayWithin n true (a :: enclosing) e.2)
      return v.enclose (String.intercalate ", " texts) := by
  have hcontains : ¬ enclosing.contains a = true := fun hc => ha (List.contains_iff_mem.mp hc)
  cases v with
  | array =>
    cases hv
    have hempty : HAppend.hAppend "" = (id : String → String) := funext fun _ => String.empty_append
    rw [displayWithin, if_neg hcontains]
    simp [contents, Value.enclose, Function.comp_def, hempty]
  | dict =>
    cases hv
    rw [displayWithin, if_neg hcontains]
    simp [contents, Value.enclose, Function.comp_def]
  | _ => cases hv

end

/-- Everything that objects refer to is there and is of the right kind. -/
def Closed (L : Linkage) (h : Heap) : Prop :=
  ∀ (a : Nat) (o : Object), h.get? a = some o → o.LiveIn L h

theorem object_eq_ok {k : Kind} (hk : h.kindAt a = some k) :
    ∃ o, h.get? a = some o ∧ h.object a = .ok o ∧ o.kind = k := by
  obtain ⟨o, ho, hkind⟩ := kindAt_eq_some_iff.mp hk
  exact ⟨o, ho, by simp only [object, ho], hkind⟩

theorem classAt_eq_ok (hk : h.kindAt a = some .cls) : ∃ c, h.classAt a = .ok c := by
  obtain ⟨o, -, ho, hkind⟩ := object_eq_ok hk
  cases o with
  | cls c => exact ⟨c, by rw [classAt, ho]; rfl⟩
  | _ => cases hkind

theorem exists_text_of_simple (hc : h.Closed L) (hv : v.LiveIn h) (hsimple : v.container? = none)
    (inner : Bool) : ∃ text, h.displayWithin 1 inner [] v = .ok text := by
  cases v with
  | int | float | null | bool => exact ⟨_, rfl⟩
  | array | dict => cases hsimple
  | str a =>
    obtain ⟨o, -, ho, hkind⟩ := object_eq_ok hv
    cases o with
    | str s => exact ⟨_, by rw [displayWithin, text, text?, ho]; rfl⟩
    | _ => cases hkind
  | cls a =>
    obtain ⟨c, hclass⟩ := classAt_eq_ok hv
    exact ⟨_, by rw [displayWithin, hclass]; rfl⟩
  | inst a =>
    obtain ⟨o, hget, ho, hkind⟩ := object_eq_ok hv
    cases o with
    | inst i =>
      obtain ⟨c, hclass⟩ := classAt_eq_ok (hc a _ hget).1
      have hinst : h.instanceAt a = .ok i := by rw [instanceAt, ho]; rfl
      refine ⟨"<" ++ c.name ++ " instance>", ?_⟩
      simp only [displayWithin, hinst, bind, Except.bind, hclass]
      rfl
    | _ => cases hkind

theorem exists_contents (hc : h.Closed L) (hv : v.LiveIn h) (hcont : v.container? = some a) :
    ∃ es, h.contents v = .ok es ∧ ∀ e ∈ es, e.2.LiveIn h := by
  cases v with
  | array a' =>
    obtain rfl : a' = a := Option.some.inj hcont
    obtain ⟨p, hget, ho, hkind⟩ := object_eq_ok hv
    cases p with
    | array o =>
      have hfits : o.Fits h := hc _ _ hget
      have harr : h.arrayAt a' = .ok o := by rw [arrayAt, ho]; rfl
      cases hb : o.buffer with
      | none =>
        refine ⟨[], ?_, nofun⟩
        simp only [contents, elements, harr, bind, Except.bind, hb]
        rfl
      | some b =>
        obtain ⟨n, hn, hroom⟩ := hfits.buffer hb
        obtain ⟨q, hbuf, hq, hkind⟩ := object_eq_ok hn
        cases q with
        | buffer buf =>
          -- the length is at most the capacity, and the buffer has room for that
          have hlen : o.len ≤ buf.elements.size := by
            have hsize : buf.elements.size = n := Kind.buffer.inj hkind
            exact hsize ▸ Nat.le_trans hfits.1 hroom
          have hconts : h.contents (.array a') =
              .ok ((buf.elements.extract 0 o.len).toList.map fun w => ("", w)) := by
            simp only [contents, elements, harr, bind, Except.bind, hb, hq, if_pos hlen]
            rfl
          refine ⟨_, hconts, fun e he => ?_⟩
          obtain ⟨w, hw, rfl⟩ := List.mem_map.mp he
          refine (hc _ _ hbuf).2 w ?_
          rw [Array.toList_extract] at hw
          exact Array.mem_toList_iff.mp (List.mem_of_mem_drop (List.mem_of_mem_take hw))
        | _ => cases hkind
    | _ => cases hkind
  | dict =>
    cases hcont
    obtain ⟨p, hget, ho, hkind⟩ := object_eq_ok hv
    cases p with
    | dict d =>
      refine ⟨d.entries.map fun e => (Text.quoted e.1 ++ ": ", e.2), ?_, fun e he => ?_⟩
      · rw [contents, dictAt, ho]
        rfl
      obtain ⟨entry, hentry, rfl⟩ := List.mem_map.mp he
      exact hc _ _ hget entry.2 (List.mem_map_of_mem hentry)
    | _ => cases hkind
  | _ => cases hcont

/-- The addresses of the arrays and dicts. -/
def containers (h : Heap) : List Address :=
  h.cells.keys.filter fun a => h.kindAt a = some .array ∨ h.kindAt a = some .dict

theorem mem_containers (hv : v.LiveIn h) (hcont : v.container? = some a) : a ∈ h.containers := by
  refine List.mem_filter.mpr ?_
  cases v with
  | array | dict =>
    cases hcont
    exact ⟨Std.TreeMap.mem_keys.mpr (mem_of_kindAt hv), by simp [show h.kindAt _ = _ from hv]⟩
  | _ => cases hcont

theorem exists_items {M : Shown → Prop} {f : Value → Except Fault String}
    (hone : ∀ e ∈ es, ∃ s, h.Depicts true s e.2 ∧ M s ∧ f e.2 = .ok s.text) :
    ∃ items, h.DepictsAll items es ∧ (∀ p ∈ items, M p.2) ∧
      es.mapM (fun e => do return e.1 ++ (← f e.2)) = .ok (items.map fun p => p.1 ++ p.2.text) := by
  induction es with
  | nil => exact ⟨[], .nil, nofun, rfl⟩
  | cons e rest ih =>
    obtain ⟨s, hs, hmarked, htext⟩ := hone e (.head _)
    obtain ⟨items, hall, hitems, htexts⟩ := ih fun e he => hone e (.tail _ he)
    refine ⟨(e.1, s) :: items, .cons e.1 hs hall, List.forall_mem_cons.mpr ⟨hmarked, hitems⟩, ?_⟩
    rw [List.mapM_cons, htexts, htext]
    rfl

/-- With room for the containers that are not enclosing, a live value has a drawing that abbreviates
at cycles only, and its text. -/
theorem exists_drawing (hc : h.Closed L) (n : Nat) : ∀ (inner : Bool) (enclosing : List Address)
    (v : Value), enclosing.Nodup → enclosing ⊆ h.containers →
    h.containers.length < n + enclosing.length → v.LiveIn h →
    ∃ s, h.Depicts inner s v ∧ s.Marked enclosing ∧
      h.displayWithin n inner enclosing v = .ok s.text := by
  induction n with
  | zero =>
    intro inner enclosing v hnd hsub hroom
    have hle := (hnd.subperm hsub).length_le
    omega
  | succ n ih =>
    intro inner enclosing v hnd hsub hroom hv
    cases hcont : v.container? with
    | none =>
      obtain ⟨text, htext⟩ := exists_text_of_simple hc hv hcont inner
      refine ⟨.leaf text, .leaf hcont htext, .leaf text, ?_⟩
      rw [displayWithin_of_simple hcont, htext, Shown.text]
    | some a =>
      by_cases ha : a ∈ enclosing
      · refine ⟨.again v, .again hcont, .again hcont ha, ?_⟩
        rw [displayWithin_of_mem hcont ha, Shown.text]
      · obtain ⟨es, hes, hlv⟩ := exists_contents hc hv hcont
        -- one more container encloses the items, so one level less is enough for them
        have hone : ∀ e ∈ es, ∃ s, h.Depicts true s e.2 ∧ s.Marked (a :: enclosing) ∧
            h.displayWithin n true (a :: enclosing) e.2 = .ok s.text := by
          intro e he
          refine ih true (a :: enclosing) e.2 (List.nodup_cons.mpr ⟨ha, hnd⟩) ?_ ?_ (hlv e he)
          · exact List.cons_subset.mpr ⟨mem_containers hv hcont, hsub⟩
          · rw [List.length_cons]
            omega
        obtain ⟨items, hall, hmarked, htexts⟩ := exists_items hone
        refine ⟨.opened v items, .opened hcont hes hall, .opened hcont ha hmarked, ?_⟩
        rw [displayWithin_of_not_mem hcont ha, hes]
        simp only [bind, Except.bind] at htexts ⊢
        rw [htexts, Shown.text]
        rfl

/-! ## Values without cycles -/

/-- A container holds a value. -/
def Holds (h : Heap) (v w : Value) : Prop :=
  ∃ es label, h.contents v = .ok es ∧ (label, w) ∈ es

/-- Nothing that can be reached from the value can reach itself. -/
def Acyclic (h : Heap) (v : Value) : Prop :=
  ∀ w, Relation.ReflTransGen h.Holds v w → ¬ Relation.TransGen h.Holds w w

/-- A live value without cycles, inside containers from which it is reached. -/
structure Amid (h : Heap) (enclosing : List Address) (v : Value) : Prop where
  live : v.LiveIn h
  acyclic : h.Acyclic v
  around : ∀ a ∈ enclosing, ∃ w : Value, w.container? = some a ∧ w.LiveIn h ∧
    Relation.TransGen h.Holds w v

theorem eq_of_container? (hv : v.LiveIn h) (hw : w.LiveIn h) (hv' : v.container? = some a)
    (hw' : w.container? = some a) : v = w := by
  cases v <;> cases w <;> simp_all [Value.container?, Value.LiveIn]

theorem Amid.not_mem (hv : h.Amid enclosing v) (hcont : v.container? = some a) :
    a ∉ enclosing := by
  intro ha
  obtain ⟨w, hw, hlv, hreach⟩ := hv.around a ha
  obtain rfl := eq_of_container? hv.live hlv hcont hw
  exact hv.acyclic v .refl hreach

theorem Amid.inside (hc : h.Closed L) (hv : h.Amid enclosing v) (hcont : v.container? = some a)
    (hes : h.contents v = .ok es) {e : String × Value} (he : e ∈ es) :
    h.Amid (a :: enclosing) e.2 := by
  have hholds : h.Holds v e.2 := ⟨es, e.1, hes, he⟩
  obtain ⟨es', hes', hlv⟩ := exists_contents hc hv.live hcont
  cases hes.symm.trans hes'
  refine ⟨hlv e he, fun w hw => hv.acyclic w (.head hholds hw), ?_⟩
  refine List.forall_mem_cons.mpr ⟨⟨v, hcont, hv.live, .single hholds⟩, fun b hb => ?_⟩
  obtain ⟨w, hw, hlv, hreach⟩ := hv.around b hb
  exact ⟨w, hw, hlv, hreach.tail hholds⟩

theorem Shown.Marked.plain (hc : h.Closed L) (hm : s.Marked enclosing) (hs : h.Depicts inner s v)
    (hv : h.Amid enclosing v) : s.Plain := by
  induction hm generalizing inner v with
  | leaf text => exact .leaf text
  | again container around =>
    cases hs
    exact absurd around (hv.not_mem container)
  | opened container new marked ih =>
    cases hs with
    | opened _ contents inside =>
      refine .opened fun p hp => ?_
      obtain ⟨e, he, hdepicts⟩ := inside.exists_of_mem hp
      exact ih p hp hdepicts (hv.inside hc container contents he)

theorem Shown.Plain.marked (hc : h.Closed L) (hp : s.Plain) (hs : h.Depicts inner s v)
    (hv : h.Amid enclosing v) : s.Marked enclosing := by
  induction hp generalizing inner v enclosing with
  | leaf text => exact .leaf text
  | opened plain ih =>
    cases hs with
    | opened container contents inside =>
      refine .opened container (hv.not_mem container) fun p hp => ?_
      obtain ⟨e, he, hdepicts⟩ := inside.exists_of_mem hp
      exact ih p hp hdepicts (hv.inside hc container contents he)

/-- **Texts mark cycles, and only them.** In every heap in which what objects refer to is there, every
live value has one drawing that abbreviates exactly the containers that are within themselves. Its text
is the text of the value, for which as many levels are enough as there are arrays and dicts, and one
more. If nothing that can be reached from the value can reach itself, that drawing is the one in which
nothing is abbreviated. -/
theorem display_marks_cycles (hc : h.Closed L) (hv : v.LiveIn h) :
    ∃ s, h.display v = .ok s.text ∧
      (∀ n, h.containers.length < n → h.displayWithin n false [] v = .ok s.text) ∧
      (∀ s', h.Depicts false s' v ∧ s'.Marked [] ↔ s' = s) ∧
      (h.Acyclic v → ∀ s', h.Depicts false s' v ∧ s'.Plain ↔ s' = s) := by
  have hdraw : ∀ n, h.containers.length < n → ∃ s, h.Depicts false s v ∧ s.Marked [] ∧
      h.displayWithin n false [] v = .ok s.text := fun n hn =>
    exists_drawing hc n false [] v List.nodup_nil (List.nil_subset _) hn hv
  obtain ⟨s, hs, hm, -⟩ := hdraw _ (Nat.lt_succ_self _)
  have htext : ∀ n, h.containers.length < n → h.displayWithin n false [] v = .ok s.text := by
    intro n hn
    obtain ⟨s', hs', hm', htext⟩ := hdraw n hn
    rw [hs.eq_of_marked hm hs' hm', htext]
  have hsize : h.containers.length < h.cells.size + 1 := by
    rw [← Std.TreeMap.length_keys]
    exact Nat.lt_succ_of_le (List.length_filter_le ..)
  have hamid : h.Acyclic v → h.Amid [] v := fun hacyclic =>
    ⟨hv, hacyclic, fun a ha => absurd ha List.not_mem_nil⟩
  refine ⟨s, htext _ hsize, htext, fun s' => ⟨?_, ?_⟩, fun hacyclic s' => ⟨?_, ?_⟩⟩
  · rintro ⟨hs', hm'⟩
    exact hs'.eq_of_marked hm' hs hm
  · rintro rfl
    exact ⟨hs, hm⟩
  · rintro ⟨hs', hp'⟩
    exact hs'.eq_of_marked (Shown.Plain.marked hc hp' hs' (hamid hacyclic)) hs hm
  · rintro rfl
    exact ⟨hs, Shown.Marked.plain hc hm hs (hamid hacyclic)⟩

/-- A heap with a dict that holds itself. -/
def knotted : Heap :=
  (empty 0 0).place ⟨.dict ((Dict.empty 1).insert "me" (.dict 1048608)), 1, false, false⟩

theorem display_marks_cycles_knotted : ∃ s : Shown, knotted.display (.dict 1048608) = .ok s.text ∧
    s.text = "\x7b\"me\": \x7b...\x7d\x7d" ∧ s.Marked [] ∧ knotted.containers.length = 1 := by
  have hvals : ((Dict.empty 1).insert "me" (.dict 1048608)).values = [.dict 1048608] := by
    decide +kernel
  have hkind : (Value.dict 1048608).LiveIn knotted := by
    show knotted.kindAt 1048608 = some .dict
    decide +kernel
  have hclsd : knotted.Closed ⟨fun _ => True, fun _ => True⟩ := by
    intro a o hget
    rw [knotted, get?_place] at hget
    split at hget
    · obtain rfl := Option.some.inj hget
      intro v hv
      rw [hvals] at hv
      exact List.mem_singleton.mp hv ▸ hkind
    · cases hget
  obtain ⟨s, hs, -, hdrawing, -⟩ := display_marks_cycles hclsd hkind
  have htext : knotted.display (.dict 1048608) = .ok "\x7b\"me\": \x7b...\x7d\x7d" := by
    decide +kernel
  exact ⟨s, hs, Except.ok.inj (hs.symm.trans htext), ((hdrawing s).mpr rfl).2, by decide +kernel⟩

end Heap

end Ember
