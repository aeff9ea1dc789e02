import Ember.Proofs.Heap.Typed

/-!
# Ember — how heaps change

Objects are placed, changed and freed. An object never becomes one of another kind, an instance never
changes at all, and what is placed later never gets an address that was in use before.

Main results: `Twin.place`, `Twin.modify`.
-/

namespace Ember

variable {c : Cell} {a : Nat} {o : Object} {f : Object → Object} {v : Value}

/-- What an object may become. -/
structure Object.Becomes (o o' : Object) : Prop where
  kind : o'.kind = o.kind
  inst : ∀ i, o = .inst i → o' = .inst i

namespace Object.Becomes

theorem refl (o : Object) : o.Becomes o :=
  ⟨rfl, fun _ hi => hi⟩

theorem trans {o1 o2 o3 : Object} (h12 : o1.Becomes o2) (h23 : o2.Becomes o3) : o1.Becomes o3 :=
  ⟨h23.kind.trans h12.kind, fun i hi => h23.inst i (h12.inst i hi)⟩

end Object.Becomes

namespace Heap

variable {L : Linkage} {h g k h1 h2 : Heap}

/-- What a later heap keeps of an earlier one: an object at an address of the earlier one is what
became of the object that was there. -/
structure Grown (h g : Heap) : Prop where
  next : h.nextFree ≤ g.nextFree
  old : ∀ (a : Nat) (o' : Object), a ≤ h.nextFree → g.get? a = some o' →
    ∃ o, h.get? a = some o ∧ o.Becomes o'

namespace Grown

theorem refl (h : Heap) : Grown h h :=
  ⟨Nat.le_refl _, fun _ o _ ho => ⟨o, ho, .refl o⟩⟩

theorem trans (hg : Grown h g) (gk : Grown g k) : Grown h k := by
  refine ⟨Nat.le_trans hg.next gk.next, fun a o ha ho => ?_⟩
  obtain ⟨o', ho', hb'⟩ := gk.old a o (Nat.le_trans ha hg.next) ho
  obtain ⟨o'', ho'', hb''⟩ := hg.old a o' ha ho'
  exact ⟨o'', ho'', hb''.trans hb'⟩

theorem inst_eq (hg : Grown h g) (hw : h.WellFormed) {i : InstanceObject}
    (hi : h.get? a = some (.inst i)) (ho : g.get? a = some o) : o = .inst i := by
  obtain ⟨c, hc, -⟩ := get?_eq_some_iff.mp hi
  obtain ⟨o', ho', hb⟩ := hg.old a o (hw.lt_next hc) ho
  rw [hi] at ho'
  exact hb.inst i (Option.some.inj ho').symm

end Grown

/-! ## Placing -/

theorem get?_place (h : Heap) (c : Cell) (a : Nat) :
    (h.place c).get? a = if h.nextAddress = a then some c.object else h.get? a := by
  unfold get?
  rw [getElem?_place]
  split <;> rfl

theorem kindAt_place (h : Heap) (c : Cell) (a : Nat) :
    (h.place c).kindAt a = if h.nextAddress = a then some c.object.kind else h.kindAt a := by
  unfold kindAt
  rw [get?_place]
  split <;> rfl

theorem kindAt_nextAddress (hw : h.WellFormed) : h.kindAt h.nextAddress = none := by
  unfold kindAt get?
  rw [NatMap.getElem?_eq_none _ hw.nextAddress_fresh]
  rfl

theorem kindAt_place_of_some (hw : h.WellFormed) (c : Cell) {k : Kind} (hk : h.kindAt a = some k) :
    (h.place c).kindAt a = some k := by
  rw [kindAt_place, if_neg, hk]
  rintro rfl
  rw [kindAt_nextAddress hw] at hk
  cases hk

theorem liveIn_place (hw : h.WellFormed) (c : Cell) (hv : v.LiveIn h) : v.LiveIn (h.place c) :=
  hv.mono fun _ _ _ hk => kindAt_place_of_some hw c hk

theorem Typed.place (ht : h.Typed L) (hw : h.WellFormed) (hlv : c.object.LiveIn L h)
    (hpin : c.pinned = true ↔ c.object.kind = .cls) (hsize : 0 < c.size) : (h.place c).Typed L := by
  have hmono : ∀ o : Object, o.LiveIn L h → o.LiveIn L (h.place c) := fun o ho =>
    ho.mono fun _ _ _ hk => kindAt_place_of_some hw c hk
  constructor
  case live =>
    intro a o ho
    rw [get?_place] at ho
    split at ho
    · cases ho
      exact hmono _ hlv
    · exact hmono o (ht.live a o ho)
  case pinned =>
    intro a d hd
    rw [getElem?_place] at hd
    split at hd
    · cases hd
      exact hpin
    · exact ht.pinned a d hd
  case sized =>
    intro a d hd
    rw [getElem?_place] at hd
    split at hd
    · cases hd
      exact hsize
    · exact ht.sized a d hd

theorem grown_place (h : Heap) (c : Cell) : Grown h (h.place c) := by
  refine ⟨Nat.le_add_right _ _, fun a o ha ho => ?_⟩
  rw [get?_place, if_neg] at ho
  · exact ⟨o, ho, .refl o⟩
  · intro heq
    have heq : h.nextFree + 32 = a := heq
    omega

theorem Twin.place (ht : Twin L h1 h2) (hw1 : h1.WellFormed) (hw2 : h2.WellFormed)
    (hlive1 : c.object.LiveIn L h1) (hlive2 : c.object.LiveIn L h2)
    (hpin : c.pinned = true ↔ c.object.kind = .cls) (hsize : 0 < c.size) :
    Twin L (h1.place c) (h2.place c) := by
  have hnext : h1.nextAddress = h2.nextAddress := by rw [nextAddress, nextAddress, ht.next]
  refine ⟨ht.typed1.place hw1 hlive1 hpin hsize, ht.typed2.place hw2 hlive2 hpin hsize, ?_, ?_⟩
  · show h1.nextFree + _ = h2.nextFree + _
    rw [ht.next]
  · intro a c1 c2 hc1 hc2
    rw [getElem?_place] at hc1 hc2
    rw [hnext] at hc1
    split at hc1
    · rename_i heq
      rw [if_pos heq] at hc2
      exact Option.some.inj (hc1.symm.trans hc2)
    · rename_i hne
      rw [if_neg hne] at hc2
      exact ht.agree a c1 c2 hc1 hc2

/-! ## Changing -/

theorem get?_modify (h : Heap) (a b : Nat) (f : Object → Object) :
    (h.modify a f).get? b = if a = b then (h.get? b).map f else h.get? b := by
  unfold get?
  rw [getElem?_modify]
  split
  · cases h.cells[b]? <;> rfl
  · rfl

theorem kindAt_modify (h : Heap) (hkind : ∀ o, h.get? a = some o → (f o).kind = o.kind) (b : Nat) :
    (h.modify a f).kindAt b = h.kindAt b := by
  unfold kindAt
  rw [get?_modify]
  split
  · rename_i heq
    subst heq
    cases ho : h.get? a with
    | none => rfl
    | some o => exact congrArg some (hkind o ho)
  · rfl

theorem liveIn_modify (hkind : ∀ o, h.get? a = some o → (f o).kind = o.kind) (hv : v.LiveIn h) :
    v.LiveIn (h.modify a f) :=
  hv.mono fun b _ _ hk => (kindAt_modify h hkind b).trans hk

theorem Typed.modify (ht : h.Typed L) (hkind : ∀ o, h.get? a = some o → (f o).kind = o.kind)
    (hlv : ∀ o, h.get? a = some o → (f o).LiveIn L h) : (h.modify a f).Typed L := by
  have hmono : ∀ o : Object, o.LiveIn L h → o.LiveIn L (h.modify a f) := fun o ho =>
    ho.mono fun b _ _ hk => (kindAt_modify h hkind b).trans hk
  constructor
  case live =>
    intro b o ho
    rw [get?_modify] at ho
    split at ho
    · rename_i heq
      subst heq
      obtain ⟨p, hp, rfl⟩ := Option.map_eq_some_iff.mp ho
      exact hmono _ (hlv p hp)
    · exact hmono o (ht.live b o ho)
  case pinned =>
    intro b c hc
    rw [getElem?_modify] at hc
    split at hc
    · rename_i heq
      subst heq
      obtain ⟨d, hd, rfl⟩ := Option.map_eq_some_iff.mp hc
      rw [hkind d.object (get?_eq_some_iff.mpr ⟨d, hd, rfl⟩)]
      exact ht.pinned a d hd
    · exact ht.pinned b c hc
  case sized =>
    intro b c hc
    rw [getElem?_modify] at hc
    split at hc
    · obtain ⟨d, hd, rfl⟩ := Option.map_eq_some_iff.mp hc
      exact ht.sized b d hd
    · exact ht.sized b c hc

theorem grown_modify (h : Heap) (hf : ∀ o, h.get? a = some o → o.Becomes (f o)) :
    Grown h (h.modify a f) := by
  refine ⟨Nat.le_refl _, fun b o _ ho => ?_⟩
  rw [get?_modify] at ho
  split at ho
  · rename_i heq
    subst heq
    obtain ⟨p, hp, rfl⟩ := Option.map_eq_some_iff.mp ho
    exact ⟨p, hp, hf p hp⟩
  · exact ⟨o, ho, .refl o⟩

theorem Twin.modify (ht : Twin L h1 h2) (ho1 : h1.get? a = some o) (ho2 : h2.get? a = some o)
    (hkind : (f o).kind = o.kind) (hlive1 : (f o).LiveIn L h1) (hlive2 : (f o).LiveIn L h2) :
    Twin L (h1.modify a f) (h2.modify a f) := by
  have hof1 : ∀ p, h1.get? a = some p → p = o := fun p hp => Option.some.inj (hp.symm.trans ho1)
  have hof2 : ∀ p, h2.get? a = some p → p = o := fun p hp => Option.some.inj (hp.symm.trans ho2)
  refine ⟨ht.typed1.modify (fun p hp => hof1 p hp ▸ hkind) (fun p hp => hof1 p hp ▸ hlive1),
    ht.typed2.modify (fun p hp => hof2 p hp ▸ hkind) (fun p hp => hof2 p hp ▸ hlive2), ht.next, ?_⟩
  intro b c1 c2 hc1 hc2
  rw [getElem?_modify] at hc1 hc2
  split at hc1
  · rename_i heq
    rw [if_pos heq] at hc2
    obtain ⟨d1, hd1, rfl⟩ := Option.map_eq_some_iff.mp hc1
    obtain ⟨d2, hd2, rfl⟩ := Option.map_eq_some_iff.mp hc2
    rw [ht.agree b d1 d2 hd1 hd2]
  · rename_i hne
    rw [if_neg hne] at hc2
    exact ht.agree b c1 c2 hc1 hc2

end Heap

end Ember
