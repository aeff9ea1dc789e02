import Mathlib
import Ember.Heap.Links

/-!
# Ember — links that lead through a list

`Leads` ties links to the list of objects that they lead through. Every change that is made to links
in place is a change of that list: an object in front, or an object less.

Main results: `Links.leads_unlink`, `Links.unchain_eq`.
-/

namespace Ember

/-! ## Maps from numbers -/

namespace NatMap

variable {α β : Type} {a : Nat}

theorem getElem?_insert (m : NatMap α) (k a : Nat) (v : α) :
    (m.insert k v)[a]? = if k = a then some v else m[a]? := by
  simp [Std.TreeMap.getElem?_insert]

theorem getElem?_erase (m : NatMap α) (k a : Nat) :
    (m.erase k)[a]? = if k = a then none else m[a]? := by
  simp [Std.TreeMap.getElem?_erase]

theorem getElem?_alter (m : NatMap α) (k a : Nat) (v : Option α) :
    (m.alter k fun _ => v)[a]? = if k = a then v else m[a]? := by
  simp [Std.TreeMap.getElem?_alter]

theorem getElem?_modify (m : NatMap α) (k a : Nat) (f : α → α) :
    (m.modify k f)[a]? = if k = a then (m[a]?).map f else m[a]? := by
  rw [Std.TreeMap.getElem?_modify]
  by_cases h : k = a
  · subst h
    simp
  · simp [h]

theorem getElem?_map (m : NatMap α) (f : Nat → α → β) (a : Nat) :
    (Std.TreeMap.map f m)[a]? = (m[a]?).map (f a) := by
  rw [Std.TreeMap.getElem?_map]

theorem mem_iff_getElem? (m : NatMap α) (a : Nat) : a ∈ m ↔ ∃ v, m[a]? = some v := by
  rw [← Std.TreeMap.isSome_getElem?_iff_mem, Option.isSome_iff_exists]

theorem getElem?_eq_none (m : NatMap α) (h : a ∉ m) : m[a]? = none := by
  rw [mem_iff_getElem?] at h
  cases hm : m[a]? with
  | none => rfl
  | some v => exact absurd ⟨v, hm⟩ h

end NatMap

namespace Links

variable {a b region count n : Nat} {next next' : NatMap Address} {start : Option Address}
  {l before rest : List Nat} {known : Address → Bool}

/-! ## Following links -/

/-- Links lead from a start through a list of objects, and end there. -/
def Leads (next : NatMap Address) : Option Address → List Address → Prop
  | start, [] => start = none
  | start, a :: rest => start = some a ∧ Leads next next[a]? rest

/-- The objects that links lead to from a start, at most so many. -/
def follow (next : NatMap Address) : Nat → Option Address → List Address
  | n + 1, some a => a :: follow next n next[a]?
  | _, _ => []

theorem length_follow_le (next : NatMap Address) (n : Nat) (start : Option Address) :
    (follow next n start).length ≤ n := by
  induction n generalizing start with
  | zero => simp [follow]
  | succ n ih =>
    cases start with
    | none => simp [follow]
    | some a => simpa [follow] using ih next[a]?

theorem search_eq (p : Address → Bool) (next : NatMap Address) (n : Nat) (start : Option Address) :
    search p next n start = (follow next n start).find? p := by
  induction n generalizing start with
  | zero => simp [search, follow]
  | succ n ih =>
    cases start with
    | none => simp [search, follow]
    | some a =>
      rw [search, follow, List.find?_cons, ih]
      cases p a <;> rfl

namespace Leads

theorem start_eq (hl : Leads next start l) : start = l.head? := by
  cases l with
  | nil => exact hl
  | cons a rest => exact hl.1

theorem follow_eq (hl : Leads next start l) (hn : l.length ≤ n) : follow next n start = l := by
  induction l generalizing start n with
  | nil =>
    rw [show start = none from hl]
    cases n <;> rfl
  | cons a rest ih =>
    -- the list is no longer than the bound, so a step is left for every object
    obtain ⟨n, rfl⟩ : ∃ m, n = m + 1 := ⟨n - 1, by simp at hn; omega⟩
    rw [hl.1, follow, ih hl.2 (by simpa using hn)]

theorem congr (hl : Leads next start l) (he : ∀ a ∈ l, next'[a]? = next[a]?) :
    Leads next' start l := by
  induction l generalizing start with
  | nil => exact hl
  | cons a rest ih =>
    refine ⟨hl.1, ?_⟩
    rw [he a (List.mem_cons_self ..)]
    exact ih hl.2 fun b hb => he b (.tail _ hb)

theorem of_append (hl : Leads next start (before ++ a :: rest)) : Leads next next[a]? rest := by
  induction before generalizing start with
  | nil => exact hl.2
  | cons b before ih => exact ih hl.2

theorem push (hl : Leads next start l) (ha : a ∉ l) :
    Leads (next.alter a fun _ => start) (some a) (a :: l) := by
  refine ⟨rfl, ?_⟩
  rw [NatMap.getElem?_alter, if_pos rfl]
  -- the old list does not meet the new object, so its links are as before
  refine hl.congr fun b hb => ?_
  have hne : a ≠ b := fun h => ha (h ▸ hb)
  rw [NatMap.getElem?_alter, if_neg hne]

theorem bypass (hl : Leads next start (before ++ b :: a :: rest))
    (hnd : (before ++ b :: a :: rest).Nodup) :
    Leads (next.alter b fun _ => next[a]?) start (before ++ b :: rest) := by
  induction before generalizing start with
  | nil =>
    obtain ⟨hst, -, hrest⟩ := hl
    refine ⟨hst, ?_⟩
    rw [NatMap.getElem?_alter, if_pos rfl]
    -- only the link of `b` is rewritten, and `b` does not occur again
    refine hrest.congr fun x hx => ?_
    have hne : b ≠ x := by
      rintro rfl
      exact (List.nodup_cons.mp hnd).1 (.tail _ hx)
    rw [NatMap.getElem?_alter, if_neg hne]
  | cons x before ih =>
    have hne : b ≠ x := by
      rintro rfl
      exact (List.nodup_cons.mp hnd).1 (by simp)
    refine ⟨hl.1, ?_⟩
    rw [NatMap.getElem?_alter, if_neg hne]
    exact ih hl.2 (List.nodup_cons.mp hnd).2

theorem head?_ne (hnd : (before ++ b :: a :: rest).Nodup) :
    (before ++ b :: a :: rest).head? ≠ some a := by
  intro hhead
  cases before with
  | nil => simp_all
  | cons x before => simp_all

theorem bypass_eq (hl : Leads next start (before ++ b :: a :: rest))
    (hnd : (before ++ b :: a :: rest).Nodup) (hknown : ∀ x ∈ before ++ [b], known x = true)
    (hn : before.length < n) :
    Links.bypass known next a n start = .ok (next.alter b fun _ => next[a]?) := by
  induction before generalizing start n with
  | nil =>
    obtain ⟨n, rfl⟩ : ∃ m, n = m + 1 := ⟨n - 1, by simp at hn; omega⟩
    rw [hl.1, Links.bypass, hknown b (by simp), hl.2.1]
    simp
  | cons x before ih =>
    obtain ⟨n, rfl⟩ : ∃ m, n = m + 1 := ⟨n - 1, by simp at hn; omega⟩
    -- `x` leads to the first object of what follows, which is not `a` yet
    have hne : next[x]? ≠ some a := by
      rw [hl.2.start_eq]
      exact head?_ne (List.nodup_cons.mp hnd).2
    rw [hl.1, Links.bypass, hknown x (by simp), if_neg hne]
    exact ih hl.2 (List.nodup_cons.mp hnd).2 (fun y hy => hknown y (.tail _ hy))
      (by simpa using hn)

end Leads

/-! ## An object less -/

/-- Unlinking takes an object off the list, if what it is said to follow is in front of it. -/
theorem leads_unlink {links : Links} (hl : Leads links.next links.head (before ++ a :: rest))
    (hnd : (before ++ a :: rest).Nodup) :
    Leads (links.unlink before.getLast? a).next (links.unlink before.getLast? a).head
      (before ++ rest) := by
  -- the head moves if the object is first, else the link in front of it
  rcases List.eq_nil_or_concat before with rfl | ⟨front, b, rfl⟩
  · exact hl.2
  · simp only [List.concat_eq_append, List.append_assoc, List.singleton_append] at hl hnd ⊢
    rw [List.getLast?_append_cons]
    exact hl.bypass hnd

/-- **Unchaining is exact**: it takes an object out of the chain of its region, wherever it stands in
it, and leaves the other chains and the list of all objects alone. -/
theorem unchain_eq (links : Links) (known : Address → Bool) (count : Nat) (chain : Nat → List Nat)
    (hl : ∀ r, Leads links.nextInRegion links.heads[r]? (chain r)) (hnd : ∀ r, (chain r).Nodup)
    (hapart : ∀ r x, x ∈ chain r → x ∈ chain region → r = region)
    (hknown : ∀ x ∈ chain region, known x = true) (hcnt : (chain region).length ≤ count)
    (ha : a ∈ chain region) :
    ∃ links', links.unchain known count a region = .ok links' ∧ links'.next = links.next ∧
      links'.head = links.head ∧
      ∀ r, Leads links'.nextInRegion links'.heads[r]? ((chain r).filter (· ≠ a)) := by
  obtain ⟨before, rest, hsplit⟩ := List.append_of_mem ha
  have hchain := hl region
  have hdist := hnd region
  rw [hsplit] at hchain hdist hknown hcnt
  -- the object is in no other chain, and occurs once in its own
  have hout : ∀ r, r ≠ region → (chain r).filter (· ≠ a) = chain r := by
    intro r hr
    refine List.filter_eq_self.mpr fun x hx => ?_
    have : x ≠ a := fun h => hr (hapart r x hx (h ▸ ha))
    simpa using this
  have hown : (chain region).filter (· ≠ a) = before ++ rest := by
    have hfront : ∀ x ∈ before, x ≠ a := fun x hx h =>
      (List.nodup_append.mp hdist).2.2 x hx a (List.mem_cons_self ..) h
    have hback : ∀ x ∈ rest, x ≠ a := fun x hx h =>
      (List.nodup_cons.mp (List.nodup_append.mp hdist).2.1).1 (h ▸ hx)
    have hkeep : (before ++ rest).filter (· ≠ a) = before ++ rest := by
      refine List.filter_eq_self.mpr fun x hx => decide_eq_true ?_
      exact (List.mem_append.mp hx).elim (hfront x) (hback x)
    rw [hsplit, List.filter_append, List.filter_cons_of_neg (by simp), ← List.filter_append, hkeep]
  rcases List.eq_nil_or_concat before with rfl | ⟨front, b, rfl⟩
  · -- the newest object of the region: the region starts behind it
    have hhead : links.heads[region]? = some a := hchain.1
    refine ⟨_, if_pos hhead, rfl, rfl, fun r => ?_⟩
    by_cases hr : r = region
    · subst hr
      rw [hown]
      show Leads _ (links.heads.alter r fun _ => _)[r]? _
      rw [NatMap.getElem?_alter, if_pos rfl]
      exact hchain.2
    · rw [hout r hr]
      show Leads _ (links.heads.alter region fun _ => _)[r]? _
      rw [NatMap.getElem?_alter, if_neg (Ne.symm hr)]
      exact hl r
  · -- an older one: the object in front of it leads past it
    simp only [List.concat_eq_append, List.append_assoc, List.singleton_append] at hchain hdist hknown
    have hhead : links.heads[region]? ≠ some a := by
      rw [hchain.start_eq]
      exact Leads.head?_ne hdist
    have hwalk := hchain.bypass_eq (n := count) hdist
      (fun x hx => hknown x (by
        rcases List.mem_append.mp hx with hx | hx
        · exact List.mem_append_left _ hx
        · simp [List.mem_singleton.mp hx]))
      (by simp at hcnt; omega)
    refine ⟨{ links with nextInRegion := links.nextInRegion.alter b fun _ => links.nextInRegion[a]? },
      ?_, rfl, rfl, fun r => ?_⟩
    · rw [unchain, if_neg hhead, hwalk]
      rfl
    · by_cases hr : r = region
      · subst hr
        rw [hown]
        simpa using hchain.bypass hdist
      · rw [hout r hr]
        refine (hl r).congr fun x hx => ?_
        have hne : b ≠ x := by
          rintro rfl
          exact hr (hapart r b hx (by rw [hsplit]; simp))
        rw [NatMap.getElem?_alter, if_neg hne]

end Links

end Ember
