import Ember.Proofs.Machine.Tower

/-!
# Ember — who has which slot

A slot belongs to a function in progress, to the arguments of a method in progress, to a global of the
program, or it is spare. Slots go from one holder to the next on calls, on returns and when a raise
leaves functions behind, and at no time has a slot two holders. What a function points to belongs to
it, or holds the arguments of the method that it runs.

Main results: `Tenure.put`, `Tenure.enter`, `Tenure.give`, `Tenure.take`.
-/

namespace Ember.Ir

/-- Roles of the pointers to what a method was passed. -/
def Role.isPassed : Role → Bool
  | .arguments _ | .argument => true
  | _ => false

end Ember.Ir

namespace Ember.Machine

open Ir (Role)

variable {d i : Nat} {ρ : Role} {s : Scalar}

/-- The slots of something in progress. -/
def Entry.slots : Entry → Array Nat
  | .body a => a.owned
  | .method slots _ => slots
  | .field .. | .made _ => #[]

/-- The slots of everything in progress, of the globals and the spare ones. -/
def holdings (image : Image) (spare : List Nat) (control : List Entry) : List Nat :=
  (control.flatMap fun e => e.slots.toList) ++ image.globals.map Prod.snd ++ spare

/-- A register points to a cell of some slots. -/
def Activation.PointsTo (a : Activation) (r : Nat) (slots : Array Nat) : Prop :=
  ∃ offset, a.registers[r]? = some (some (.ptr (.values slots offset)))

/-- Where a pointer of a role may lead: to slots of its function, or to the arguments of the method
that the function runs. -/
def Leads (a : Activation) (rest : List Entry) (ρ : Role) (slots : Array Nat) : Prop :=
  (∀ i ∈ slots, i ∈ a.owned) ∨
    ρ.isPassed = true ∧ ∃ depth below, rest = .method slots depth :: below

/-- Every slot has one holder, of `size` slots that there are, and the pointers of functions lead where
they may. -/
structure Tenure (W : World) (size : Nat) (spare : List Nat) (control : List Entry) : Prop where
  apart : (holdings W.image spare control).Nodup
  inside : ∀ i ∈ holdings W.image spare control, i < size
  leads : ∀ a rest, .body a :: rest <:+ control → ∀ r ρ slots, (W.cert a).HasRole r ρ →
    a.PointsTo r slots → Leads a rest ρ slots

/-- Slots that were taken from the spare ones and from new ones. -/
def Drawn (size size' : Nat) (spare spare' added : List Nat) : Prop :=
  ∃ fresh, (added ++ spare').Perm (spare ++ fresh) ∧ fresh.Nodup ∧
    ∀ i ∈ fresh, size ≤ i ∧ i < size'

variable {W : World} {a b : Activation} {size size' size'' : Nat} {spare spare' spare'' : List Nat}
  {control rest : List Entry} {e : Entry} {added added' : List Nat}

namespace Drawn

theorem refl (size : Nat) (spare : List Nat) : Drawn size size spare spare [] :=
  ⟨[], by simp, .nil, (by simp)⟩

theorem trans (hd : Drawn size size' spare spare' added) (hd' : Drawn size' size'' spare' spare'' added')
    (hle : size ≤ size') (hle' : size' ≤ size'') :
    Drawn size size'' spare spare'' (added ++ added') := by
  obtain ⟨fresh, hperm, hnd, hfresh⟩ := hd
  obtain ⟨fresh', hperm', hnodup', hfresh'⟩ := hd'
  refine ⟨fresh ++ fresh', List.perm_iff_count.mpr fun i => ?_, ?_, fun i hi => ?_⟩
  · have := List.perm_iff_count.mp hperm i
    have := List.perm_iff_count.mp hperm' i
    simp only [List.count_append] at *
    omega
  · refine hnd.append hnodup' fun i hi hi' => ?_
    have := (hfresh i hi).2
    have := (hfresh' i hi').1
    omega
  · rcases List.mem_append.mp hi with hi | hi
    · exact ⟨(hfresh i hi).1, (hfresh i hi).2.trans_le hle'⟩
    · exact ⟨hle.trans (hfresh' i hi).1, (hfresh' i hi).2⟩

theorem lt (hd : Drawn size size' spare spare' added) (hspare : ∀ i ∈ spare, i < size)
    (hle : size ≤ size') (hi : i ∈ added ++ spare') : i < size' := by
  obtain ⟨fresh, hperm, -, hfresh⟩ := hd
  rcases List.mem_append.mp (hperm.subset hi) with hi | hi
  · exact (hspare i hi).trans_le hle
  · exact (hfresh i hi).2

end Drawn

theorem giveBack_eq (slots : Array Nat) (spare : List Nat) :
    giveBack slots spare = slots.toList.reverse ++ spare := by
  unfold giveBack
  rw [← Array.foldl_toList]
  generalize slots.toList = l
  induction l generalizing spare with
  | nil => rfl
  | cons i l ih => rw [List.foldl_cons, ih, List.reverse_cons, List.append_assoc, List.singleton_append]

theorem Activation.pointsTo_put {r : Nat} {slots : Array Nat} (hd : d < a.registers.size)
    (hr : (a.put d s).PointsTo r slots) :
    (r = d ∧ ∃ offset, s = .ptr (.values slots offset)) ∨ a.PointsTo r slots := by
  obtain ⟨offset, hr⟩ := hr
  rw [getElem?_put hd] at hr
  split at hr
  · next heq => exact .inl ⟨heq, offset, Option.some.inj (Option.some.inj hr)⟩
  · exact .inr ⟨offset, hr⟩

namespace Tenure

theorem spare_lt (ht : Tenure W size spare control) (hi : i ∈ spare) : i < size :=
  ht.inside i (List.mem_append_right _ hi)

theorem mono (ht : Tenure W size spare control) (hle : size ≤ size') : Tenure W size' spare control :=
  ⟨ht.apart, fun i hi => (ht.inside i hi).trans_le hle, ht.leads⟩

theorem change (ht : Tenure W size spare control) (hle : size ≤ size') {control' : List Entry}
    (fresh : List Nat)
    (hperm : (holdings W.image spare' control').Perm (holdings W.image spare control ++ fresh))
    (hnd : fresh.Nodup) (hfresh : ∀ i ∈ fresh, size ≤ i ∧ i < size')
    (hleads : ∀ a rest, .body a :: rest <:+ control' → ∀ r ρ slots, (W.cert a).HasRole r ρ →
      a.PointsTo r slots → Leads a rest ρ slots) : Tenure W size' spare' control' := by
  refine ⟨hperm.nodup_iff.mpr (ht.apart.append hnd fun i hi hi' => ?_), fun i hi => ?_, hleads⟩
  · have := ht.inside i hi
    have := (hfresh i hi').1
    omega
  · rcases List.mem_append.mp (hperm.subset hi) with hi | hi
    · exact (ht.inside i hi).trans_le hle
    · exact (hfresh i hi).2

section

variable (ht : Tenure W size spare (.body a :: rest))

include ht

theorem top (howned : b.owned = a.owned)
    (hleads : ∀ r ρ slots, (W.cert b).HasRole r ρ → b.PointsTo r slots → Leads a rest ρ slots) :
    Tenure W size spare (.body b :: rest) := by
  have hslt : holdings W.image spare (.body b :: rest) = holdings W.image spare (.body a :: rest) := by
    simp only [holdings, List.flatMap_cons, Entry.slots, howned]
  refine ⟨hslt ▸ ht.apart, hslt ▸ ht.inside, fun c below hsuf => ?_⟩
  rcases List.suffix_cons_iff.mp hsuf with heq | hsuf
  · cases heq
    intro r ρ slots hρ hr
    unfold Leads
    rw [howned]
    exact hleads r ρ slots hρ hr
  · exact ht.leads c below (hsuf.trans (List.suffix_cons _ _))

theorem move (howned : b.owned = a.owned)
    (hrout : b.routine = a.routine) (hregs : b.registers = a.registers) :
    Tenure W size spare (.body b :: rest) := by
  refine ht.top howned fun r ρ slots hρ hr => ht.leads a rest (List.suffix_refl _) r ρ slots ?_ ?_
  · rwa [World.cert, hrout] at hρ
  · rwa [Activation.PointsTo, hregs] at hr

theorem put (hd : d < a.registers.size) (hρ : (W.cert a).HasRole d ρ)
    (hs : ∀ slots offset, s = .ptr (.values slots offset) → Leads a rest ρ slots) :
    Tenure W size spare (.body (a.put d s).next :: rest) := by
  refine ht.top rfl fun r σ slots hσ hr => ?_
  rcases Activation.pointsTo_put hd hr with ⟨rfl, offset, hslt⟩ | hr
  · obtain rfl := hρ.unique hσ
    exact hs slots offset hslt
  · exact ht.leads a rest (List.suffix_refl _) r σ slots hσ hr

theorem moved {s : Nat} {σ : Role} {slots : Array Nat}
    (hρ : (W.cert a).HasRole s ρ) (hs : a.PointsTo s slots)
    (hkind : ρ.isPassed = true → σ.isPassed = true) {offset : Nat} (slots' : Array Nat)
    (offset' : Nat) (heq : Scalar.ptr (.values slots offset) = .ptr (.values slots' offset')) :
    Leads a rest σ slots' := by
  cases heq
  exact (ht.leads a rest (List.suffix_refl _) s ρ slots hρ hs).imp_right fun h => ⟨hkind h.1, h.2⟩

end

theorem enter (ht : Tenure W size spare control) (howned : a.owned = #[])
    (hleads : ∀ r ρ slots, (W.cert a).HasRole r ρ → a.PointsTo r slots → Leads a control ρ slots) :
    Tenure W size spare (.body a :: control) := by
  have hslt : holdings W.image spare (.body a :: control) = holdings W.image spare control := by
    simp [holdings, Entry.slots, howned]
  refine ⟨hslt ▸ ht.apart, hslt ▸ ht.inside, fun c below hsuf => ?_⟩
  rcases List.suffix_cons_iff.mp hsuf with heq | hsuf
  · cases heq
    exact hleads
  · exact ht.leads c below hsuf

theorem give (ht : Tenure W size spare (e :: rest)) : Tenure W size (giveBack e.slots spare) rest := by
  refine ht.change (Nat.le_refl _) [] (List.perm_iff_count.mpr fun i => ?_) .nil (by simp)
    fun a below hsuf => ht.leads a below (hsuf.trans (List.suffix_cons _ _))
  simp only [holdings, giveBack_eq, List.flatMap_cons, List.count_append, List.count_reverse,
    List.count_nil]
  omega

theorem making (he : e.slots = #[]) (hbody : ∀ a, e ≠ .body a) :
    Tenure W size spare (e :: rest) ↔ Tenure W size spare rest := by
  have hslt : holdings W.image spare (e :: rest) = holdings W.image spare rest := by
    simp [holdings, he]
  constructor
  · exact fun ht => ⟨hslt ▸ ht.apart, hslt ▸ ht.inside, fun a below hsuf =>
      ht.leads a below (hsuf.trans (List.suffix_cons _ _))⟩
  · refine fun ht => ⟨hslt ▸ ht.apart, hslt ▸ ht.inside, fun a below hsuf => ?_⟩
    rcases List.suffix_cons_iff.mp hsuf with heq | hsuf
    · exact absurd (List.cons.inj heq).1.symm (hbody a)
    · exact ht.leads a below hsuf

theorem take {slots : Array Nat} (ht : Tenure W size spare control)
    (hdrawn : Drawn size size' spare spare' slots.toList) (hle : size ≤ size') (depth : Nat) :
    Tenure W size' spare' (.method slots depth :: control) := by
  obtain ⟨fresh, hperm, hnd, hfresh⟩ := hdrawn
  refine ht.change hle fresh (List.perm_iff_count.mpr fun i => ?_) hnd hfresh fun a below hsuf => ?_
  · have := List.perm_iff_count.mp hperm i
    simp only [holdings, List.flatMap_cons, Entry.slots, List.count_append] at *
    omega
  · rcases List.suffix_cons_iff.mp hsuf with heq | hsuf
    · cases (List.cons.inj heq).1
    · exact ht.leads a below hsuf

theorem allot {slots : Array Nat} (ht : Tenure W size spare (.body a :: rest))
    (hdrawn : Drawn size size' spare spare' slots.toList) (hle : size ≤ size') :
    Tenure W size' spare' (.body { a with owned := a.owned ++ slots } :: rest) := by
  obtain ⟨fresh, hperm, hnd, hfresh⟩ := hdrawn
  refine ht.change hle fresh (List.perm_iff_count.mpr fun i => ?_) hnd hfresh fun c below hsuf => ?_
  · have := List.perm_iff_count.mp hperm i
    simp only [holdings, List.flatMap_cons, Entry.slots, Array.toList_append, List.count_append] at *
    omega
  · rcases List.suffix_cons_iff.mp hsuf with heq | hsuf
    · cases heq
      intro r ρ slots' hρ hr
      refine (ht.leads a rest (List.suffix_refl _) r ρ slots' hρ hr).imp_left fun howned i hi => ?_
      exact Array.mem_append_left _ (howned i hi)
    · exact ht.leads c below (hsuf.trans (List.suffix_cons _ _))

end Tenure

end Ember.Machine
