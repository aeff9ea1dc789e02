import Ember.Proofs.Ir.Ssa

/-!
# Ember — references to the module

Instructions refer to texts, to slots and to functions of their module. In code that fits a
certificate every reference leads to something: the text is pooled, the slot is declared, and the
function is one of those that the program defines.

Main result: `Function.Certified.resolves`.
-/

namespace Ember.Ir

variable {known : Nat → Prop} {symbol : String} {t : Typed}

variable {I : Interface} {G : List String} {k : Convention} {c : Cert} {b : Nat} {x : Context}
  {before : List Instr} {i : Instr} {f : Function}

/-- What an instruction calls. -/
def Instr.callee? : Instr → Option Callee
  | .call _ _ callee _ => some callee
  | _ => none

/-- What an operand refers to. -/
def Operand.reference? : Operand → Option GlobalRef
  | .global g => some g
  | _ => none

/-- What a callee refers to. -/
def Callee.reference? : Callee → Option GlobalRef
  | .function symbol => some (.function symbol)
  | _ => none

/-- What an instruction refers to: by its operands, and by the function that it calls. -/
def Instr.references (i : Instr) : List GlobalRef :=
  i.uses.filterMap (·.operand.reference?) ++ (i.callee?.bind Callee.reference?).toList

/-- References to pooled texts, to declared slots and to functions that are defined. -/
def Interface.Resolves (I : Interface) (G : List String) : GlobalRef → Prop
  | .text id => id < I.texts
  | .slot symbol => symbol ∈ G
  | .function symbol => ∃ k : Convention, k.Names I symbol

/-- An operand that refers to nothing, or to something that is there. -/
def Resolved (I : Interface) (G : List String) (t : Typed) : Prop :=
  ∀ g, t.operand.reference? = some g → I.Resolves G g

theorem Cert.Gives.resolved {ρ : Role} (ht : c.Gives I known t ρ) : Resolved I G t := by
  intro g hg
  cases ht with
  | text pooled =>
    cases hg
    exact pooled
  | reg | int | bool | float | operator => cases hg

theorem Cert.Keeps.resolved {o : Operand} (ho : c.Keeps G o) (ty : Ty) :
    Resolved I G ⟨ty, o⟩ := by
  intro g hg
  cases ho with
  | slot => cases hg
  | global declared =>
    cases hg
    exact declared

theorem resolved_of_forall₂ {arguments : List Typed} {ρs : List Role}
    (hgvn : List.Forall₂ (c.Gives I known) arguments ρs) : ∀ t ∈ arguments, Resolved I G t := by
  induction hgvn with
  | nil => exact nofun
  | cons ht _ ih => exact List.forall_mem_cons.mpr ⟨ht.resolved, ih⟩

theorem resolved_of_none (ht : t.operand.reference? = none) : Resolved I G t :=
  fun _ hg => nomatch ht.symm.trans hg

theorem resolved_function (hk : k.Names I symbol) :
    Resolved I G ⟨.ptr, .global (.function symbol)⟩ := by
  intro g hg
  cases hg
  exact ⟨k, hk⟩

theorem Fits.resolved (hi : Fits I G k c b x before i) : ∀ t ∈ i.uses, Resolved I G t := by
  cases hi with
  | load steady role place => exact List.forall_mem_singleton.mpr (place.resolved _)
  | store steady value place =>
    exact List.forall_mem_cons.mpr ⟨value.resolved, List.forall_mem_singleton.mpr (place.resolved _)⟩
  | storeEntry steady value | storeResult steady inner value | storeCell steady value =>
    exact List.forall_mem_cons.mpr ⟨value.resolved,
      List.forall_mem_singleton.mpr (resolved_of_none rfl)⟩
  | compare steady role left right | arith steady role left right =>
    refine List.forall_mem_cons.mpr ⟨left.resolved, List.forall_mem_singleton.mpr ?_⟩
    exact right.resolved
  | ordinary steady signature given => exact resolved_of_forall₂ given
  | buffered steady around ahead behind =>
    refine List.forall_mem_append.mpr ⟨resolved_of_forall₂ ahead, ?_⟩
    exact List.forall_mem_cons.mpr ⟨resolved_of_none rfl,
      List.forall_mem_cons.mpr ⟨resolved_of_none rfl, resolved_of_forall₂ behind⟩⟩
  | addField steady given named =>
    have hgvn := resolved_of_forall₂ (G := G) given
    simp only [List.forall_mem_cons] at hgvn
    obtain ⟨hcls, hname, hhidden, -⟩ := hgvn
    simp only [Instr.uses, List.forall_mem_cons]
    exact ⟨hcls, hname, resolved_function (k := .field) named, hhidden, (by simp)⟩
  | @addMethod _ _ _ _ arity steady given named =>
    have hgvn := resolved_of_forall₂ (G := G) given
    simp only [List.forall_mem_cons] at hgvn
    obtain ⟨hcls, hname, hhidden, -⟩ := hgvn
    simp only [Instr.uses, List.forall_mem_cons]
    exact ⟨hcls, hname, resolved_function (k := .method arity) named, resolved_of_none rfl, hhidden,
      (by simp)⟩
  | math steady role given => exact List.forall_mem_singleton.mpr given.resolved
  | function steady named values =>
    intro t ht
    obtain ⟨r, hr, rfl⟩ := List.mem_map.mp ht
    exact (values r hr).resolved
  | loadArgument | loadCell | extract | setjmp | choose | branch =>
    exact List.forall_mem_singleton.mpr (resolved_of_none rfl)
  | entry | argument | entered =>
    exact List.forall_mem_cons.mpr ⟨resolved_of_none rfl,
      List.forall_mem_singleton.mpr (resolved_of_none rfl)⟩
  | tryPush | tryPop | jump | leave | raised | dead | comment =>
    exact fun _ h => by cases h

theorem Fits.called (hi : Fits I G k c b x before i) {symbol : String}
    (hcal : i.callee? = some (.function symbol)) : I.Resolves G (.function symbol) := by
  cases hi with
  | @function _ symbol' rs steady named =>
    obtain rfl : symbol' = symbol := Callee.function.inj (Option.some.inj hcal)
    exact ⟨.function rs.length, named⟩
  | _ => cases hcal

theorem Opens.resolved (hi : Opens G k c before i) : ∀ t ∈ i.uses, Resolved I G t := by
  cases hi with
  | slots | cell | gcInit => exact nofun
  | globalRoot main declared =>
    refine List.forall_mem_singleton.mpr fun g hg => ?_
    cases hg
    exact declared
  | root | bottom => exact List.forall_mem_singleton.mpr (resolved_of_none rfl)
  | clear | setArgs =>
    exact List.forall_mem_cons.mpr ⟨resolved_of_none rfl,
      List.forall_mem_singleton.mpr (resolved_of_none rfl)⟩

theorem Closes.resolved (hi : Closes k c before i) : ∀ t ∈ i.uses, Resolved I G t := by
  cases hi <;> exact List.forall_mem_singleton.mpr (resolved_of_none rfl)

theorem Function.Certified.resolves (hf : f.Certified I G k c) (hi : i ∈ f.instrs) {g : GlobalRef}
    (hg : g ∈ i.references) : I.Resolves G g := by
  obtain ⟨b, j, hat⟩ := exists_at_of_mem hi
  obtain ⟨block, -, hstd⟩ := hf.stands hat
  suffices h : (∀ t ∈ i.uses, Resolved I G t) ∧
      ∀ symbol, i.callee? = some (.function symbol) → I.Resolves G (.function symbol) by
    rcases List.mem_append.mp hg with hg | hg
    · obtain ⟨t, ht, hg⟩ := List.mem_filterMap.mp hg
      exact h.1 t ht g hg
    · obtain ⟨callee, hcal, hg⟩ := Option.bind_eq_some_iff.mp (Option.mem_toList.mp hg)
      cases callee with
      | function symbol =>
        cases hg
        exact h.2 symbol hcal
      | entry | intrinsic => cases hg
  rw [Stands] at hstd
  split at hstd
  · rcases hstd with ⟨rfl, -⟩ | ⟨hopens, -⟩
    · exact ⟨fun _ h => (by cases h), fun _ h => by cases h⟩
    · refine ⟨hopens.resolved, fun symbol hcal => ?_⟩
      cases hopens <;> cases hcal
  · split at hstd
    · refine ⟨hstd.resolved, fun symbol hcal => ?_⟩
      cases hstd <;> cases hcal
    · obtain ⟨x, -, hfits, -⟩ := hstd
      exact ⟨hfits.resolved, fun _ => hfits.called⟩

end Ember.Ir
