import Ember.Proofs.Ir.Reference
import Ember.Proofs.Lowering.Program
import Ember.Proofs.Lowering.Verdict

/-!
# Ember — what compilation produces

The construction of code is never misused, whatever the program. What it constructs is well formed,
and every number of a text that the code mentions stands for the text that was looked up.

Main result: `lower_constants`.
-/

namespace Ember

variable {id : Nat}

namespace Ir

/-- An instruction reads the text of a number. -/
def Instr.Mentions (i : Instr) (id : Nat) : Prop :=
  ∃ ty, ⟨ty, .global (.text id)⟩ ∈ i.uses

theorem Function.Certified.pooled {I : Interface} {G : List String} {k : Convention}
    {c : Cert} {f : Function} (hf : f.Certified I G k c) {i : Instr} (hi : i ∈ f.instrs)
    (hid : i.Mentions id) : id < I.texts := by
  obtain ⟨ty, hmem⟩ := hid
  have hreference : .text id ∈ i.references :=
    List.mem_append_left _ (List.mem_filterMap.mpr ⟨_, hmem, rfl⟩)
  exact hf.resolves hi hreference

end Ir

namespace Pool

variable {π : Pool} {text : String} {texts : List String}

/-- No text has two numbers. -/
def Single (π : Pool) : Prop :=
  π.texts.toList.Nodup

theorem Single.intern (h : π.Single) (text : String) : (π.intern text).Single := by
  unfold Pool.intern
  split
  · exact h
  · next hnone =>
    have hnot : text ∉ π.texts.toList := by
      rw [Table.toList, Array.mem_toList_iff, ← mem_iff]
      rintro ⟨id, hid⟩
      cases hid.symm.trans hnone
    show (π.texts.entries.push text).toList.Nodup
    rw [Array.toList_push]
    exact (Lowering.nodup_concat_iff h).mpr hnot

theorem Single.internAll (h : π.Single) (texts : List String) : (π.internAll texts).Single := by
  unfold Pool.internAll
  induction texts generalizing π with
  | nil => exact h
  | cons text rest ih => exact ih (h.intern text)

theorem Single.lookup (h : π.Single) (hid : id < π.texts.size) :
    ∃ text, π.texts.get? id = some text ∧ π.lookup text = .ok id := by
  have hlt : id < π.texts.entries.size := hid
  refine ⟨π.texts.entries[id], Array.getElem?_eq_getElem hlt, ?_⟩
  have hfind : π.find? π.texts.entries[id] = some id := by
    refine Array.findIdx?_eq_some_iff_getElem.mpr ⟨hlt, beq_self_eq_true _, fun j hj heq => ?_⟩
    -- An earlier number would be a second one of the text.
    have hinj : j = id := h.getElem_inj_iff.mp (beq_iff_eq.mp heq)
    exact absurd hinj (Nat.ne_of_lt hj)
  unfold Pool.lookup
  rw [hfind]

end Pool

namespace Program

open Lowering

theorem single_pool (p : Program) : p.pool.Single :=
  (show Pool.Single {} from List.nodup_nil).internAll p.constants

/-- A program with a text in it. -/
def greeting : Program :=
  let here : Location := ⟨"greeting.em", 1⟩
  [.expr here (.call here "print" [.literal here (.str "hello")])]

/-- Its code. -/
def greetingModule : Ir.Module :=
  (greeting.lower false).toOption.getD default

theorem lower_greeting : greeting.lower false = .ok greetingModule := by
  have hsome : (greeting.lower false).toOption.isSome = true := by decide +kernel
  unfold greetingModule
  cases hlow : greeting.lower false with
  | error e => simp [hlow, Except.toOption] at hsome
  | ok m => rfl

/-- The construction of code is never misused, and a compiled program is well-formed code. -/
theorem lower_wellFormed (p : Program) (annotate : Bool) :
    (∀ fault, p.lower annotate ≠ .error (.fault fault)) ∧
      ∀ m, p.lower annotate = .ok m → ∀ f ∈ m.functions, f.WellFormed := by
  constructor
  · intro fault hflt
    rcases p.lower_cases annotate with ⟨-, m, heq, -⟩ | ⟨-, d, heq, -⟩
    · cases heq.symm.trans hflt
    · cases heq.symm.trans hflt
  · intro m hm f hf
    obtain ⟨-, κ, hκ⟩ := certified_of_lower hm
    exact (hκ.functions f hf).wellFormed

/-- A loop around a protected region with a branch in it, which raises or leaves the loop. -/
def looping : Program :=
  let here : Location := ⟨"looping.em", 1⟩
  let n := Expr.ident here "n"
  let int (k : Int64) := Expr.literal here (.int k)
  [.var here "n" (some (int 0)),
    .loop here (.binary here (.apply .less) n (int 3)) [
      .guarded here [.branch here (.binary here (.apply .equal) n (int 1)) [.raise here n] [.leave here]]
        "e" [.expr here (.call here "print" [.ident here "e"])],
      .assign here n (.binary here (.apply .add) n (int 1))]]

theorem lower_wellFormed_looping : ∃ m, looping.lower false = .ok m ∧
    (m.functions.any fun f => 12 ≤ f.blocks.size) ∧ ∀ f ∈ m.functions, f.WellFormed := by
  have hlarge : (looping.lower false).toOption.any
      (fun m => m.functions.any fun f => 12 ≤ f.blocks.size) = true := by
    decide +kernel
  cases hlow : looping.lower false with
  | error e => simp [hlow, Except.toOption] at hlarge
  | ok m =>
    rw [hlow] at hlarge
    exact ⟨m, rfl, hlarge, (lower_wellFormed looping false).2 m hlow⟩

/-- Every text that is looked up is pooled, and what a compiled program says of a text by its number
is said of the text that was looked up. -/
theorem lower_constants (p : Program) (annotate : Bool) :
    (∀ d, p.lower annotate = .error (.diagnostic d) → ∀ text, d.problem ≠ .missingConstant text) ∧
      (∀ n ∈ p.nodes, ∀ text ∈ n.constants, ∃ id, p.pool.lookup text = .ok id) ∧
      ∀ m, p.lower annotate = .ok m →
        (∀ s text loc t s', s.pool = p.pool → constant text loc s = .ok t s' →
          ∃ id, t = .text id ∧ m.texts.get? id = some text) ∧
        ∀ i ∈ m.instrs, ∀ id, i.Mentions id →
          ∃ text ∈ p.constants, p.pool.lookup text = .ok id ∧ m.texts.get? id = some text := by
  refine ⟨fun d hd => ?_, fun n hn text htext => ?_, fun m hm => ?_⟩
  · rcases p.lower_cases annotate with ⟨-, m, heq, -⟩ | ⟨-, d', heq, hregular⟩
    · cases heq.symm.trans hd
    · obtain rfl := Rejection.diagnostic.inj (Except.error.inj (heq.symm.trans hd))
      exact hregular
  · obtain ⟨id, hid⟩ := p.covers n hn text htext
    exact ⟨id, by rw [Pool.lookup, hid]⟩
  have htexts : m.texts = p.pool.texts := by
    rcases p.lower_cases annotate with ⟨-, m', heq, htexts⟩ | ⟨-, d, heq, -⟩
    · exact Except.ok.inj (hm.symm.trans heq) ▸ htexts
    · cases heq.symm.trans hm
  rw [htexts]
  constructor
  · intro s text loc t s' hpool hconstant
    have hrun : Yields (constant text loc) s fun t _ => ∃ id, t = .text id ∧
        p.pool.texts.get? id = some text := by
      refine .get_bind ?_
      rw [hpool]
      split
      · next id hid => exact .pure ⟨id, rfl, Pool.get?_of_lookup hid⟩
      · exact .throw
    exact hrun t s' hconstant
  · intro i hi id hid
    obtain ⟨f, hf, hi⟩ := List.mem_flatMap.mp hi
    obtain ⟨-, κ, hκ⟩ := certified_of_lower hm
    have hlt : id < p.pool.texts.size := (hκ.functions f hf).pooled hi hid
    obtain ⟨text, hget, hlookup⟩ := p.single_pool.lookup hlt
    refine ⟨text, Program.mem_pool.mp ?_, hlookup, hget⟩
    exact Pool.mem_iff.mpr (Array.mem_of_getElem? hget)

theorem lower_constants_greeting : greeting.lower false = .ok greetingModule ∧
    ∃ i ∈ greetingModule.instrs, i.Mentions 1 ∧ ∃ text ∈ greeting.constants,
      greeting.pool.lookup text = .ok 1 ∧ greetingModule.texts.get? 1 = some text := by
  have hmention : greetingModule.instrs.any (fun i => i.uses.contains (.text 1)) = true := by
    decide +kernel
  obtain ⟨i, hi, hmem⟩ := List.any_eq_true.mp hmention
  have hmentions : i.Mentions 1 := ⟨.ptr, List.contains_iff_mem.mp hmem⟩
  exact ⟨lower_greeting, i, hi, hmentions,
    ((lower_constants greeting false).2.2 _ lower_greeting).2 i hi 1 hmentions⟩

end Program

end Ember
