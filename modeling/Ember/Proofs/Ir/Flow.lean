import Ember.Proofs.Ir.Certificate

/-!
# Ember — where blocks end

Every block of a certified function ends in its last instruction and nowhere before.

Main result: `Single.nodup_writes`.
-/

namespace Ember.Ir

open Machine (destOf)

variable {f : Function} {l l' : List Instr} {P : List Instr → Instr → Prop}

variable {I : Interface} {G : List String} {k : Convention} {c : Cert} {b : Nat} {x : Context}
  {before : List Instr} {i : Instr}

theorem Steady.goes (hs : Steady before) : Ended before = false := by
  cases before with
  | nil => rfl
  | cons j rest => cases j <;> first | rfl | exact hs.elim

theorem Fits.goes (hi : Fits I G k c b x before i) : Ended before = false := by
  cases hi with
  | loadArgument first quiet role source written =>
    cases before with
    | nil => rfl
    | cons j rest =>
      have hj := quiet j (.head _)
      cases j <;> first | rfl | cases hj
  | setjmp opened role => rw [opened]; rfl
  | entered armed role => rw [armed]; rfl
  | choose tested inside outside => rw [tested]; rfl
  | raised raise => rw [raise]; rfl
  | dead unreached goes => exact goes
  | load steady | loadCell steady | store steady | storeEntry steady | storeResult steady
  | storeCell steady | extract steady | compare steady | arith steady | entry steady | argument steady
  | ordinary steady | buffered steady | addField steady | addMethod steady | math steady
  | function steady | tryPush steady | tryPop steady | branch steady | jump steady | leave steady
  | comment steady => exact steady.goes

theorem Opens.isTerminator (hi : Opens G k c before i) : i.isTerminator = false := by
  cases hi <;> rfl

theorem Checked.suffix (hl : Checked P l) (hsuf : l' <:+ l) : Checked P l' := by
  induction l with
  | nil =>
    rw [List.eq_nil_of_suffix_nil hsuf]
    trivial
  | cons i rest ih =>
    rcases List.suffix_cons_iff.mp hsuf with rfl | hsuf
    · exact hl
    · exact ih hl.2 hsuf

theorem mem_instrs_of_trail (hi : i ∈ trailOf f.blocks b) : i ∈ f.instrs := by
  unfold trailOf at hi
  cases hb : f.blocks.get? b with
  | none =>
    rw [hb] at hi
    exact absurd hi List.not_mem_nil
  | some block =>
    rw [hb] at hi
    have hmem : block ∈ f.blocks.toList := by
      rw [Table.toList]
      exact Array.mem_toList_iff.mpr (Array.mem_of_getElem? hb)
    exact List.mem_flatMap.mpr ⟨block, hmem, List.mem_reverse.mp hi⟩

theorem eq_of_suffix_ended (hl : Checked P l) (hP : ∀ before i, P before i → Ended before = false)
    (hsuf : l' <:+ l) (hended : Ended l') : l' = l := by
  induction l with
  | nil => exact List.eq_nil_of_suffix_nil hsuf
  | cons j rest ih =>
    rcases List.suffix_cons_iff.mp hsuf with heq | hsuf
    · exact heq
    · obtain rfl := ih hl.2 hsuf
      have hgoes := hP _ _ hl.1
      rw [hended] at hgoes
      cases hgoes

/-! ## Registers -/

theorem trail_of_getElem? {block : Block} (hb : f.blocks.toList[b]? = some block) :
    trailOf f.blocks b = block.instrs.toList.reverse := by
  rw [Table.toList, Array.getElem?_toList] at hb
  unfold trailOf Table.get?
  rw [hb]
  rfl

theorem Single.nodup_writes (hs : Single f.registers.size f.parameters f.blocks) :
    (f.parameters ++ f.instrs.filterMap destOf).Nodup := by
  have hwrites : f.instrs.filterMap destOf =
      f.blocks.toList.flatMap fun block => block.instrs.toList.filterMap destOf := by
    unfold Function.instrs
    rw [List.filterMap_flatMap]
  have hass : ∀ b block r, f.blocks.toList[b]? = some block →
      r ∈ block.instrs.toList.filterMap destOf → Assigns (trailOf f.blocks b) r := by
    intro b block r hb hr
    obtain ⟨i, hi, hdest⟩ := List.mem_filterMap.mp hr
    rw [trail_of_getElem? hb]
    exact ⟨i, List.mem_reverse.mpr hi, hdest⟩
  rw [hwrites]
  refine List.nodup_append'.mpr ⟨hs.nodup, List.nodup_flatMap.mpr ⟨?_, ?_⟩, ?_⟩
  · intro block hblk
    obtain ⟨b, hb⟩ := List.getElem?_of_mem hblk
    have hdist := hs.distinct b
    rw [trail_of_getElem? hb, List.filterMap_reverse, List.nodup_reverse] at hdist
    exact hdist
  · refine List.pairwise_iff_getElem.mpr fun b b' hb hb' hlt r hr hr' => ?_
    have hsame := hs.apart b b' r (hass b _ r (List.getElem?_eq_getElem hb) hr)
      (hass b' _ r (List.getElem?_eq_getElem hb') hr')
    omega
  · intro r hr hr'
    obtain ⟨block, hblk, hr'⟩ := List.mem_flatMap.mp hr'
    obtain ⟨b, hb⟩ := List.getElem?_of_mem hblk
    exact (hs.passed r hr).2 b (hass b block r hb hr')

end Ember.Ir
