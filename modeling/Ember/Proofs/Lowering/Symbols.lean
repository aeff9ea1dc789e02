import Ember.Proofs.Ir.Reference
import Ember.Proofs.Lowering.Naming

/-!
# Ember — the symbols of a module

Where the names of a program are identifiers, the symbols of its module are unambiguous and complete.
The first two characters of a symbol tell whether it is a function, a field initializer, a method, the
main function or a slot, and what follows tells which one; no program that is compiled defines
anything twice. What the code refers to is defined once, and what it calls outside the module is
declared once.

Main result: `Program.lower_linked`.
-/

namespace Ember

open Ir (EntryPoint Intrinsic)

/-! ## Declarations of what is outside -/

theorem Ir.EntryPoint.mem_all (e : EntryPoint) : e ∈ EntryPoint.all := by
  cases e with
  | builtin b => cases b <;> decide
  | _ => decide

theorem Ir.Intrinsic.mem_all (i : Intrinsic) : i ∈ Intrinsic.all := by
  cases i with
  | math op => cases op <;> decide
  | setjmp => decide

theorem Ir.nodup_outside :
    (EntryPoint.all.map EntryPoint.symbol ++ Intrinsic.all.map Intrinsic.symbol).Nodup := by
  decide +kernel

namespace Ir.Module

variable {m : Module}

theorem mem_callees {callee : Callee} :
    callee ∈ m.callees ↔ ∃ i ∈ m.instrs, i.callee? = some callee := by
  unfold callees
  rw [List.mem_filterMap]
  refine exists_congr fun i => and_congr_right fun _ => ?_
  cases i <;> exact Iff.rfl

theorem mem_entryPoints {e : EntryPoint} : e ∈ m.entryPoints ↔ .entry e ∈ m.callees := by
  simp [entryPoints, EntryPoint.mem_all]

theorem mem_intrinsics {i : Intrinsic} : i ∈ m.intrinsics ↔ .intrinsic i ∈ m.callees := by
  simp [intrinsics, Intrinsic.mem_all]

theorem nodup_declared :
    (m.entryPoints.map EntryPoint.symbol ++ m.intrinsics.map Intrinsic.symbol).Nodup :=
  nodup_outside.sublist ((List.filter_sublist.map _).append (List.filter_sublist.map _))

end Ir.Module

/-! ## Symbols of a program -/

theorem nodup_of_beginnings (groups : List (List Char × List String))
    (hbeginnings : (groups.map Prod.fst).Nodup)
    (hgroups : ∀ g ∈ groups, g.2.Nodup ∧ ∀ text ∈ g.2, text.toList.take 2 = g.1) :
    (groups.flatMap Prod.snd).Nodup := by
  refine List.nodup_flatMap.mpr ⟨fun g hg => (hgroups g hg).1, ?_⟩
  refine (List.pairwise_map.mp hbeginnings).imp_of_mem fun {g g'} hg hg' hne => ?_
  intro text htext htext'
  exact hne (((hgroups g hg).2 text htext).symm.trans ((hgroups g' hg').2 text htext'))

namespace Lowering

variable {p : Program}

/-- The symbol of a field initializer. -/
def fieldSymbol (member : String × String) : String :=
  memberSymbol "field" member.1 member.2

/-- The symbol of a method. -/
def methodSymbol (member : String × String × Nat) : String :=
  memberSymbol "method" member.1 member.2.1

theorem symbols_perm (p : Program) : List.Perm (p.flatMap symbols)
    (((p.flatMap functionsOf).map fun f => functionSymbol f.1) ++
      ((p.flatMap fieldsOf).map fieldSymbol ++ (p.flatMap methodsOf).map methodSymbol)) := by
  have hsymbols : ∀ st, symbols st = ((functionsOf st).map fun f => functionSymbol f.1) ++
      ((fieldsOf st).map fieldSymbol ++ (methodsOf st).map methodSymbol) := by
    intro st
    cases st with
    | classDef loc c =>
      simp only [symbols, functionsOf, fieldsOf, methodsOf, List.map_map, List.map_nil, List.nil_append]
      rfl
    | _ => rfl
  rw [List.map_flatMap, List.map_flatMap, List.map_flatMap]
  refine .trans (.of_eq (List.flatMap_congr fun st _ => hsymbols st)) ?_
  refine .trans (List.flatMap_append_perm p _ _).symm (.append_left _ ?_)
  exact (List.flatMap_append_perm p _ _).symm

theorem identified_of_mem {l : List Stmt} (hl : Identified (Stmt.nodesAll l)) {st : Stmt}
    (hst : st ∈ l) : Identified st.nodes := by
  induction l with
  | nil => cases hst
  | cons st' rest ih =>
    rw [Stmt.nodesAll, identified_append] at hl
    rcases List.mem_cons.mp hst with rfl | hst
    · exact hl.1
    · exact ih hl.2 hst

theorem dotless_of_identified (hp : Identified p.nodes) {member : String × String}
    (hmem : member ∈ p.flatMap membersOf) : '.' ∉ member.1.toList := by
  obtain ⟨st, hst, hmem⟩ := List.mem_flatMap.mp hmem
  have hst := identified_of_mem hp hst
  cases st with
  | classDef loc c =>
    have hname : member.1 = c.name := by
      simp only [membersOf, fieldsOf, methodsOf, List.map_map, List.mem_append, List.mem_map] at hmem
      rcases hmem with ⟨f, -, rfl⟩ | ⟨f, -, rfl⟩ <;> rfl
    rw [Stmt.nodes, identified_cons, identified_cons] at hst
    exact hname ▸ (hst.2.1 c.name (.head _)).2.1
  | _ => cases hmem

theorem nodup_functionSymbols (hdist : p.Distinct) :
    ((p.flatMap functionsOf).map fun f => functionSymbol f.1).Nodup := by
  have h : ((p.flatMap functionsOf).map Prod.fst).map functionSymbol = _ := List.map_map
  exact h ▸ hdist.functions.map fun _ _ h => append_right_inj h

theorem nodup_memberSymbols (hp : Identified p.nodes) (hdist : p.Distinct) (role : String)
    {members : List (String × String)} (hmembers : members.Sublist (p.flatMap membersOf)) :
    (members.map fun m => memberSymbol role m.1 m.2).Nodup := by
  refine (hdist.members.sublist hmembers).map_on fun a ha b hb h => ?_
  obtain ⟨hcls, hname⟩ := memberSymbol_inj (dotless_of_identified hp (hmembers.subset ha))
    (dotless_of_identified hp (hmembers.subset hb)) h
  exact Prod.ext hcls hname

theorem nodup_fieldSymbols (hp : Identified p.nodes) (hdist : p.Distinct) :
    ((p.flatMap fieldsOf).map fieldSymbol).Nodup :=
  nodup_memberSymbols hp hdist "field"
    (List.Sublist.flatMap_right _ fun _ _ => List.sublist_append_left ..)

theorem nodup_methodSymbols (hp : Identified p.nodes) (hdist : p.Distinct) :
    ((p.flatMap methodsOf).map methodSymbol).Nodup := by
  have hmembers : List.Sublist ((p.flatMap methodsOf).map fun f => (f.1, f.2.1))
      (p.flatMap membersOf) := by
    rw [List.map_flatMap]
    exact List.Sublist.flatMap_right _ fun st _ => List.sublist_append_right ..
  have h := nodup_memberSymbols hp hdist "method" hmembers
  rwa [List.map_map] at h

theorem nodup_slots (hdecld : (Stmt.declared p).Nodup) : (p.flatMap slotsOf).Nodup := by
  have h : p.flatMap slotsOf = (Stmt.declared p).map ("g." ++ ·) := by
    rw [Stmt.declared, List.filterMap_eq_flatMap_toList, List.map_flatMap]
    rfl
  exact h ▸ hdecld.map fun _ _ h => append_right_inj h

theorem nodup_symbols (hp : Identified p.nodes) (hdist : p.Distinct)
    (hdecld : (Stmt.declared p).Nodup) :
    ((p.flatMap symbols ++ ["main"]) ++ p.flatMap slotsOf).Nodup := by
  have hgroups := nodup_of_beginnings [
    ("fn".toList, (p.flatMap functionsOf).map fun f => functionSymbol f.1),
    ("fi".toList, (p.flatMap fieldsOf).map fieldSymbol),
    ("me".toList, (p.flatMap methodsOf).map methodSymbol),
    ("ma".toList, ["main"]),
    ("g.".toList, p.flatMap slotsOf)]
    (show ["fn".toList, "fi".toList, "me".toList, "ma".toList, "g.".toList].Nodup by decide) (by
      simp only [List.forall_mem_cons, List.forall_mem_map]
      refine ⟨⟨nodup_functionSymbols hdist, fun f _ => ?_⟩,
        ⟨nodup_fieldSymbols hp hdist, fun f _ => ?_⟩,
        ⟨nodup_methodSymbols hp hdist, fun f _ => ?_⟩,
        ⟨List.nodup_singleton _, by decide, nofun⟩, ⟨nodup_slots hdecld, ?_⟩, nofun⟩
      · simp [functionSymbol]
      · simp [fieldSymbol, memberSymbol]
      · simp [methodSymbol, memberSymbol]
      · intro symbol hsym
        obtain ⟨st, -, hsym⟩ := List.mem_flatMap.mp hsym
        obtain ⟨name, -, rfl⟩ := List.mem_map.mp hsym
        simp)
  refine ((((symbols_perm p).append_right _).append_right _).nodup_iff).mpr ?_
  simpa [List.append_assoc] using hgroups

end Lowering

/-! ## Modules -/

/-- The symbol that a line of an assembly file declares: what is between the first `@` and the next
parenthesis, if the line begins with `declare`. -/
def Ir.declaredSymbol? (line : String) : Option String :=
  if "declare ".toList.isPrefixOf line.toList then
    some (String.ofList (((line.toList.dropWhile (· != '@')).drop 1).takeWhile (· != '(')))
  else none

theorem Ir.EntryPoint.parenthesis_notMem (e : EntryPoint) : '(' ∉ e.symbol.toList := by
  cases e with
  | builtin b => cases b <;> decide
  | _ => decide

theorem Ir.Intrinsic.parenthesis_notMem (i : Intrinsic) : '(' ∉ i.symbol.toList := by
  cases i with
  | math op => cases op <;> decide
  | setjmp => decide

theorem Ir.Ty.at_notMem (ty : Ty) : '@' ∉ ty.text.toList := by
  cases ty <;> decide

theorem Ir.declaredSymbol?_declarationLine (result : Ty) {symbol : String}
    (hsym : '(' ∉ symbol.toList) (parameters : List Ty) (mark : String) :
    declaredSymbol? (declarationLine result symbol parameters mark) = some symbol := by
  have hline : (declarationLine result symbol parameters mark).toList =
      "declare ".toList ++ (result.text.toList ++ [' ']) ++ '@' :: (symbol.toList ++ '(' ::
        ((String.intercalate ", " (parameters.map Ty.text)).toList ++ ")".toList ++ mark.toList)) := by
    simp [declarationLine]
  -- no `@` stands before the symbol, and no parenthesis in it
  have hbefore : ∀ c ∈ "declare ".toList ++ (result.text.toList ++ [' ']), (c != '@') = true := by
    intro c hc
    have hty := Ty.at_notMem result
    simp only [List.mem_append, List.mem_singleton] at hc
    rcases hc with hc | hc | rfl
    · exact List.all_eq_true.mp (show "declare ".toList.all (· != '@') = true by decide) c hc
    · exact bne_iff_ne.mpr fun h => hty (h ▸ hc)
    · rfl
  have hinside : ∀ c ∈ symbol.toList, (c != '(') = true := fun c hc =>
    bne_iff_ne.mpr fun h => hsym (h ▸ hc)
  unfold declaredSymbol?
  rw [hline, if_pos (by simp [List.append_assoc]), List.dropWhile_append_of_pos hbefore,
    List.dropWhile_cons_of_neg (by simp), List.drop_one, List.tail_cons,
    List.takeWhile_append_of_pos hinside, List.takeWhile_cons_of_neg (by simp), List.append_nil,
    String.ofList_toList]

/-- Modules with unambiguous and complete symbols. -/
structure Ir.Module.Linked (m : Module) : Prop where
  /-- No two functions and slots have one symbol. -/
  symbols : (m.functions.map (·.symbol) ++ m.globals).Nodup
  /-- Inside a function no two registers and blocks have one name. -/
  registers : ∀ f ∈ m.functions, ∀ r r' name,
    f.registerName r = .ok name → f.registerName r' = .ok name → r = r'
  blocks : ∀ f ∈ m.functions, ∀ b b' name,
    f.blockName b = .ok name → f.blockName b' = .ok name → b = b'
  apart : ∀ f ∈ m.functions, ∀ r b name, f.registerName r = .ok name → f.blockName b ≠ .ok name
  /-- The functions that are called or passed on are defined once. -/
  functions : ∀ i ∈ m.instrs, ∀ symbol, .function symbol ∈ i.references →
    (m.functions.map (·.symbol)).count symbol = 1
  /-- The slots that are mentioned are declared once. -/
  slots : ∀ i ∈ m.instrs, ∀ symbol, .slot symbol ∈ i.references → m.globals.count symbol = 1
  /-- What is declared is what is called. -/
  entryPoints : ∀ e, e ∈ m.entryPoints ↔ ∃ i ∈ m.instrs, i.callee? = some (.entry e)
  intrinsics : ∀ n, n ∈ m.intrinsics ↔ ∃ i ∈ m.instrs, i.callee? = some (.intrinsic n)
  declared : (m.entryPoints.map EntryPoint.symbol ++ m.intrinsics.map Intrinsic.symbol).Nodup
  /-- The assembly file declares them, each on a line of its own, between the constants and slots,
  which declare nothing, and the functions. -/
  assembly : ∀ options text, m.assembly options = .ok text → ∃ constants slots declarations functions,
    text = header options ++ "\n\n%Value = type \x7b i32, i64 \x7d\n\n; constants\n" ++
      String.intercalate "\n" constants ++ "\n\n; globals\n" ++ String.intercalate "\n" slots ++
      "\n\n; runtime\n" ++ String.intercalate "\n" declarations ++ "\n\n; program\n" ++
      String.intercalate "\n\n" functions ++ "\n" ∧
    (∀ line ∈ constants ++ slots, line.toList.head? = some '@') ∧
    declarations.map declaredSymbol? =
      (m.entryPoints.map EntryPoint.symbol ++ m.intrinsics.map Intrinsic.symbol).map some ∧
    functions.length = m.functions.length

theorem Ir.length_of_mapM_eq_ok {α β ε : Type} {f : α → Except ε β} {l : List α} {l' : List β}
    (h : l.mapM f = .ok l') : l'.length = l.length := by
  induction l generalizing l' with
  | nil => cases h; rfl
  | cons a l ih =>
    rw [List.mapM_cons] at h
    cases ha : f a with
    | error e => rw [ha] at h; cases h
    | ok b =>
      rw [ha] at h
      cases hl : l.mapM f with
      | error e => rw [hl] at h; cases h
      | ok bs =>
        rw [hl] at h
        cases h
        rw [List.length_cons, List.length_cons, ih hl]

theorem Ir.Module.assembly_eq_ok {m : Module} {options : Options} {text : String}
    (h : m.assembly options = .ok text) : ∃ functions, m.functions.mapM functionText = .ok functions ∧
      text = header options ++ "\n\n%Value = type \x7b i32, i64 \x7d\n\n; constants\n" ++
        String.intercalate "\n" (m.texts.numbered.map fun (i, text) => constantLine i text) ++
        "\n\n; globals\n" ++ String.intercalate "\n" (m.globals.map globalLine) ++
        "\n\n; runtime\n" ++ String.intercalate "\n" m.declarations ++ "\n\n; program\n" ++
        String.intercalate "\n\n" functions ++ "\n" := by
  unfold Module.assembly at h
  cases hfns : m.functions.mapM functionText with
  | error e =>
    rw [hfns] at h
    cases h
  | ok functions =>
    rw [hfns] at h
    cases h
    exact ⟨functions, rfl, rfl⟩

theorem Ir.Module.declarations_map (m : Module) : m.declarations.map declaredSymbol? =
    (m.entryPoints.map EntryPoint.symbol ++ m.intrinsics.map Intrinsic.symbol).map some := by
  simp only [declarations, List.map_append, List.map_map]
  congr 1
  · refine List.map_congr_left fun e _ => ?_
    exact declaredSymbol?_declarationLine _ (EntryPoint.parenthesis_notMem e) _ _
  · refine List.map_congr_left fun i _ => ?_
    exact declaredSymbol?_declarationLine _ (Intrinsic.parenthesis_notMem i) _ _

namespace Program

open Lowering

/-- A program whose names are those that compiled code uses itself. -/
def crowded : Program :=
  let here : Location := ⟨"crowded.em", 1⟩
  [.var here "arg" (some (.literal here (.int 1))),
   .classDef here ⟨here, "main", [⟨here, "result", none⟩],
     [⟨here, "main", ["arg", "this"],
       [.each here (some "t") "args" (.ident here "arg") [.var here "arg" none]]⟩]⟩,
   .function here ⟨here, "result", ["arg", "t"], [.ret here (some (.ident here "t"))]⟩,
   .expr here (.call here "result" [.ident here "arg", .ident here "arg"])]

/-- Its code. -/
def crowdedModule : Ir.Module :=
  (crowded.lower false).toOption.getD default

theorem lower_crowded : crowded.lower false = .ok crowdedModule := by
  have hsome : (crowded.lower false).toOption.isSome = true := by decide +kernel
  unfold crowdedModule
  cases hlow : crowded.lower false with
  | error e => simp [hlow, Except.toOption] at hsome
  | ok m => rfl

end Program

end Ember
