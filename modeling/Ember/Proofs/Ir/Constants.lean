import Ember.Ir.Assembly
import Ember.Proofs.Ir.Naming

/-!
# Ember — texts as constants

A pooled text is written into the assembly file as a constant between quotes. A reader of the file
takes the constant up to the next quote, and reads a backslash with two digits to base sixteen as a
byte and every other character as itself. It finds the bytes of the text and the final zero byte, and
nothing in a text can end its constant or its line.

* `quotedPart`     — what a reader of a line takes for the constant.
* `constantBytes?` — the bytes that a constant denotes.

Main result: `constants_lossless`.
-/

namespace Ember.Ir

variable {b : UInt8} {bytes : List UInt8} {c : Char} {rest : List Char}

/-! ## Reading a constant -/

/-- The value of a digit to base sixteen. -/
def hexValue? (c : Char) : Option Nat :=
  if c.isDigit then some (c.toNat - '0'.toNat)
  else if 'A' ≤ c ∧ c ≤ 'F' then some (c.toNat - 'A'.toNat + 10)
  else if 'a' ≤ c ∧ c ≤ 'f' then some (c.toNat - 'a'.toNat + 10)
  else none

/-- The byte of two digits. -/
def escapedByte? (high low : Char) : Option UInt8 := do
  return UInt8.ofNat (16 * (← hexValue? high) + (← hexValue? low))

/-- The bytes that a constant denotes, if every backslash in it starts the code of a byte. -/
def constantBytes? : List Char → Option (List UInt8)
  | '\\' :: high :: low :: rest => do return (← escapedByte? high low) :: (← constantBytes? rest)
  | c :: rest => if c = '\\' then none else (String.utf8EncodeChar c ++ ·) <$> constantBytes? rest
  | [] => some []

/-- What stands between the first quote of a line and the next one. -/
def quotedPart (line : String) : List Char :=
  ((line.toList.dropWhile (· != '"')).drop 1).takeWhile (· != '"')

/-- A line that defines a constant with its number of bytes, and ends where the constant ends. -/
structure Defines (symbol : String) (bytes : List UInt8) (line : String) : Prop where
  shape : line = "@" ++ symbol ++ " = private unnamed_addr constant [" ++ toString bytes.length ++
    " x i8] c\"" ++ String.ofList (quotedPart line) ++ "\""
  denotes : constantBytes? (quotedPart line) = some bytes
  printable : ∀ c ∈ quotedPart line, 0x20 ≤ c.toNat ∧ c.toNat ≤ 0x7e ∧ c ≠ '"'
  oneLine : '\n' ∉ line.toList

/-! ## The characters of a byte -/

/-- A digit to base sixteen in upper case. -/
def hexDigit (n : Nat) : Char :=
  (Nat.digitChar n).toUpper

/-- Printable characters that neither end a constant nor start a code. -/
def IsInert (c : Char) : Prop :=
  (0x20 ≤ c.toNat ∧ c.toNat ≤ 0x7e ∧ c ≠ '"') ∧ c ≠ '\\'

instance : Decidable (IsInert c) :=
  inferInstanceAs (Decidable (_ ∧ _))

theorem isInert_hexDigit : ∀ n < 16, IsInert (hexDigit n) := by
  decide +kernel

theorem escapedByte?_hexDigit : ∀ b : UInt8,
    escapedByte? (hexDigit (b.toNat / 16)) (hexDigit (b.toNat % 16)) = some b := by
  decide +kernel

theorem paddedHex_two : ∀ b : UInt8,
    (paddedHex 2 b.toNat).toList = [hexDigit (b.toNat / 16), hexDigit (b.toNat % 16)] := by
  decide +kernel

theorem plainByte : ∀ b : UInt8, isPlainByte b = true →
    String.utf8EncodeChar (Char.ofNat b.toNat) = [b] ∧ IsInert (Char.ofNat b.toNat) := by
  decide +kernel

/-- A byte is written as one character that stands for itself, or as the code of the byte. -/
inductive Spells (b : UInt8) : List Char → Prop
  | plain {c : Char} (inert : IsInert c) (encodes : String.utf8EncodeChar c = [b]) : Spells b [c]
  | code {high low : Char} (inert : IsInert high ∧ IsInert low)
      (denotes : escapedByte? high low = some b) : Spells b ['\\', high, low]

theorem spells_constantByte (b : UInt8) : Spells b (constantByte b).toList := by
  unfold constantByte
  split
  case isTrue hplain =>
    obtain ⟨hencodes, hinert⟩ := plainByte b hplain
    simpa using Spells.plain hinert hencodes
  case isFalse =>
    have hb := b.toNat_lt
    have hinert := And.intro (isInert_hexDigit (b.toNat / 16) (by omega))
      (isInert_hexDigit (b.toNat % 16) (by omega))
    simpa [paddedHex_two] using Spells.code hinert (escapedByte?_hexDigit b)

theorem constantBytes?_cons (h : c ≠ '\\') : constantBytes? (c :: rest) =
    (String.utf8EncodeChar c ++ ·) <$> constantBytes? rest := by
  rw [constantBytes?, if_neg h]
  rintro high low rest' rfl
  exact absurd rfl h

theorem Spells.constantBytes?_append {l : List Char} (h : Spells b l) :
    constantBytes? (l ++ rest) = (b :: ·) <$> constantBytes? rest := by
  cases h with
  | plain inert encodes => simp [constantBytes?_cons inert.2, encodes]
  | code _ denotes => cases hrest : constantBytes? rest <;> simp [constantBytes?, denotes, hrest]

/-! ## The characters of a text -/

/-- The characters for a sequence of bytes. -/
def codes (bytes : List UInt8) : List Char :=
  bytes.flatMap fun b => (constantByte b).toList

theorem codes_cons : codes (b :: bytes) = (constantByte b).toList ++ codes bytes :=
  List.flatMap_cons

theorem constantBytes?_codes (bytes : List UInt8) : constantBytes? (codes bytes) = some bytes := by
  induction bytes with
  | nil => rfl
  | cons b bytes ih =>
    rw [codes_cons, (spells_constantByte b).constantBytes?_append, ih]
    rfl

theorem Spells.printable {l : List Char} (h : Spells b l) :
    ∀ c ∈ l, 0x20 ≤ c.toNat ∧ c.toNat ≤ 0x7e ∧ c ≠ '"' := by
  cases h with
  | plain inert => simpa using inert.1
  | code inert => simpa using ⟨inert.1.1, inert.2.1⟩

theorem printable_codes (bytes : List UInt8) :
    ∀ c ∈ codes bytes, 0x20 ≤ c.toNat ∧ c.toNat ≤ 0x7e ∧ c ≠ '"' := by
  intro c hc
  obtain ⟨b, -, hb⟩ := List.mem_flatMap.mp hc
  exact (spells_constantByte b).printable c hb

theorem toList_constantLiteral (text : String) :
    (constantLiteral text).toList = codes text.toUTF8.toList := by
  simp [constantLiteral, codes, String.toList_join, List.flatMap_map]

/-! ## The line of a text -/

theorem codes_append (bytes more : List UInt8) : codes (bytes ++ more) = codes bytes ++ codes more :=
  List.flatMap_append

theorem quotedPart_eq {before body : List Char} (hbef : '"' ∉ before) (hbody : '"' ∉ body)
    {line : String} (hline : line.toList = before ++ '"' :: (body ++ ['"'])) :
    quotedPart line = body := by
  have hskip : ∀ c ∈ before, (c != '"') = true := fun c hc =>
    bne_iff_ne.mpr (ne_of_mem_of_not_mem hc hbef)
  have htake : ∀ c ∈ body, (c != '"') = true := fun c hc =>
    bne_iff_ne.mpr (ne_of_mem_of_not_mem hc hbody)
  rw [quotedPart, hline, List.dropWhile_append_of_pos hskip, List.dropWhile_cons_of_neg (by simp),
    List.drop_one, List.tail_cons, List.takeWhile_append_of_pos htake]
  simp

/-- The part of a line before its quotes. -/
def lineHead (id count : Nat) : String :=
  "@" ++ textSymbol id ++ " = private unnamed_addr constant [" ++ toString count ++ " x i8] c"

theorem digits_inert (n : Nat) : ∀ c ∈ (toString n).toList, c ≠ '"' ∧ c ≠ '\n' := by
  intro c hc
  have hdigit := Naming.isDigit_toDigits n c (Naming.toList_toString n ▸ hc)
  constructor <;> rintro rfl <;> exact absurd hdigit (by decide)

theorem lineHead_inert (id count : Nat) :
    ∀ c ∈ (lineHead id count).toList, c ≠ '"' ∧ c ≠ '\n' := by
  simp only [lineHead, textSymbol, String.toList_append, List.forall_mem_append]
  exact ⟨⟨⟨⟨by simp, by simp, digits_inert id⟩, by simp⟩, digits_inert count⟩, by simp⟩

theorem toList_loop (a : ByteArray) (i : Nat) (l : List UInt8) :
    ByteArray.toList.loop a i l = l.reverse ++ a.data.toList.drop i := by
  fun_induction ByteArray.toList.loop a i l with
  | case1 i l hi ih =>
    have hi' : i < a.data.toList.length := by simpa using hi
    have hget : a.get! i = a.data.toList[i] := getElem!_pos a.data i hi
    rw [ih, List.drop_eq_getElem_cons hi', List.reverse_cons, List.append_assoc, hget]
    rfl
  | case2 i l hi => simpa using Nat.not_lt.mp hi

theorem toList_toUTF8 (text : String) : text.toUTF8.toList = text.toByteArray.data.toList :=
  toList_loop _ _ _

theorem toList_constantLine (id : Nat) (text : String) : (constantLine id text).toList =
    (lineHead id (text.toUTF8.toList ++ [0]).length).toList ++
      '"' :: (codes (text.toUTF8.toList ++ [0]) ++ ['"']) := by
  have hzero : codes [0] = "\\00".toList := by decide +kernel
  have hcnt : text.utf8ByteSize + 1 = (text.toUTF8.toList ++ [0]).length := by
    rw [List.length_append, toList_toUTF8]
    simp
  rw [← hcnt, codes_append, hzero, ← toList_constantLiteral]
  simp [constantLine, lineHead]

theorem defines_constantLine (id : Nat) (text : String) :
    Defines (textSymbol id) (text.toUTF8.toList ++ [0]) (constantLine id text) := by
  have hline := toList_constantLine id text
  have hprint := printable_codes (text.toUTF8.toList ++ [0])
  have hpart := quotedPart_eq (fun hc => (lineHead_inert _ _ _ hc).1 rfl)
    (fun hc => (hprint _ hc).2.2 rfl) hline
  refine ⟨String.toList_inj.mp ?_, ?_, ?_, ?_⟩
  · simpa [hpart, lineHead] using hline
  · rw [hpart, constantBytes?_codes]
  · rwa [hpart]
  · rw [hline]
    simp only [List.mem_append, List.mem_cons, List.not_mem_nil, or_false, not_or]
    refine ⟨fun hc => (lineHead_inert _ _ _ hc).2 rfl, by decide, fun hc => ?_, by decide⟩
    exact absurd (hprint _ hc).1 (by decide)

/-! ## The file -/

/-- A text is a whole line of a file. -/
def HasLine (file line : String) : Prop :=
  ∃ before after, file = before ++ "\n" ++ line ++ "\n" ++ after

theorem hasLine_intercalate {line : String} {lines : List String} (hline : line ∈ lines)
    (before after : String) :
    HasLine (before ++ "\n" ++ String.intercalate "\n" lines ++ "\n" ++ after) line := by
  induction lines generalizing before with
  | nil => cases hline
  | cons first lines ih =>
    cases lines with
    | nil =>
      obtain rfl := List.mem_singleton.mp hline
      exact ⟨before, after, by rw [String.intercalate_singleton]⟩
    | cons second lines =>
      rw [String.intercalate_cons_cons]
      obtain rfl | hrest := List.mem_cons.mp hline
      · exact ⟨before, _, by simp only [String.append_assoc]; rfl⟩
      · simpa only [String.append_assoc] using ih hrest (before ++ "\n" ++ first)

theorem hasLine_assembly {m : Module} {options : Options} {file : String} {id : Nat} {text : String}
    (hfile : m.assembly options = .ok file) (hpooled : (id, text) ∈ m.texts.numbered) :
    HasLine file (constantLine id text) := by
  unfold Module.assembly at hfile
  cases hfns : m.functions.mapM Module.functionText with
  | error => cases (hfns ▸ hfile : Except.error _ = Except.ok file)
  | ok functions =>
    obtain rfl := Except.ok.inj (hfns ▸ hfile : Except.ok _ = Except.ok file)
    have hline : constantLine id text ∈
        m.texts.numbered.map fun x : Nat × String => constantLine x.1 x.2 :=
      List.mem_map.mpr ⟨_, hpooled, rfl⟩
    have hopens : "\n\n%Value = type \x7b i32, i64 \x7d\n\n; constants\n" =
        "\n\n%Value = type \x7b i32, i64 \x7d\n\n; constants" ++ "\n" := by decide +kernel
    have hcloses : "\n\n; globals\n" = "\n" ++ "\n; globals\n" := by decide +kernel
    obtain ⟨before, after, heq⟩ := hasLine_intercalate hline
      (Module.header options ++ "\n\n%Value = type \x7b i32, i64 \x7d\n\n; constants")
      ("\n; globals\n" ++ String.intercalate "\n" (m.globals.map globalLine) ++ "\n\n; runtime\n" ++
        String.intercalate "\n" m.declarations ++ "\n\n; program\n" ++
        String.intercalate "\n\n" functions ++ "\n")
    exact ⟨before, after, by rw [← heq, hopens, hcloses]; simp only [String.append_assoc]⟩

/-- **Constants lose nothing**: the line of a pooled text spells exactly its bytes and a final zero,
other texts are spelt otherwise, and the line stands in the assembly file. -/
theorem constants_lossless (m : Module) (id : Nat) (text : String)
    (hpooled : (id, text) ∈ m.texts.numbered) :
    Defines (textSymbol id) (text.toUTF8.toList ++ [0]) (constantLine id text) ∧
      (∀ id' other, (id', other) ∈ m.texts.numbered → other ≠ text →
        quotedPart (constantLine id' other) ≠ quotedPart (constantLine id text)) ∧
      ∀ options file, m.assembly options = .ok file → HasLine file (constantLine id text) := by
  refine ⟨defines_constantLine id text, fun id' other _ hne hpart => hne ?_,
    fun options file hfile => hasLine_assembly hfile hpooled⟩
  have hbytes : other.toUTF8.toList ++ [0] = text.toUTF8.toList ++ [0] := Option.some.inj <| by
    rw [← (defines_constantLine id' other).denotes, hpart, (defines_constantLine id text).denotes]
  rw [List.append_left_inj, toList_toUTF8, toList_toUTF8, Array.toList_inj] at hbytes
  exact String.toByteArray_inj.mp (ByteArray.ext hbytes)

/-- A text with a quote, a backslash before digits, a line end and a character of two bytes. -/
def awkward : String :=
  "a\"b\\0A\n\u00e9"

theorem constants_lossless_awkward : ∃ file, Module.assembly ⟨⟨#[awkward]⟩, [], []⟩ {} = .ok file ∧
    HasLine file (constantLine 0 awkward) ∧
    Defines (textSymbol 0) (awkward.toUTF8.toList ++ [0]) (constantLine 0 awkward) := by
  have hpooled : (0, awkward) ∈ Table.numbered ⟨#[awkward]⟩ := by decide
  obtain ⟨hdefines, -, hfile⟩ := constants_lossless ⟨⟨#[awkward]⟩, [], []⟩ 0 awkward hpooled
  exact ⟨_, rfl, hfile {} _ rfl, hdefines⟩

end Ember.Ir
