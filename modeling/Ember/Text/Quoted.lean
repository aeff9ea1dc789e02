import Ember.Text.Unprintable

/-!
# Ember — quoted text

A quoted text stands between double quotes. Quotes and backslashes inside it are escaped, four
controls have names of their own, and every other character that cannot be seen by itself is
written by its code point.
-/

namespace Ember.Text

/-- The digits of a number to base sixteen, in lower case and without leading zeros. -/
def hexDigits (n : Nat) : String :=
  String.ofList (Nat.toDigits 16 n)

/-- Whether a character is written by its code point. All of printable ASCII stands for itself. -/
def needsCode (c : Char) : Bool :=
  if 0x20 ≤ c.toNat && c.toNat < 0x7f then false else isExtender c || isUnprintable c

def quoteChar (c : Char) : String :=
  match c with
  | '"' => "\\\""
  | '\\' => "\\\\"
  | '\x00' => "\\0"
  | '\t' => "\\t"
  | '\r' => "\\r"
  | '\n' => "\\n"
  | c => if needsCode c then "\\u\x7b" ++ hexDigits c.toNat ++ "\x7d" else c.toString

def quoted (s : String) : String :=
  s.toList.foldl (fun out c => out ++ quoteChar c) "\"" ++ "\""

/-- A list of texts in brackets, each of them quoted. -/
def quotedList (texts : List String) : String :=
  "[" ++ String.intercalate ", " (texts.map quoted) ++ "]"

end Ember.Text
