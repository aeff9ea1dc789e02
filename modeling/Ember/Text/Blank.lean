/-!
# Ember — white space

The characters that Unicode calls white space, and the text between them.
-/

namespace Ember.Text

/-- The property White_Space of the Unicode character database. -/
def isBlank (c : Char) : Bool :=
  let n := c.toNat
  (0x9 ≤ n && n ≤ 0xd) || n == 0x20 || n == 0x85 || n == 0xa0 || n == 0x1680 ||
    (0x2000 ≤ n && n ≤ 0x200a) || n == 0x2028 || n == 0x2029 || n == 0x202f || n == 0x205f ||
    n == 0x3000

/-- The text without the white space at its two ends. -/
def trim (s : List Char) : List Char :=
  ((s.dropWhile isBlank).reverse.dropWhile isBlank).reverse

/-- The text without the line feeds and carriage returns at its end. -/
def chomp (s : List Char) : List Char :=
  (s.reverse.dropWhile fun c => c == '\n' || c == '\r').reverse

/-- Whether `needle` occurs in the text as a run of neighbouring characters. -/
def occursIn (needle : List Char) : List Char → Bool
  | [] => needle.isEmpty
  | c :: rest => needle.isPrefixOf (c :: rest) || occursIn needle rest

end Ember.Text
