import Ember.Host.Config
import Ember.Text.Blank

/-!
# Ember — the console

A program prints lines and reads lines. Printing a line writes it and then flushes; a console can be
set to refuse writing, or flushing, after a number of successful flushes. Input is a run of bytes
whose lines must be UTF-8.
-/

namespace Ember

/-- The console of a program. -/
structure Console where
  /-- What was printed. -/
  output : String := ""
  /-- The successful flushes. -/
  flushes : Nat := 0
  /-- After so many flushes writing fails. -/
  writeLimit : Option Nat := none
  /-- After so many flushes flushing fails. -/
  flushLimit : Option Nat := none
  /-- The bytes that were not read yet. -/
  input : List UInt8 := []

namespace Console

def reached (c : Console) (limit : Option Nat) : Bool :=
  limit.any fun n => n ≤ c.flushes

/-- Prints a line. A line whose flush fails is printed nevertheless. -/
def printLine (c : Console) (text : String) : Option IoFailure × Console :=
  if c.reached c.writeLimit then (some .sinkClosed, c)
  else
    let c := { c with output := c.output ++ text ++ "\n" }
    if c.reached c.flushLimit then (some .flushFailed, c)
    else (none, { c with flushes := c.flushes + 1 })

/-- The bytes up to and including the first line feed, and the bytes after it. -/
def splitLine : List UInt8 → List UInt8 × List UInt8
  | [] => ([], [])
  | b :: rest =>
    if b = 10 then ([b], rest)
    else
      let (line, rest) := splitLine rest
      (b :: line, rest)

/-- What reading a line gives: a line without its end, nothing at the end of the input, or a
failure. -/
inductive Line
  | line (text : String)
  | ended
  | failed (reason : IoFailure)

/-- Reads a line. The bytes of a line that is not UTF-8 are gone. -/
def readLine (c : Console) : Line × Console :=
  match splitLine c.input with
  | ([], _) => (.ended, c)
  | (bytes, rest) =>
    let c := { c with input := rest }
    match String.fromUTF8? ⟨bytes.toArray⟩ with
    | some s => (.line (String.ofList (Text.chomp s.toList)), c)
    | none => (.failed .invalidUtf8, c)

end Console

end Ember
