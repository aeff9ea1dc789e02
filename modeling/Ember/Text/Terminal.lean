/-!
# Ember — terminal sequences

A reader of terminal output that keeps the text and drops the rest: escape sequences, commands,
strings for the terminal, and control characters other than the line feed.

* `Mode`      — where the reader stands.
* `Mode.read` — one character: the next mode and the text kept so far.
* `strip`     — the text of a whole output.

A reader that is inside something unfinished drops what follows, until an escape character starts
the next sequence or a cancelling control returns to the text.
-/

namespace Ember.Text

/-! ## Classes of characters -/

/-- The escape character that starts a terminal sequence. -/
def escapeChar : Char := '\x1b'

/-- Control characters of either block, the line feed excepted. -/
def isDroppedControl (c : Char) : Bool :=
  (c.toNat < 0x20 && c != '\n') || (0x80 ≤ c.toNat && c.toNat < 0xa0)

/-- The two control characters that cancel whatever is open. -/
def isCancel (c : Char) : Bool :=
  c == '\x18' || c == '\x1a'

/-- A character from the space to `/` announces that more follows. -/
def announces (c : Char) : Bool :=
  0x20 ≤ c.toNat && c.toNat < 0x30

/-- A character from `0` to `?` belongs to the parameters of a sequence. -/
def isParameter (c : Char) : Bool :=
  0x30 ≤ c.toNat && c.toNat < 0x40

/-- A character from `<` to `?` marks a private sequence and comes before all other parameters. -/
def isPrivateMark (c : Char) : Bool :=
  0x3c ≤ c.toNat && c.toNat < 0x40

def endsSequence (c : Char) : Bool :=
  0x40 ≤ c.toNat && c.toNat ≤ 0x7e

/-- A character from `0` to `~` completes what an escape character began. -/
def completesEscape (c : Char) : Bool :=
  0x30 ≤ c.toNat && c.toNat ≤ 0x7e

/-! ## Modes -/

/-- Where a reader of terminal output stands. -/
inductive Mode
  | text
  /-- After an escape character. -/
  | escape
  /-- After an escape character and characters that announce a longer sequence. -/
  | announced
  /-- Inside a sequence that was opened by `ESC[`. -/
  | sequence
  /-- Inside a command that was opened by `ESC]`; a bell ends it. -/
  | command
  /-- Inside a string for the terminal that nothing but an escape or a cancel ends. -/
  | string
  /-- Right after `ESC P`, which opens a string for a device. -/
  | device
  /-- Among the parameters of a device string. -/
  | deviceParameters
  /-- After a device string's characters that announce its data. -/
  | deviceAnnounced
  /-- Inside the data of a device string, which the byte `stringEnd` ends. -/
  | deviceData
deriving DecidableEq

/-- The mode after a character that follows an escape character. -/
def Mode.afterEscape (c : Char) : Mode :=
  if c = '[' then .sequence
  else if c = ']' then .command
  else if c = 'P' then .device
  else if c = 'X' || c = '^' || c = '_' then .string
  else if completesEscape c then .text
  else if announces c then .announced
  else .escape

/-- The mode after a character at the start of a device string. -/
def Mode.afterDevice (c : Char) : Mode :=
  if announces c then .deviceAnnounced
  else if isParameter c then .deviceParameters
  else if endsSequence c then .deviceData
  else .device

/-- The mode after a character among the parameters of a device string: a late private mark makes
the string malformed, and all of it is skipped. -/
def Mode.afterDeviceParameter (c : Char) : Mode :=
  if announces c then .deviceAnnounced
  else if isPrivateMark c then .string
  else if endsSequence c then .deviceData
  else .deviceParameters

/-- The mode after a character that follows a device string's announcement: a parameter here makes
the string malformed. -/
def Mode.afterDeviceAnnounced (c : Char) : Mode :=
  if isParameter c then .string
  else if endsSequence c then .deviceData
  else .deviceAnnounced

/-! ## Reading -/

def keepLineFeed (out : String) (c : Char) : String :=
  if c = '\n' then out.push c else out

/-- The byte that ends the data of a device string, wherever it stands. -/
def stringEnd : UInt8 := 0x9c

/-- A byte in the text that continues no character: a control byte is dropped, and any other is
shown as the replacement character. -/
def keepStray (out : String) (b : UInt8) : String :=
  if b < 0xa0 then out else out.push '\ufffd'

/-- Reads a character inside the data of a device string. The data are bytes, so the end may stand
inside the encoding of a character; the bytes after it are then stray bytes of the text. -/
def readDeviceData (out : String) (c : Char) : Mode × String :=
  match (String.utf8EncodeChar c).dropWhile (· != stringEnd) with
  | [] => (.deviceData, out)
  | _ :: stray => (.text, stray.foldl keepStray out)

/-- Reads one character: the new mode, and the text kept so far. -/
def Mode.read : Mode × String → Char → Mode × String
  | (mode, out), c =>
    if c = escapeChar then (.escape, out)
    else
      match mode with
      | .text => (.text, if isDroppedControl c then out else out.push c)
      | .escape => (if isCancel c then .text else .afterEscape c, keepLineFeed out c)
      | .announced =>
        (if isCancel c || completesEscape c then .text else .announced, keepLineFeed out c)
      | .sequence => (if isCancel c || endsSequence c then .text else .sequence, keepLineFeed out c)
      | .command => (if isCancel c || c == '\x07' then .text else .command, out)
      | .string => (if isCancel c then .text else .string, out)
      | .device => (if isCancel c then .text else .afterDevice c, out)
      | .deviceParameters => (if isCancel c then .text else .afterDeviceParameter c, out)
      | .deviceAnnounced => (if isCancel c then .text else .afterDeviceAnnounced c, out)
      | .deviceData => if isCancel c then (.text, out) else readDeviceData out c

/-- The text without escape sequences and without control characters other than the line feed. -/
def strip (s : String) : String :=
  (s.toList.foldl Mode.read (.text, "")).2

end Ember.Text
