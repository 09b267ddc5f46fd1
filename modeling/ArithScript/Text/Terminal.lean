/-!
# Text on a terminal

Some characters steer a terminal and do not show on it: the control characters other than blanks,
and the sequences that the escape character begins. `visible` leaves them out of a text.

What ends a sequence depends on its kind, so the filter keeps the kind of the sequence it is in. A
blank inside a sequence of the short kinds shows all the same. From then on plain text shows too,
until a control character comes; the filter is then back in the sequence, unless a character beyond
ASCII has shown in the meantime, which ends it for good.
-/

set_option autoImplicit false

namespace ArithScript.Text

/-- The kinds of sequences, by what may follow. -/
inductive Sequence where
  /-- No sequence: plain text. -/
  | plain
  /-- After the escape character. -/
  | escape
  /-- After the escape character and a mark; the next letter or digit ends it. -/
  | marked
  /-- A control sequence; the next letter ends it. -/
  | control
  /-- The start of a device string. -/
  | device
  /-- The parameters of a device string. -/
  | deviceParameters
  /-- The marks of a device string. -/
  | deviceMarks
  /-- A string that goes on up to its terminator. -/
  | string
  /-- A command for the system; a bell ends it. -/
  | command
  deriving DecidableEq, Repr, Inhabited

/-- Whether a character shows as a gap: a blank of ASCII other than the space and the vertical
tab. -/
def isGap (c : Char) : Bool := c = '\t' || c = '\n' || c = '\x0c' || c = '\r'

/-- Whether a character is beyond ASCII. -/
def isBeyondAscii (c : Char) : Bool := 0x80 ≤ c.toNat

/-- Whether a character of plain text shows. -/
def isPlain (c : Char) : Bool := isGap c || (0x20 ≤ c.toNat && c ≠ '\x7f')

/-- Whether the encoding of a character holds the byte that terminates a string. -/
def holdsTerminator (c : Char) : Bool := (String.utf8EncodeChar c).contains 0x9C

namespace Sequence

/-- The sequence after a character that follows the escape character. -/
def begun (c : Char) : Sequence :=
  if c = '[' then .control
  else if c = ']' then .command
  else if c = 'P' then .device
  else if c = 'X' || c = '^' || c = '_' then .string
  else if '\x20' ≤ c && c ≤ '/' then .marked
  else if '0' ≤ c && c ≤ '~' then .plain
  else .escape

/-- The sequence after a character. Anywhere the escape character begins a new one, and the two
characters for cancelling end it. -/
def next (s : Sequence) (c : Char) : Sequence :=
  if c = '\x1b' then .escape
  else if c = '\x18' || c = '\x1a' then .plain
  else match s with
    | .plain => .plain
    | .escape => begun c
    | .marked => if '0' ≤ c && c ≤ '~' then .plain else .marked
    | .control => if '@' ≤ c && c ≤ '~' then .plain else .control
    | .device =>
      if '\x20' ≤ c && c ≤ '/' then .deviceMarks
      else if '0' ≤ c && c ≤ '?' then .deviceParameters
      else if '@' ≤ c && c ≤ '~' then .string
      else .device
    | .deviceParameters =>
      if '\x20' ≤ c && c ≤ '/' then .deviceMarks
      else if '<' ≤ c && c ≤ '~' then .string
      else .deviceParameters
    | .deviceMarks => if '0' ≤ c && c ≤ '~' then .string else .deviceMarks
    | .string => if holdsTerminator c then .plain else .string
    | .command => if c = '\x07' then .plain else .command

/-- Whether a character inside a sequence shows. -/
def shows (s : Sequence) (c : Char) : Bool :=
  match s with
  | .plain => isPlain c
  | .escape | .marked | .control => isGap c
  | _ => false

end Sequence

/-- What shows of a text that comes inside a sequence. While `showing`, plain text shows although
the sequence has not ended. -/
def visibleFrom (s : Sequence) (showing : Bool) : List Char → List Char
  | [] => []
  | c :: cs =>
    if showing && isPlain c then c :: visibleFrom (if isBeyondAscii c then .plain else s) true cs
    else if s.shows c then c :: visibleFrom (s.next c) true cs
    else visibleFrom (s.next c) false cs

/-- What shows of a text. -/
def visible (text : String) : String := String.ofList (visibleFrom .plain false text.toList)

end ArithScript.Text
