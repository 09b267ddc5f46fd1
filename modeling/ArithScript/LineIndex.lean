import ArithScript.Region

/-!
# Line index

A line index turns byte offsets of one text into positions and back. It holds the byte offsets at
which lines start, so a look-up reads a single line. A line runs up to the start of the next one
and so includes its newline; the place after that newline has two names, the end of the line and
the start of the next, and `position?` answers with the second.
-/

set_option autoImplicit false

namespace ArithScript

/-- A text with the byte offsets at which its lines start. -/
structure LineIndex where
  /-- The indexed text. -/
  text : List Char
  /-- The starts of its lines, ascending; the first is zero. -/
  starts : List Nat
  deriving Repr

namespace LineIndex

/-- The offsets after each newline of a text that itself starts at `offset`. -/
def newlineStops : Nat → List Char → List Nat
  | _, [] => []
  | offset, c :: cs =>
    if c = '\n' then (offset + 1) :: newlineStops (offset + 1) cs
    else newlineStops (offset + c.utf8Size) cs

/-- The index of a text. -/
def ofText (text : List Char) : LineIndex where
  text := text
  starts := 0 :: newlineStops 0 text

/-- The position of a byte offset; `none` if it is no character boundary of the text. The line is
the last that starts at the offset or before it. -/
def position? (index : LineIndex) (offset : Nat) : Option Position :=
  if Text.isBoundary index.text offset then
    let line := (index.starts.takeWhile (· ≤ offset)).length - 1
    let start := index.starts.getD line 0
    some ⟨line, Text.utf16Length (Text.slice start offset index.text)⟩
  else
    none

/-- The bytes of a line before the place that lies `units` UTF-16 units into it; `none` if that
place is inside a character or past the line. -/
def columnBytes? : Nat → List Char → Option Nat
  | 0, _ => some 0
  | _ + 1, [] => none
  | units + 1, c :: cs =>
    if Text.utf16Units c ≤ units + 1 then
      (columnBytes? (units + 1 - Text.utf16Units c) cs).map (c.utf8Size + ·)
    else
      none

/-- The byte offset of a position; `none` if the text has no such line, or the line no such
column. -/
def offset? (index : LineIndex) (p : Position) : Option Nat := do
  let start ← index.starts[p.line]?
  let stop := index.starts.getD (p.line + 1) (Text.byteLength index.text)
  let bytes ← columnBytes? p.character (Text.slice start stop index.text)
  return start + bytes

/-- The range between two byte offsets; `none` if they are out of order or either is no character
boundary. -/
def range? (index : LineIndex) (offset stop : Nat) : Option Range :=
  if offset ≤ stop then do
    return ⟨← index.position? offset, ← index.position? stop⟩
  else
    none

/-- The region between two byte offsets, with its range where it has one. -/
def region (index : LineIndex) (offset stop : Nat) : Region :=
  ⟨offset, stop, index.range? offset stop⟩

end LineIndex

end ArithScript
