/-!
# Text measured in bytes and in UTF-16 units

Three measures of one text meet in this library: its characters, the bytes of its UTF-8 encoding
(the unit of every offset) and its UTF-16 units (the unit of every column). Texts are lists of
characters here, and an offset is a number of bytes from the start. An offset that falls inside a
character names no place, so cutting at an offset is partial: `dropBytes?` and `slice?` answer
`none` there, and also past the end.
-/

set_option autoImplicit false

namespace ArithScript.Text

/-- The number of UTF-16 units of a character: two beyond the basic plane, one elsewhere. -/
def utf16Units (c : Char) : Nat :=
  if c.toNat < 0x10000 then 1 else 2

/-- The length of a text in bytes of its UTF-8 encoding. -/
def byteLength (cs : List Char) : Nat :=
  cs.foldl (fun n c => n + c.utf8Size) 0

/-- The length of a text in UTF-16 units. -/
def utf16Length (cs : List Char) : Nat :=
  cs.foldl (fun n c => n + utf16Units c) 0

/-- What is left of a text after its first `n` bytes; `none` if the cut falls inside a character or
past the end. -/
def dropBytes? : Nat → List Char → Option (List Char)
  | 0, cs => some cs
  | _ + 1, [] => none
  | n + 1, c :: cs => if c.utf8Size ≤ n + 1 then dropBytes? (n + 1 - c.utf8Size) cs else none

/-- The number of leading characters that fill exactly `n` bytes, on top of `count` already
counted; `none` if no number of them does. -/
def countChars? : Nat → List Char → Nat → Option Nat
  | 0, _, count => some count
  | _ + 1, [], _ => none
  | n + 1, c :: cs, count =>
    if c.utf8Size ≤ n + 1 then countChars? (n + 1 - c.utf8Size) cs (count + 1) else none

/-- The first `n` bytes of a text; `none` if the cut falls inside a character or past the end. -/
def takeBytes? (n : Nat) (cs : List Char) : Option (List Char) :=
  (countChars? n cs 0).map cs.take

/-- The bytes from `offset` up to `stop`; `none` if they are out of order or either cut names no
place in the text. -/
def slice? (offset stop : Nat) (cs : List Char) : Option (List Char) :=
  if offset ≤ stop then (dropBytes? offset cs).bind (takeBytes? (stop - offset)) else none

/-- The same bytes, and the empty text where there is no such slice. -/
def slice (offset stop : Nat) (cs : List Char) : List Char :=
  (slice? offset stop cs).getD []

/-- Whether a byte offset is a boundary between characters, the end included. -/
def isBoundary (cs : List Char) (offset : Nat) : Bool :=
  (dropBytes? offset cs).isSome

end ArithScript.Text
