import ArithScript.Text.Units

/-!
# Positions

A position names a place in a text by its line and, within the line, by the number of UTF-16 units
before it. Both count from zero, and positions are ordered by line first. A range is a pair of
positions; nothing asks its start to come before its stop, because ranges are also read from
outside.
-/

set_option autoImplicit false

namespace ArithScript

/-- A place in a text. -/
structure Position where
  /-- The line, from zero. -/
  line : Nat
  /-- The UTF-16 units before the place on its line. -/
  character : Nat
  deriving DecidableEq, Repr, Inhabited

namespace Position

/-- The start of every text. -/
def zero : Position := ⟨0, 0⟩

/-- The place after one more character: a newline starts the next line, and every other character
moves on by its own width. -/
def advance (p : Position) (c : Char) : Position :=
  if c = '\n' then ⟨p.line + 1, 0⟩ else ⟨p.line, p.character + Text.utf16Units c⟩

/-- The place after a whole text. -/
def advanceBy (p : Position) (cs : List Char) : Position :=
  cs.foldl advance p

/-- Positions compare by line, then by character. -/
instance : Ord Position where
  compare p q := (compare p.line q.line).then (compare p.character q.character)

end Position

/-- Two positions that delimit a stretch of text. -/
structure Range where
  start : Position
  stop : Position
  deriving DecidableEq, Repr, Inhabited

end ArithScript
