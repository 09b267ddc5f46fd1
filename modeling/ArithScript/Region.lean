import ArithScript.Position

/-!
# Regions

A region is a stretch of source text, named by its byte offsets and, where known, by its positions
as well. Regions come from outside, so their offsets may be out of order, past the end or inside a
character; every operation here is total on such regions too.
-/

set_option autoImplicit false

namespace ArithScript

/-- A stretch of source text. -/
structure Region where
  /-- The byte offset of its first byte. -/
  offset : Nat
  /-- The byte offset after its last byte. -/
  stop : Nat
  /-- The same stretch in positions, where known. -/
  range : Option Range
  deriving DecidableEq, Repr, Inhabited

namespace Region

/-- The number of bytes of a region; an inverted region has none. -/
def length (r : Region) : Nat := r.stop - r.offset

/-- Whether a region has no bytes. -/
def isEmpty (r : Region) : Bool := r.length == 0

/-- The region from the start of `first` to the stop of `last`. Its range is known only if both
ranges are. -/
def cover (first last : Region) : Region where
  offset := first.offset
  stop := last.stop
  range :=
    match first.range, last.range with
    | some a, some b => some ⟨a.start, b.stop⟩
    | _, _ => none

end Region

end ArithScript
