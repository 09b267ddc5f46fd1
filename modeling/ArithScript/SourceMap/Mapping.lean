import ArithScript.Position

/-!
# Mappings

A mapping says that a place of the generated text came from a place of a source, and may name the
symbol that stands there. Mappings are ordered by their generated place first; the other fields
follow so that only equal mappings compare equal.
-/

set_option autoImplicit false

namespace ArithScript

/-- A place of the generated text and the place it came from. -/
structure Mapping where
  generated : Position
  origin : Position
  /-- The name of the source. -/
  source : String
  /-- The name of the symbol, if there is one. -/
  name : Option String
  deriving DecidableEq, Repr, Inhabited

namespace Mapping

/-- The order of names: a mapping without one comes first. -/
def compareNames : Option String → Option String → Ordering
  | none, none => .eq
  | none, some _ => .lt
  | some _, none => .gt
  | some a, some b => compare a b

instance : Ord Mapping where
  compare a b :=
    (compare a.generated b.generated).then <|
    (compare a.source b.source).then <|
    (compare a.origin b.origin).then <|
    compareNames a.name b.name

/-- Whether a mapping may stand before another. -/
def le (a b : Mapping) : Bool := (compare a b).isLE

end Mapping

end ArithScript
