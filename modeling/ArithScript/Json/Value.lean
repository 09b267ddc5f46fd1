import ArithScript.Double

/-!
# JSON values

A JSON value in memory. Integers are kept apart from other numbers, because a reader may ask for
one and refuse the other. Members of an object stand in the order in which they are written, and a
name may occur more than once: which names are allowed is for the reader of the object to say.
-/

set_option autoImplicit false

namespace ArithScript.Json

/-- A JSON value. -/
inductive Value where
  | null
  | boolean (value : Bool)
  | integer (value : Int)
  | real (value : Double)
  | string (value : String)
  | array (items : List Value)
  | object (members : List (String × Value))
  deriving Inhabited

mutual

/-- How many arrays and objects of a value lie inside one another, at the deepest place. -/
def Value.nesting : Value → Nat
  | .array items => 1 + itemsNesting items
  | .object found => 1 + membersNesting found
  | _ => 0

/-- The greatest nesting of some values. -/
def itemsNesting : List Value → Nat
  | [] => 0
  | item :: items => max item.nesting (itemsNesting items)

/-- The greatest nesting of the values of some members. -/
def membersNesting : List (String × Value) → Nat
  | [] => 0
  | (_, item) :: rest => max item.nesting (membersNesting rest)

end

end ArithScript.Json
