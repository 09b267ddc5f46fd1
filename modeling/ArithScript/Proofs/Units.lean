import ArithScript.Text.Units

/-!
# Cutting a text at its byte offsets

An offset names a place in a text when it is the byte length of some characters at its start. The
lemmas here say so in the direction that everything written by this library needs: a text made of
three parts is cut into those parts at their byte lengths, whatever the characters are. They are
stated over appended lists and never over numbers, so that a stretch of generated text is found
again by the way it was put together.
-/

set_option autoImplicit false

namespace ArithScript.Text

/-! ## The byte length is a sum

Each character has between one and four bytes, so a text has no more characters than bytes. -/

theorem byteLength_from (cs : List Char) :
    ∀ n, cs.foldl (fun n c => n + c.utf8Size) n = n + byteLength cs := by
  induction cs with
  | nil => intro n; rfl
  | cons c cs ih =>
    intro n
    rw [byteLength, List.foldl_cons, List.foldl_cons, ih, ih (0 + c.utf8Size)]
    omega

@[simp] theorem byteLength_nil : byteLength [] = 0 := rfl

@[simp] theorem byteLength_cons (c : Char) (cs : List Char) :
    byteLength (c :: cs) = c.utf8Size + byteLength cs := by
  show List.foldl _ (0 + c.utf8Size) cs = _
  rw [byteLength_from, Nat.zero_add]

@[simp] theorem byteLength_append (cs ds : List Char) :
    byteLength (cs ++ ds) = byteLength cs + byteLength ds := by
  induction cs with
  | nil => simp
  | cons c cs ih => simp [ih, Nat.add_assoc]

theorem length_le_byteLength (cs : List Char) : cs.length ≤ byteLength cs := by
  induction cs with
  | nil => exact Nat.zero_le _
  | cons c cs ih =>
    have hc := Char.utf8Size_pos c
    rw [byteLength_cons, List.length_cons]
    omega

/-- The two byte lengths of a string, that of its encoding and that of its characters, agree. -/
theorem byteLength_toList (s : String) : byteLength s.toList = s.utf8ByteSize := by
  have chars : ∀ cs : List Char, byteLength cs = (String.ofList cs).utf8ByteSize := by
    intro cs
    induction cs with
    | nil => rfl
    | cons c cs ih =>
      rw [← List.singleton_append, String.ofList_append, String.utf8ByteSize_append,
        byteLength_append, ih]
      simp [String.utf8ByteSize_singleton, byteLength]
  rw [chars, String.ofList_toList]

/-! ## Cutting

To drop, count or take bytes is to go over characters until the number is used up. It fails if the
number ends inside a character; at the end of a part it does not. -/

theorem dropBytes?_append (cs ds : List Char) :
    dropBytes? (byteLength cs) (cs ++ ds) = some ds := by
  induction cs with
  | nil => simp [dropBytes?]
  | cons c cs ih =>
    obtain ⟨n, hn⟩ : ∃ n, c.utf8Size + byteLength cs = n + 1 :=
      ⟨c.utf8Size + byteLength cs - 1, by have := c.utf8Size_pos; omega⟩
    rw [byteLength_cons, hn, List.cons_append, dropBytes?, if_pos (by omega), ← hn,
      Nat.add_sub_cancel_left, ih]

theorem countChars?_append (cs ds : List Char) :
    ∀ count, countChars? (byteLength cs) (cs ++ ds) count = some (count + cs.length) := by
  induction cs with
  | nil => simp [countChars?]
  | cons c cs ih =>
    intro count
    obtain ⟨n, hn⟩ : ∃ n, c.utf8Size + byteLength cs = n + 1 :=
      ⟨c.utf8Size + byteLength cs - 1, by have := c.utf8Size_pos; omega⟩
    rw [byteLength_cons, hn, List.cons_append, countChars?, if_pos (by omega), ← hn,
      Nat.add_sub_cancel_left, ih, List.length_cons]
    congr 1
    omega

theorem takeBytes?_append (cs ds : List Char) :
    takeBytes? (byteLength cs) (cs ++ ds) = some cs := by
  rw [takeBytes?, countChars?_append]
  simp

/-- **The middle part of a text is its slice.** -/
theorem slice?_append (before cs after : List Char) :
    slice? (byteLength before) (byteLength before + byteLength cs) (before ++ cs ++ after)
      = some cs := by
  rw [slice?, if_pos (Nat.le_add_right _ _), List.append_assoc, dropBytes?_append,
    Option.bind_some, Nat.add_sub_cancel_left, takeBytes?_append]

end ArithScript.Text
