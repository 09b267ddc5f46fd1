import ArithScript.LineIndex
import ArithScript.Proofs.MappingOrder
import ArithScript.Proofs.Units
import Mathlib.Data.List.Induction

/-!
# Positions in a text

A position is found in two ways: by going over the text character by character (`advanceBy`), or by
looking up a byte offset in the table of line starts (`LineIndex.position?`). They agree wherever
the offset is a place of the text, and it is enough to say so for a text that is cut in two
(`position?_append`): what comes after the cut has no say, since its lines start later.

Both counts stay below the number of bytes, and a longer text has a later position.
-/

set_option autoImplicit false

namespace ArithScript

namespace Text

theorem utf16Length_from (cs : List Char) :
    ∀ n, cs.foldl (fun n c => n + utf16Units c) n = n + utf16Length cs := by
  induction cs with
  | nil => intro n; rfl
  | cons c cs ih =>
    intro n
    rw [utf16Length, List.foldl_cons, List.foldl_cons, ih, ih (0 + utf16Units c)]
    omega

@[simp] theorem utf16Length_nil : utf16Length [] = 0 := rfl

@[simp] theorem utf16Length_append (cs ds : List Char) :
    utf16Length (cs ++ ds) = utf16Length cs + utf16Length ds := by
  rw [utf16Length, List.foldl_append, utf16Length_from]
  rfl

@[simp] theorem utf16Length_singleton (c : Char) : utf16Length [c] = utf16Units c := by
  simp [utf16Length]

theorem utf16Units_pos (c : Char) : 0 < utf16Units c := by
  unfold utf16Units
  split <;> decide

/-- A character has at least as many bytes as UTF-16 units. -/
theorem utf16Units_le_utf8Size (c : Char) : utf16Units c ≤ c.utf8Size := by
  unfold utf16Units
  split
  · exact c.utf8Size_pos
  · next hwide =>
    have hnarrow : ∀ bound : UInt32, bound.toNat < 0x10000 → ¬ c.val ≤ bound := by
      intro bound hbound hle
      have : c.val.toNat ≤ bound.toNat := hle
      exact hwide (Nat.lt_of_le_of_lt this hbound)
    simp [Char.utf8Size, hnarrow]

end Text

open Text

namespace Position

@[simp] theorem advanceBy_nil (p : Position) : p.advanceBy [] = p := rfl

@[simp] theorem advanceBy_append (p : Position) (cs ds : List Char) :
    p.advanceBy (cs ++ ds) = (p.advanceBy cs).advanceBy ds :=
  List.foldl_append

@[simp] theorem advanceBy_singleton (p : Position) (c : Char) : p.advanceBy [c] = p.advance c := rfl

end Position

namespace LineIndex

/-! ## The starts of lines

A line starts at zero, and behind every newline. For a text that is cut in two, the starts are those
of the first part and, further on, those of the second. -/

theorem newlineStops_append (offset : Nat) (cs ds : List Char) :
    newlineStops offset (cs ++ ds)
      = newlineStops offset cs ++ newlineStops (offset + byteLength cs) ds := by
  induction cs generalizing offset with
  | nil => simp [newlineStops]
  | cons c cs ih =>
    have hnewline : '\n'.utf8Size = 1 := by decide
    by_cases hc : c = '\n'
    · subst hc
      simp [newlineStops, ih, hnewline, Nat.add_assoc]
    · simp [newlineStops, ih, hc, Nat.add_assoc]

theorem mem_newlineStops {offset : Nat} {cs : List Char} {stop : Nat}
    (h : stop ∈ newlineStops offset cs) : offset < stop ∧ stop ≤ offset + byteLength cs := by
  induction cs generalizing offset with
  | nil => simp [newlineStops] at h
  | cons c cs ih =>
    have hsize := c.utf8Size_pos
    rw [byteLength_cons]
    by_cases hc : c = '\n'
    · rw [newlineStops, if_pos hc] at h
      rcases List.mem_cons.mp h with rfl | h
      · omega
      · have := ih h
        omega
    · rw [newlineStops, if_neg hc] at h
      have := ih h
      omega

/-- **The last line of a text.** The text ends with a part without newlines, this part starts at the
last of the line starts, and the position at its end counts the line starts and the units of the
part. -/
theorem exists_lastLine (cs : List Char) :
    ∃ lines line, cs = lines ++ line
      ∧ (0 :: newlineStops 0 cs).getLast? = some (byteLength lines)
      ∧ Position.zero.advanceBy cs = ⟨(newlineStops 0 cs).length, utf16Length line⟩ := by
  induction cs using List.reverseRecOn with
  | nil => exact ⟨[], [], rfl, rfl, rfl⟩
  | append_singleton cs c ih =>
    obtain ⟨lines, line, hcs, hlast, hposition⟩ := ih
    have hstops := newlineStops_append 0 cs [c]
    rw [Nat.zero_add] at hstops
    rw [hstops, Position.advanceBy_append, hposition, Position.advanceBy_singleton]
    by_cases hc : c = '\n'
    · -- a newline starts a new last line, which is empty
      subst hc
      refine ⟨cs ++ ['\n'], [], by simp, ?_, ?_⟩
      · have hnewline : '\n'.utf8Size = 1 := by decide
        simp [newlineStops, hnewline, List.getLast?_cons]
      · simp [newlineStops, Position.advance]
    · refine ⟨lines, line ++ [c], by simp [hcs], ?_, ?_⟩
      · simpa [newlineStops, hc] using hlast
      · simp [newlineStops, hc, Position.advance]

/-! ## Looking up a place

The last start that is not behind the place is found, and the units from there on are counted. Going
over the text keeps the same two numbers. -/

/-- The line starts up to a place are those of the text before it. -/
theorem takeWhile_starts (before after : List Char) :
    (ofText (before ++ after)).starts.takeWhile (· ≤ byteLength before)
      = 0 :: newlineStops 0 before := by
  have hbefore : ∀ start ∈ newlineStops 0 before, decide (start ≤ byteLength before) = true := by
    intro start hstart
    have := mem_newlineStops hstart
    simp only [decide_eq_true_eq]
    omega
  have hafter : (newlineStops (byteLength before) after).takeWhile (· ≤ byteLength before)
      = [] := by
    cases hstops : newlineStops (byteLength before) after with
    | nil => rfl
    | cons stop stops =>
      have : byteLength before < stop := (mem_newlineStops (hstops ▸ List.mem_cons_self)).1
      simp [this]
  simp only [ofText, newlineStops_append, Nat.zero_add]
  rw [List.takeWhile_cons_of_pos (by simp), List.takeWhile_append_of_pos hbefore, hafter,
    List.append_nil]

/-- **The position of a place** is where going over the text before it ends, whatever follows. -/
theorem position?_append (before after : List Char) :
    (ofText (before ++ after)).position? (byteLength before)
      = some (Position.zero.advanceBy before) := by
  obtain ⟨lines, line, hbefore, hlast, hposition⟩ := exists_lastLine before
  have hboundary : isBoundary (before ++ after) (byteLength before) = true := by
    rw [isBoundary, dropBytes?_append]
    rfl
  -- the starts that come later belong to `after`, so the one looked up is the last of `before`
  have hstart : (ofText (before ++ after)).starts.getD (newlineStops 0 before).length 0
      = byteLength lines := by
    have hget : (0 :: newlineStops 0 before)[(newlineStops 0 before).length]?
        = some (byteLength lines) := by
      rw [← hlast, List.getLast?_eq_getElem?]
      rfl
    have hstarts : (ofText (before ++ after)).starts
        = (0 :: newlineStops 0 before) ++ newlineStops (byteLength before) after := by
      simp [ofText, newlineStops_append]
    rw [hstarts, List.getD_eq_getElem?_getD, List.getElem?_append_left (by simp), hget]
    rfl
  have hslice : slice (byteLength lines) (byteLength before) (before ++ after) = line := by
    have := slice?_append lines line after
    rw [← hbefore] at this
    rw [slice, hbefore, byteLength_append, ← hbefore, this]
    rfl
  unfold position?
  rw [show (ofText (before ++ after)).text = before ++ after from rfl, if_pos hboundary,
    takeWhile_starts, hposition]
  simp only [List.length_cons, Nat.add_sub_cancel, hstart, hslice]

end LineIndex

/-! ## The order of positions

Positions are compared by line, then by column. A character moves a position to a later one, whether
it is a newline or not. -/

namespace Position

theorem compare_advance (p : Position) (c : Char) : compare p (p.advance c) = .lt := by
  show (compare p.line (p.advance c).line).then (compare p.character (p.advance c).character) = .lt
  unfold advance
  split
  · simp [Nat.compare_eq_lt.mpr (Nat.lt_succ_self p.line)]
  · have : p.character < p.character + utf16Units c := Nat.lt_add_of_pos_right (utf16Units_pos c)
    simp [Nat.compare_eq_lt.mpr this]

/-- **More text, a later position.** -/
theorem compare_advanceBy (p : Position) {cs : List Char} (h : cs ≠ []) :
    compare p (p.advanceBy cs) = .lt := by
  induction cs using List.reverseRecOn with
  | nil => exact absurd rfl h
  | append_singleton cs c ih =>
    rw [advanceBy_append, advanceBy_singleton]
    by_cases hcs : cs = []
    · subst hcs
      exact p.compare_advance c
    · exact Std.TransCmp.lt_trans (ih hcs) ((p.advanceBy cs).compare_advance c)

/-- Neither count of a position runs ahead of the bytes. -/
theorem advanceBy_le (cs : List Char) :
    (zero.advanceBy cs).line ≤ byteLength cs ∧ (zero.advanceBy cs).character ≤ byteLength cs := by
  induction cs using List.reverseRecOn with
  | nil => exact ⟨Nat.le_refl _, Nat.le_refl _⟩
  | append_singleton cs c ih =>
    obtain ⟨hline, hcharacter⟩ := ih
    have hunits := utf16Units_le_utf8Size c
    have hsize := c.utf8Size_pos
    rw [advanceBy_append, advanceBy_singleton, byteLength_append, byteLength_cons, byteLength_nil]
    unfold advance
    split
    · refine ⟨?_, Nat.zero_le _⟩
      simp only
      omega
    · constructor
      · simp only
        omega
      · simp only
        omega

end Position

end ArithScript
