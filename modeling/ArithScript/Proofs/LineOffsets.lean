import ArithScript.Proofs.WriterPositions

/-!
# Offsets and positions

An index answers two questions: `position?` takes a byte offset to a position, `offset?` takes a
position to a byte offset. The first goes back from the offset to the last line start, the second
goes over one line and counts. Here both are read off the lines of the text (`Text.lines`), each
with its newline: an offset is a column of a line, and the only column that `position?` does not
answer with is the one behind the newline of a line, because that is column zero of the next.

So the two are inverse with this one exception (`offsets_invert_positions`), and whatever is no
column of any line has no offset.
-/

set_option autoImplicit false

namespace ArithScript

namespace Text

/-! ## Lines

A text is its lines, each with the newline at its end but the last. The last line has no newline and
may be empty, so there is always one. -/

/-- The lines of a text. Each but the last ends with its newline. -/
def lines : List Char → List (List Char)
  | [] => [[]]
  | c :: cs => if c = '\n' then [c] :: lines cs else (lines cs).modifyHead (c :: ·)

theorem lines_newline (cs : List Char) : lines ('\n' :: cs) = ['\n'] :: lines cs := rfl

theorem lines_cons {c : Char} (hc : c ≠ '\n') {cs line : List Char} {later : List (List Char)}
    (h : lines cs = line :: later) : lines (c :: cs) = (c :: line) :: later := by
  rw [lines, if_neg hc, h, List.modifyHead_cons]

theorem exists_lines_eq_cons (cs : List Char) : ∃ line later, lines cs = line :: later := by
  induction cs with
  | nil => exact ⟨[], [], rfl⟩
  | cons c cs ih =>
    obtain ⟨line, later, hlines⟩ := ih
    by_cases hc : c = '\n'
    · subst hc
      exact ⟨_, _, lines_newline cs⟩
    · exact ⟨_, _, lines_cons hc hlines⟩

theorem lines_ne_nil (cs : List Char) : lines cs ≠ [] := by
  obtain ⟨line, later, hlines⟩ := exists_lines_eq_cons cs
  rw [hlines]
  exact List.cons_ne_nil line later

theorem of_lines_nil {line : List Char} {earlier later : List (List Char)}
    (h : lines [] = earlier ++ line :: later) : earlier = [] ∧ line = [] := by
  cases earlier with
  | nil => exact ⟨rfl, (List.cons.inj h).1.symm⟩
  | cons first earlier => simp [lines] at h

/-- The lines make up the text. -/
theorem flatten_lines (cs : List Char) : (lines cs).flatten = cs := by
  induction cs with
  | nil => rfl
  | cons c cs ih =>
    obtain ⟨line, later, hlines⟩ := exists_lines_eq_cons cs
    by_cases hc : c = '\n'
    · subst hc
      rw [lines_newline, List.flatten_cons, ih, List.singleton_append]
    · rw [hlines, List.flatten_cons] at ih
      rw [lines_cons hc hlines, List.flatten_cons, List.cons_append, ih]

/-- A text whose first line is empty is empty. -/
theorem eq_nil_of_lines {cs : List Char} {later : List (List Char)} (h : lines cs = [] :: later) :
    later = [] := by
  cases cs with
  | nil => exact (List.cons.inj h).2.symm
  | cons c cs =>
    obtain ⟨line, more, hlines⟩ := exists_lines_eq_cons cs
    by_cases hc : c = '\n'
    · subst hc
      rw [lines_newline] at h
      cases h
    · rw [lines_cons hc hlines] at h
      cases h

/-- **The lines of a text that is cut in two**: the last line before the cut and the first behind it
are one line. -/
theorem lines_append {before after last first : List Char} {earlier later : List (List Char)}
    (hbefore : lines before = earlier ++ [last]) (hafter : lines after = first :: later) :
    lines (before ++ after) = earlier ++ (last ++ first) :: later := by
  induction before generalizing earlier last with
  | nil =>
    obtain ⟨rfl, rfl⟩ := of_lines_nil hbefore
    exact hafter
  | cons c before ih =>
    -- the character goes to the line that begins behind it, unless it ends a line of its own
    obtain ⟨line, more, hlines⟩ := exists_lines_eq_cons before
    by_cases hc : c = '\n'
    · subst hc
      rw [lines_newline] at hbefore
      cases earlier with
      | nil => exact absurd (List.cons.inj hbefore).2 (lines_ne_nil before)
      | cons newline earlier =>
        obtain ⟨rfl, hrest⟩ := List.cons.inj hbefore
        rw [List.cons_append, lines_newline, ih hrest, List.cons_append]
    · rw [lines_cons hc hlines] at hbefore
      cases earlier with
      | nil =>
        obtain ⟨rfl, rfl⟩ := List.cons.inj hbefore
        have hjoined : lines (before ++ after) = (line ++ first) :: later := @ih line [] hlines
        exact lines_cons hc hjoined
      | cons firstLine earlier =>
        obtain ⟨rfl, rfl⟩ := List.cons.inj hbefore
        exact lines_cons hc (@ih last (line :: earlier) hlines)

/-- **The lines before a column.** Unless the column is behind a newline, the text before it has the
earlier lines and the beginning of this one as its lines. -/
theorem lines_before {text before behind : List Char} {earlier later : List (List Char)}
    (h : lines text = earlier ++ (before ++ behind) :: later) (hend : behind = [] → later = []) :
    lines (earlier.flatten ++ before) = earlier ++ [before] := by
  induction text generalizing earlier before with
  | nil =>
    obtain ⟨rfl, hline⟩ := of_lines_nil h
    obtain ⟨rfl, -⟩ := List.append_eq_nil_iff.mp hline
    rfl
  | cons c text ih =>
    obtain ⟨line, more, hlines⟩ := exists_lines_eq_cons text
    by_cases hc : c = '\n'
    · subst hc
      rw [lines_newline] at h
      cases earlier with
      | nil =>
        -- the line is a newline by itself, and lines follow it
        obtain ⟨hline, hlater⟩ := List.cons.inj h
        cases before with
        | nil => rfl
        | cons b before =>
          obtain ⟨-, hbehind⟩ := List.cons.inj hline
          have hnil := hend (List.append_eq_nil_iff.mp hbehind.symm).2
          exact absurd (hlater.trans hnil) (lines_ne_nil text)
      | cons newline earlier =>
        obtain ⟨rfl, hrest⟩ := List.cons.inj h
        rw [List.flatten_cons, List.append_assoc, List.singleton_append, lines_newline, ih hrest,
          List.cons_append]
    · rw [lines_cons hc hlines] at h
      cases earlier with
      | nil =>
        obtain ⟨hline, rfl⟩ := List.cons.inj h
        cases before with
        | nil => rfl
        | cons b before =>
          obtain ⟨rfl, rfl⟩ := List.cons.inj hline
          exact lines_cons hc (@ih before [] hlines)
      | cons firstLine earlier =>
        obtain ⟨rfl, rfl⟩ := List.cons.inj h
        exact lines_cons hc (@ih before (line :: earlier) hlines)

theorem exists_lines_eq_concat (cs : List Char) : ∃ earlier last, lines cs = earlier ++ [last] :=
  ⟨_, _, (List.dropLast_concat_getLast (lines_ne_nil cs)).symm⟩

/-- A place between two characters is a cut of the text. -/
theorem exists_of_dropBytes? {offset : Nat} {text after : List Char}
    (h : dropBytes? offset text = some after) :
    ∃ before, text = before ++ after ∧ byteLength before = offset := by
  fun_induction dropBytes? offset text with
  | case1 cs => exact ⟨[], Option.some.inj h, rfl⟩
  | case2 => cases h
  | case3 n c cs hsize ih =>
    obtain ⟨before, rfl, hlength⟩ := ih h
    refine ⟨c :: before, rfl, ?_⟩
    rw [byteLength_cons, hlength]
    omega
  | case4 => cases h

theorem utf16Length_cons (c : Char) (cs : List Char) :
    utf16Length (c :: cs) = utf16Units c + utf16Length cs := by
  rw [← List.singleton_append, utf16Length_append, utf16Length_singleton]

end Text

open Text

/-- **A position names its line by number**, and counts the units of its last line. -/
theorem Position.advanceBy_of_lines {cs last : List Char} {earlier : List (List Char)}
    (h : lines cs = earlier ++ [last]) :
    zero.advanceBy cs = ⟨earlier.length, utf16Length last⟩ := by
  induction cs using List.reverseRecOn generalizing earlier last with
  | nil =>
    obtain ⟨rfl, rfl⟩ := of_lines_nil h
    rfl
  | append_singleton cs c ih =>
    obtain ⟨before, line, hcs⟩ := exists_lines_eq_concat cs
    rw [advanceBy_append, ih hcs, advanceBy_singleton, advance]
    by_cases hc : c = '\n'
    · subst hc
      rw [lines_append hcs (lines_newline [])] at h
      have hsplit : (before ++ [line ++ ['\n']]) ++ [[]] = earlier ++ [last] := by
        rw [← h, List.append_assoc]
        rfl
      obtain ⟨rfl, hlast⟩ := List.append_inj' hsplit rfl
      obtain rfl := (List.cons.inj hlast).1
      simp
    · rw [lines_append hcs (lines_cons hc rfl)] at h
      obtain ⟨rfl, hlast⟩ := List.append_inj' h rfl
      obtain rfl := (List.cons.inj hlast).1
      simp [hc]

namespace LineIndex

/-! ## Line starts

The table of an index is the byte lengths of the beginnings that end with a newline, and zero in
front. -/

/-- The byte offsets at which lines start that stand in a row from an offset on. -/
def startsFrom : Nat → List (List Char) → List Nat
  | _, [] => []
  | offset, line :: later => offset :: startsFrom (offset + byteLength line) later

theorem startsFrom_append (offset : Nat) (earlier later : List (List Char)) :
    startsFrom offset (earlier ++ later)
      = startsFrom offset earlier ++ startsFrom (offset + byteLength earlier.flatten) later := by
  induction earlier generalizing offset with
  | nil => rfl
  | cons line earlier ih => simp [startsFrom, ih, Nat.add_assoc]

theorem length_startsFrom (offset : Nat) (later : List (List Char)) :
    (startsFrom offset later).length = later.length := by
  induction later generalizing offset with
  | nil => rfl
  | cons line later ih => rw [startsFrom, List.length_cons, ih, List.length_cons]

theorem newlineStops_eq (offset : Nat) (cs : List Char) :
    offset :: newlineStops offset cs = startsFrom offset (lines cs) := by
  induction cs generalizing offset with
  | nil => rfl
  | cons c cs ih =>
    obtain ⟨line, later, hlines⟩ := exists_lines_eq_cons cs
    by_cases hc : c = '\n'
    · subst hc
      have hnewline : byteLength ['\n'] = 1 := by decide
      rw [lines_newline, startsFrom, hnewline, ← ih (offset + 1)]
      rfl
    · have hrest := ih (offset + c.utf8Size)
      rw [hlines, startsFrom, List.cons.injEq] at hrest
      rw [lines_cons hc hlines, newlineStops, if_neg hc, hrest.2, startsFrom, byteLength_cons,
        Nat.add_assoc]

/-- The table of an index holds the starts of the lines. -/
theorem starts_eq (text : List Char) : (ofText text).starts = startsFrom 0 (lines text) :=
  newlineStops_eq 0 text

/-! ## Columns

A place of the text is a line with the part before and the part after the place. In bytes and in
units of UTF-16 the part before has the two numbers that the index deals with. -/

/-- What a look-up counts: a part of the line with the given units, and the bytes of that part. -/
theorem columnBytes?_eq_some_iff {units bytes : Nat} {line : List Char} :
    columnBytes? units line = some bytes
      ↔ ∃ before behind, line = before ++ behind ∧ utf16Length before = units
        ∧ byteLength before = bytes := by
  constructor
  · intro h
    fun_induction columnBytes? units line generalizing bytes with
    | case1 line => exact ⟨[], line, rfl, rfl, Option.some.inj h⟩
    | case2 => cases h
    | case3 units c cs hunits ih =>
      obtain ⟨inner, hinner, rfl⟩ := Option.map_eq_some_iff.mp h
      obtain ⟨before, behind, rfl, hbefore, rfl⟩ := ih hinner
      refine ⟨c :: before, behind, rfl, ?_, byteLength_cons c before⟩
      rw [utf16Length_cons, hbefore]
      omega
    | case4 => cases h
  · rintro ⟨before, behind, rfl, rfl, rfl⟩
    induction before with
    | nil => rw [utf16Length_nil, columnBytes?, byteLength_nil]
    | cons c before ih =>
      obtain ⟨units, hunits⟩ : ∃ units, utf16Units c + utf16Length before = units + 1 :=
        ⟨utf16Units c + utf16Length before - 1, by have := utf16Units_pos c; omega⟩
      rw [utf16Length_cons, hunits, List.cons_append, columnBytes?, if_pos (by omega), ← hunits,
        Nat.add_sub_cancel_left, ih, Option.map_some, byteLength_cons]

/-- **A column of a line.** The place lies on a line with `behind` left of it and `later` lines
after it; its position counts the lines and the units before it, its offset the bytes. -/
def AtColumn (text : List Char) (offset : Nat) (p : Position) (behind : List Char)
    (later : List (List Char)) : Prop :=
  ∃ earlier before, lines text = earlier ++ (before ++ behind) :: later
    ∧ p = ⟨earlier.length, utf16Length before⟩ ∧ offset = byteLength (earlier.flatten ++ before)

/-- A look-up on a line that is there counts on that line. -/
theorem offset?_of_lines {text line : List Char} {earlier later : List (List Char)}
    (h : lines text = earlier ++ line :: later) (character : Nat) :
    (ofText text).offset? ⟨earlier.length, character⟩
      = (columnBytes? character line).map (byteLength earlier.flatten + ·) := by
  have htext : text = earlier.flatten ++ line ++ later.flatten := by
    rw [← flatten_lines text, h]
    simp
  have hstarts : (ofText text).starts
      = startsFrom 0 earlier ++ byteLength earlier.flatten
        :: startsFrom (byteLength earlier.flatten + byteLength line) later := by
    rw [starts_eq, h, startsFrom_append, startsFrom, Nat.zero_add]
  have hstart : (ofText text).starts[earlier.length]? = some (byteLength earlier.flatten) := by
    rw [hstarts, List.getElem?_append_right (Nat.le_of_eq (length_startsFrom 0 earlier)),
      length_startsFrom, Nat.sub_self, List.getElem?_cons_zero]
  -- the line stops where the next one starts, or where the text does
  have hstop : (ofText text).starts.getD (earlier.length + 1) (byteLength text)
      = byteLength earlier.flatten + byteLength line := by
    rw [hstarts, List.getD_eq_getElem?_getD, List.getElem?_append_right
      (by rw [length_startsFrom]; omega), length_startsFrom, Nat.add_sub_cancel_left,
      List.getElem?_cons_succ]
    cases later with
    | nil => simp [startsFrom, htext]
    | cons next later => rfl
  have hslice := slice?_append earlier.flatten line later.flatten
  rw [← htext] at hslice
  unfold offset?
  simp only [hstart, Option.bind_eq_bind, Option.bind_some]
  rw [show (ofText text).text = text from rfl, hstop, slice, hslice, Option.getD_some]
  cases columnBytes? character line <;> rfl

/-- A line that is not there has no columns. -/
theorem offset?_of_length_le {text : List Char} {p : Position} (h : (lines text).length ≤ p.line) :
    (ofText text).offset? p = none := by
  have hstart : (ofText text).starts[p.line]? = none := by
    rw [starts_eq, List.getElem?_eq_none_iff, length_startsFrom]
    exact h
  unfold offset?
  rw [hstart]
  rfl

/-- **The offsets that positions have**: those of columns. -/
theorem offset?_eq_some_iff {text : List Char} {p : Position} {offset : Nat} :
    (ofText text).offset? p = some offset ↔
    ∃ behind later, AtColumn text offset p behind later := by
  constructor
  · intro h
    by_cases hline : p.line < (lines text).length
    · obtain ⟨earlier, line, later, hlines, hlength⟩ :
          ∃ earlier line later, lines text = earlier ++ line :: later
            ∧ earlier.length = p.line := by
        refine ⟨(lines text).take p.line, (lines text)[p.line],
          (lines text).drop (p.line + 1), ?_, ?_⟩
        · rw [List.getElem_cons_drop, List.take_append_drop]
        · rw [List.length_take]
          omega
      obtain ⟨number, character⟩ := p
      obtain rfl : earlier.length = number := hlength
      rw [offset?_of_lines hlines] at h
      obtain ⟨bytes, hbytes, rfl⟩ := Option.map_eq_some_iff.mp h
      obtain ⟨before, behind, rfl, rfl, rfl⟩ := columnBytes?_eq_some_iff.mp hbytes
      exact ⟨behind, later, earlier, before, hlines, rfl, (byteLength_append _ _).symm⟩
    · rw [offset?_of_length_le (Nat.le_of_not_lt hline)] at h
      cases h
  · rintro ⟨behind, later, earlier, before, hlines, rfl, rfl⟩
    rw [offset?_of_lines hlines, columnBytes?_eq_some_iff.mpr ⟨before, behind, rfl, rfl, rfl⟩,
      Option.map_some, byteLength_append]

theorem position?_eq_some_iff {text : List Char} {p : Position} {offset : Nat} :
    (ofText text).position? offset = some p ↔ IsPlace text offset p := by
  constructor
  · intro h
    have hboundary : isBoundary text offset = true := by
      unfold position? at h
      split at h
      · assumption
      · cases h
    obtain ⟨after, hafter⟩ := Option.isSome_iff_exists.mp hboundary
    obtain ⟨before, rfl, rfl⟩ := exists_of_dropBytes? hafter
    rw [position?_append] at h
    exact ⟨before, after, rfl, rfl, (Option.some.inj h).symm⟩
  · exact IsPlace.position?

/-- **The positions that offsets have**: those of columns too, unless they are behind the newline of
a line. -/
theorem position?_eq_some_iff_atColumn {text : List Char} {p : Position} {offset : Nat} :
    (ofText text).position? offset = some p
      ↔ ∃ behind later, AtColumn text offset p behind later ∧ (behind = [] → later = []) := by
  rw [position?_eq_some_iff]
  constructor
  · rintro ⟨before, after, rfl, rfl, rfl⟩
    obtain ⟨earlier, last, hbefore⟩ := exists_lines_eq_concat before
    obtain ⟨first, later, hafter⟩ := exists_lines_eq_cons after
    refine ⟨first, later, ⟨earlier, last, lines_append hbefore hafter, ?_, ?_⟩, ?_⟩
    · exact Position.advanceBy_of_lines hbefore
    · rw [← flatten_lines before, hbefore, List.flatten_append, List.flatten_singleton]
    · rintro rfl
      exact eq_nil_of_lines hafter
  · rintro ⟨behind, later, ⟨earlier, before, hlines, rfl, rfl⟩, hend⟩
    refine ⟨earlier.flatten ++ before, behind ++ later.flatten, ?_, rfl, ?_⟩
    · rw [← flatten_lines text, hlines]
      simp
    · exact (Position.advanceBy_of_lines (lines_before hlines hend)).symm

/-! ## The exception, and what has no offset

The end of a line, behind its newline, is a column of that line, and the start of the next line. The
index finds an offset for both and answers with the second. Whatever is not a column of a line is
refused. -/

/-- A position names the place behind the newline of a line as a column of that line, and so the
start of the next line: the line is not the last, and the position counts all of it. -/
def EndsLine (text : List Char) (p : Position) (offset : Nat) : Prop :=
  ∃ earlier line later, lines text = earlier ++ line :: later ∧ later ≠ []
    ∧ p = ⟨earlier.length, utf16Length line⟩ ∧ offset = byteLength (earlier.flatten ++ line)

theorem offset?_eq_some_iff_position? {text : List Char} {p : Position} {offset : Nat} :
    (ofText text).offset? p = some offset
      ↔ (ofText text).position? offset = some p ∨ EndsLine text p offset := by
  rw [offset?_eq_some_iff, position?_eq_some_iff_atColumn]
  constructor
  · rintro ⟨behind, later, hcolumn⟩
    by_cases hend : behind = [] → later = []
    · exact .inl ⟨behind, later, hcolumn, hend⟩
    · obtain ⟨rfl, hlater⟩ := Classical.not_imp.mp hend
      obtain ⟨earlier, line, hlines, hp, hoffset⟩ := hcolumn
      rw [List.append_nil] at hlines
      exact .inr ⟨earlier, line, later, hlines, hlater, hp, hoffset⟩
  · rintro (⟨behind, later, hcolumn, -⟩ | ⟨earlier, line, later, hlines, -, hp, hoffset⟩)
    · exact ⟨behind, later, hcolumn⟩
    · exact ⟨[], later, earlier, line, by rw [List.append_nil, hlines], hp, hoffset⟩

/-- A column past the end of its line has no offset. -/
theorem offset?_of_column_past {text line : List Char} {p : Position}
    (hline : (lines text)[p.line]? = some line) (hpast : utf16Length line < p.character) :
    (ofText text).offset? p = none := by
  refine Option.eq_none_iff_forall_ne_some.mpr fun offset h => ?_
  obtain ⟨behind, later, earlier, before, hlines, rfl, -⟩ := offset?_eq_some_iff.mp h
  simp only [hlines, List.getElem?_append_right (Nat.le_refl _), Nat.sub_self,
    List.getElem?_cons_zero, Option.some.injEq] at hline
  subst hline
  rw [utf16Length_append] at hpast
  simp only at hpast
  omega

/-- **The middle of a character of two units has no offset.** -/
theorem offset?_of_middle {before after : List Char} {c : Char} (hunits : utf16Units c = 2)
    {p : Position} (hp : (ofText (before ++ c :: after)).position? (byteLength before) = some p) :
    (ofText (before ++ c :: after)).offset? ⟨p.line, p.character + 1⟩ = none := by
  refine Option.eq_none_iff_forall_ne_some.mpr fun offset h => ?_
  have hc : c ≠ '\n' := by
    rintro rfl
    revert hunits
    decide
  obtain ⟨earlier, last, hbefore⟩ := exists_lines_eq_concat before
  obtain ⟨first, later, hafter⟩ := exists_lines_eq_cons after
  have hlines := lines_append hbefore (lines_cons hc hafter)
  rw [position?_append, Position.advanceBy_of_lines hbefore] at hp
  obtain rfl := Option.some.inj hp
  obtain ⟨behind, more, earlier', start, hlines', hplace, -⟩ := offset?_eq_some_iff.mp h
  have hnumber : earlier.length = earlier'.length := congrArg Position.line hplace
  have hcolumn : utf16Length last + 1 = utf16Length start := congrArg Position.character hplace
  -- both places lie on the same line, one before the character and one inside of it
  obtain ⟨-, hline⟩ := List.append_inj (hlines.symm.trans hlines') hnumber
  obtain ⟨hline, -⟩ := List.cons.inj hline
  rcases List.append_eq_append_iff.mp hline with ⟨between, rfl, hbetween⟩ | ⟨between, rfl, -⟩
  · cases between with
    | nil => simp at hcolumn
    | cons d between =>
      obtain ⟨rfl, -⟩ := List.cons.inj hbetween
      rw [utf16Length_append, utf16Length_cons, hunits] at hcolumn
      omega
  · rw [utf16Length_append] at hcolumn
    omega

/-- **Offsets and positions are inverse, with one exception.** Take a text of less than `2 ^ 32`
bytes. A position has an offset exactly if the offset has that position, or if the position names
the end of a line that is not the last and the offset is the start of the next line. An offset has a
position exactly if it is the number of bytes of a beginning of the text; positions are in the order
of their offsets, each leads back to its offset, and its numbers are of their width. The middle of a
character of two units, a column past the end of its line and a line past the end of the text have
no offset. -/
theorem offsets_invert_positions {text : List Char}
    (hsize : byteLength text ≤ Json.Width.coordinate.max) :
    (∀ p offset, (ofText text).offset? p = some offset
        ↔ (ofText text).position? offset = some p ∨ EndsLine text p offset)
      ∧ (∀ offset, (∃ p, (ofText text).position? offset = some p)
          ↔ ∃ before after, text = before ++ after ∧ byteLength before = offset)
      ∧ (∀ offset offset' p p', (ofText text).position? offset = some p →
          (ofText text).position? offset' = some p' → offset < offset' → compare p p' = .lt)
      ∧ (∀ offset p, (ofText text).position? offset = some p →
          (ofText text).offset? p = some offset ∧ p.Fits)
      ∧ (∀ before c after p, text = before ++ c :: after → utf16Units c = 2 →
          (ofText text).position? (byteLength before) = some p →
          (ofText text).offset? ⟨p.line, p.character + 1⟩ = none)
      ∧ (∀ p line, (lines text)[p.line]? = some line → utf16Length line < p.character →
          (ofText text).offset? p = none)
      ∧ ∀ p : Position, (lines text).length ≤ p.line → (ofText text).offset? p = none := by
  refine ⟨fun p offset => offset?_eq_some_iff_position?, fun offset => ⟨?_, ?_⟩, ?_, ?_, ?_,
    fun p line => offset?_of_column_past, fun p => offset?_of_length_le⟩
  · rintro ⟨p, hp⟩
    obtain ⟨before, after, htext, hoffset, -⟩ := position?_eq_some_iff.mp hp
    exact ⟨before, after, htext, hoffset.symm⟩
  · rintro ⟨before, after, rfl, rfl⟩
    exact ⟨_, position?_append before after⟩
  · intro offset offset' p p' hp hp' hlt
    exact (position?_eq_some_iff.mp hp).compare_lt (position?_eq_some_iff.mp hp') hlt
  · intro offset p hp
    refine ⟨offset?_eq_some_iff_position?.mpr (.inl hp), ?_⟩
    obtain ⟨before, after, rfl, rfl, rfl⟩ := position?_eq_some_iff.mp hp
    -- neither coordinate counts more than the bytes before it
    obtain ⟨hline, hcharacter⟩ := Position.advanceBy_le before
    rw [byteLength_append] at hsize
    exact ⟨by omega, by omega⟩
  · rintro before c after p rfl hunits hp
    exact offset?_of_middle hunits hp

/-- In two lines with a character of two units and four bytes: the end of the first line is the
start of the second, where the index answers with the latter; behind the wide character the columns
are two further, and in the middle of it, past the line and past the text there is no offset. -/
theorem offsets_invert_positions_wide :
    byteLength "a\n😀b".toList ≤ Json.Width.coordinate.max
      ∧ (ofText "a\n😀b".toList).offset? ⟨0, 2⟩ = some 2
      ∧ (ofText "a\n😀b".toList).position? 2 = some ⟨1, 0⟩
      ∧ (ofText "a\n😀b".toList).offset? ⟨1, 0⟩ = some 2
      ∧ (ofText "a\n😀b".toList).offset? ⟨1, 2⟩ = some 6
      ∧ (ofText "a\n😀b".toList).offset? ⟨1, 1⟩ = none
      ∧ (ofText "a\n😀b".toList).offset? ⟨1, 4⟩ = none
      ∧ (ofText "a\n😀b".toList).offset? ⟨2, 0⟩ = none := by
  have hsize : byteLength "a\n😀b".toList ≤ Json.Width.coordinate.max := by decide
  obtain ⟨hinverse, -, -, hback, hmiddle, hcolumn, hline⟩ := offsets_invert_positions hsize
  have hstart : (ofText "a\n😀b".toList).position? 2 = some ⟨1, 0⟩ := by decide
  have hwide : (ofText "a\n😀b".toList).position? 6 = some ⟨1, 2⟩ := by decide
  refine ⟨hsize, (hinverse _ _).mpr (.inr ?_), hstart, (hback _ _ hstart).1,
    (hback _ _ hwide).1, ?_, ?_, ?_⟩
  · exact ⟨[], ['a', '\n'], [['😀', 'b']], by decide, by decide, by decide, by decide⟩
  · exact hmiddle ['a', '\n'] '😀' ['b'] ⟨1, 0⟩ (by decide) (by decide) hstart
  · exact hcolumn ⟨1, 4⟩ ['😀', 'b'] (by decide) (by decide)
  · exact hline ⟨2, 0⟩ (by decide)

end LineIndex

end ArithScript
