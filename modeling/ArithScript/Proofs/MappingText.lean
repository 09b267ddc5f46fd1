import ArithScript.Proofs.MappingOrder
import ArithScript.Proofs.Vlq

/-!
# Reading mapping text back

The mappings of a source map are one text: lines divided by `;`, segments of a line divided by `,`,
and in each segment the differences of its fields from those of the segment before. The generated
column starts again with each line; the other fields run on over the whole text. `SourceMap.decode?`
reads such a text by these rules, knowing nothing of how it was written, and looks up the names that
the numbers stand for.

Writing and reading meet in the middle, at lists of differences. `deltaLines` gives the differences
that are written, line by line; the text is their layout (`encodeMappings_eq_layout`), the layout is
taken apart again (`deltas?_layout`), and adding the differences up gives the fields
(`accumulate_deltaLines`). The cursor of the writing and the totals of the reading are the same
numbers all along, and that is the invariant.
-/

set_option autoImplicit false

namespace ArithScript

namespace SourceMap

/-! ## Reading

A reader by the rules of the format. A segment has four numbers, or five if there is a name; each is
added to a total, and the totals are the fields. -/

/-- A segment as read: the line it is on, and its fields. -/
structure Segment where
  line : Nat
  column : Int
  source : Int
  originLine : Int
  originColumn : Int
  name : Option Int
  deriving DecidableEq, Repr

/-- The sums of the differences read so far. -/
structure Totals where
  column : Int
  source : Int
  originLine : Int
  originColumn : Int
  name : Int
  deriving DecidableEq, Repr

/-- Reads the differences of a segment: four fields, or five if there is a name. -/
def readSegment (line : Nat) (t : Totals) : List Int → Option (Segment × Totals)
  | [column, source, originLine, originColumn] =>
    let t := { t with
      column := t.column + column, source := t.source + source,
      originLine := t.originLine + originLine, originColumn := t.originColumn + originColumn }
    some (⟨line, t.column, t.source, t.originLine, t.originColumn, none⟩, t)
  | [column, source, originLine, originColumn, name] =>
    let t : Totals := ⟨t.column + column, t.source + source, t.originLine + originLine,
      t.originColumn + originColumn, t.name + name⟩
    some (⟨line, t.column, t.source, t.originLine, t.originColumn, some t.name⟩, t)
  | _ => none

/-- Reads the segments of a line. -/
def readLine (line : Nat) : Totals → List (List Int) → Option (List Segment × Totals)
  | t, [] => some ([], t)
  | t, deltas :: rest => do
    let (segment, t) ← readSegment line t deltas
    let (segments, t) ← readLine line t rest
    return (segment :: segments, t)

/-- Reads lines, of which the first has the given number. The column starts again with each. -/
def accumulate : Nat → Totals → List (List (List Int)) → Option (List Segment)
  | _, _, [] => some []
  | line, t, deltas :: rest => do
    let (segments, t) ← readLine line { t with column := 0 } deltas
    return segments ++ (← accumulate (line + 1) t rest)

/-- The differences in a mapping text, by line and segment. -/
def deltas? (text : List Char) : Option (List (List (List Int))) :=
  (text.splitOn ';').mapM fun line =>
    ((line.splitOn ',').filter (· ≠ [])).mapM Vlq.integers?

/-- The segments of a mapping text. -/
def segments? (text : List Char) : Option (List Segment) :=
  (deltas? text).bind (accumulate 0 ⟨0, 0, 0, 0, 0⟩)

/-- The name with a number, if there is one. -/
def nameAt? (names : List String) (index : Int) : Option String :=
  index.toNat?.bind fun i => names[i]?

/-- The mapping of a segment; `none` if a field is negative or a number stands for no name. -/
def Segment.mapping? (sources names : List String) (s : Segment) : Option Mapping := do
  let generated : Position := ⟨s.line, ← s.column.toNat?⟩
  let origin : Position := ⟨← s.originLine.toNat?, ← s.originColumn.toNat?⟩
  let source ← nameAt? sources s.source
  match s.name with
  | none => return ⟨generated, origin, source, none⟩
  | some index => return ⟨generated, origin, source, some (← nameAt? names index)⟩

/-- The mappings that a source map holds, as its text gives them. -/
def decode? (map : SourceMap) : Option (List Mapping) :=
  (segments? map.mappings.toList).bind (List.mapM (Segment.mapping? map.sources map.names))

/-! ## The differences that are written

The writer goes through the mappings with a cursor. Here its output is cut into numbers first and
written second. -/

/-- The differences that a mapping is written as. -/
def segmentDeltas (m : Mapping) (source : Nat) (name : Option Nat) (cursor : Cursor) : List Int :=
  [(m.generated.character : Int) - cursor.column, (source : Int) - cursor.source,
    (m.origin.line : Int) - cursor.originLine, (m.origin.character : Int) - cursor.originColumn]
    ++ match name with
      | some index => [(index : Int) - cursor.name]
      | none => []

theorem segmentDeltas_ne_nil (m : Mapping) (source : Nat) (name : Option Nat) (cursor : Cursor) :
    segmentDeltas m source name cursor ≠ [] := by
  simp [segmentDeltas]

theorem encodeSegment_eq (m : Mapping) (source : Nat) (name : Option Nat) (cursor : Cursor) :
    encodeSegment m source name cursor
      = (segmentDeltas m source name cursor).flatMap Vlq.encode := by
  cases name <;> simp [encodeSegment, segmentDeltas, encodeDelta]

/-- The differences of mappings in order: those on the line of the cursor, and those of the lines
after it. A mapping on a later line leaves the lines between empty. -/
def deltaLines (sources names : List String) :
    Cursor → List Mapping → List (List Int) × List (List (List Int))
  | _, [] => ([], [])
  | cursor, m :: ms =>
    let source := indexIn sources m.source
    let name := m.name.map (indexIn names)
    if m.generated.line ≠ cursor.line then
      let start := cursor.toLine m.generated.line
      let rest := deltaLines sources names (start.after m source name) ms
      ([], List.replicate (m.generated.line - cursor.line - 1) []
        ++ (segmentDeltas m source name start :: rest.1) :: rest.2)
    else
      let rest := deltaLines sources names (cursor.after m source name) ms
      (segmentDeltas m source name cursor :: rest.1, rest.2)

/-- The segments of a line as text. -/
def layoutLine (line : List (List Int)) : List Char :=
  [','].intercalate (line.map (·.flatMap Vlq.encode))

/-- The lines of segments as text. -/
def layout (lines : List (List (List Int))) : List Char :=
  [';'].intercalate (lines.map layoutLine)

/-- What divides a segment from those after it on its line. -/
def comma (line : List (List Int)) : List Char := if line = [] then [] else [',']

@[simp] theorem layoutLine_nil : layoutLine [] = [] := rfl

theorem layoutLine_cons (deltas : List Int) (line : List (List Int)) :
    layoutLine (deltas :: line) = deltas.flatMap Vlq.encode ++ comma line ++ layoutLine line := by
  cases line <;> simp [layoutLine, comma, List.intercalate]

theorem layout_cons (line : List (List Int)) (lines : List (List (List Int))) :
    layout (line :: lines)
      = layoutLine line ++ lines.flatMap fun line => ';' :: layoutLine line := by
  induction lines generalizing line with
  | nil => simp [layout, List.intercalate]
  | cons next lines ih =>
    have hsplit : layout (line :: next :: lines)
        = layoutLine line ++ ';' :: layout (next :: lines) := by
      simp [layout, List.intercalate]
    rw [hsplit, ih, List.flatMap_cons, List.cons_append]

/-- **Mapping text is laid out differences.** Mappings in order, on the line of the cursor or after
it, are written as the differences of those that do not repeat the one before. -/
theorem encodeMappings_eq_layout (sources names : List String) {ms : List Mapping}
    (hsorted : ms.Pairwise fun a b => Mapping.le a b = true) {previous : Option Mapping}
    {cursor : Cursor} (hprevious : ∀ p, previous = some p → p.generated.line = cursor.line)
    (hcursor : ∀ m ∈ ms, cursor.line ≤ m.generated.line) :
    let deltas := deltaLines sources names cursor (dropRepeats previous ms)
    encodeMappings sources names previous cursor ms
      = (if previous.isSome then comma deltas.1 else []) ++ layout (deltas.1 :: deltas.2) := by
  induction ms generalizing previous cursor with
  | nil => simp [encodeMappings, dropRepeats, deltaLines, comma, layout_cons]
  | cons m ms ih =>
    obtain ⟨hm, hsorted⟩ := List.pairwise_cons.mp hsorted
    have hnext : ∀ n ∈ ms, m.generated.line ≤ n.generated.line :=
      fun n hn => Mapping.line_le_of_le (hm n hn)
    have hline := hcursor m List.mem_cons_self
    rw [encodeMappings, dropRepeats]
    -- on the line of the cursor a comma may be due and a repeat may be dropped; a later line starts
    -- over
    by_cases hsame : m.generated.line = cursor.line
    · rw [if_neg (not_not_intro hsame)]
      by_cases hrepeat : previous = some m
      · rw [if_pos hrepeat, if_pos hrepeat]
        exact ih hsorted hprevious fun n hn => hcursor n (List.mem_cons_of_mem _ hn)
      · rw [if_neg hrepeat, if_neg hrepeat, deltaLines, if_neg (not_not_intro hsame)]
        rw [ih hsorted (by rintro p ⟨⟩; exact hsame) fun n hn => hsame ▸ hnext n hn]
        simp only [Option.isSome_some, if_true, layout_cons, layoutLine_cons, encodeSegment_eq]
        simp [comma]
    · have hdiffer : previous ≠ some m := fun heq => hsame (hprevious m heq)
      rw [if_pos hsame, if_neg hdiffer, deltaLines, if_pos hsame]
      dsimp only
      rw [ih hsorted (by rintro p ⟨⟩; rfl) hnext]
      simp only [Option.isSome_some, if_true, layout_cons, encodeSegment_eq]
      -- the lines between the two are empty
      obtain ⟨gap, hgap⟩ : ∃ gap, m.generated.line - cursor.line = gap + 1 :=
        ⟨m.generated.line - cursor.line - 1, by omega⟩
      simp [layoutLine_cons, comma, hgap, List.replicate_succ', List.flatMap_replicate]

/-! ## Taking the text apart

The digits of a number are no separators, so lines and segments are found again at their
separators. -/

theorem mapM_map_eq_some {α β γ : Type} {f : α → β} {g : β → Option γ} {h : α → γ} {xs : List α}
    (hall : ∀ x ∈ xs, g (f x) = some (h x)) : (xs.map f).mapM g = some (xs.map h) := by
  induction xs with
  | nil => rfl
  | cons x xs ih =>
    rw [List.map_cons, List.mapM_cons, hall x List.mem_cons_self,
      ih fun y hy => hall y (List.mem_cons_of_mem _ hy)]
    rfl

theorem not_mem_layoutLine (line : List (List Int)) : ';' ∉ layoutLine line := by
  induction line with
  | nil => simp [layoutLine]
  | cons deltas line ih =>
    rw [layoutLine_cons]
    have hdeltas : ';' ∉ deltas.flatMap Vlq.encode := fun h => (Vlq.mem_flatMap_encode h).2 rfl
    have hcomma : ';' ∉ comma line := by
      unfold comma
      split <;> simp
    simp only [List.mem_append, not_or]
    exact ⟨⟨hdeltas, hcomma⟩, ih⟩

/-- The segments of a line are found again. A line without segments is one empty text between
commas, which is why empty texts are passed over. -/
theorem filter_splitOn_layoutLine {line : List (List Int)} (hne : ∀ deltas ∈ line, deltas ≠ []) :
    ((layoutLine line).splitOn ',').filter (· ≠ []) = line.map (·.flatMap Vlq.encode) := by
  by_cases hline : line = []
  · subst hline
    rfl
  · have hcomma : ∀ text ∈ line.map (·.flatMap Vlq.encode), ',' ∉ text := by
      intro text htext hmem
      obtain ⟨deltas, -, rfl⟩ := List.mem_map.mp htext
      exact (Vlq.mem_flatMap_encode hmem).1 rfl
    rw [layoutLine, List.splitOn_intercalate ',' hcomma (by simpa using hline),
      List.filter_eq_self]
    intro text htext
    obtain ⟨deltas, hdeltas, rfl⟩ := List.mem_map.mp htext
    obtain ⟨n, rest, rfl⟩ := List.exists_cons_of_ne_nil (hne deltas hdeltas)
    simp [Vlq.encode_ne_nil]

/-- **Laid out differences are found again.** -/
theorem deltas?_layout {lines : List (List (List Int))} (hlines : lines ≠ [])
    (hne : ∀ line ∈ lines, ∀ deltas ∈ line, deltas ≠ []) :
    deltas? (layout lines) = some lines := by
  have hsplit : (layout lines).splitOn ';' = lines.map layoutLine := by
    refine List.splitOn_intercalate ';' ?_ (by simpa using hlines)
    intro text htext
    obtain ⟨line, -, rfl⟩ := List.mem_map.mp htext
    exact not_mem_layoutLine line
  rw [deltas?, hsplit, mapM_map_eq_some (h := id), List.map_id]
  intro line hline
  rw [filter_splitOn_layoutLine (hne line hline), mapM_map_eq_some (h := id), List.map_id, id]
  exact fun deltas _ => Vlq.integers?_flatMap_encode deltas

/-- What holds of the differences of each mapping, from every place where the writing may be, holds
of every segment. -/
theorem forall_mem_deltaLines {sources names : List String} {P : List Int → Prop}
    {I : Cursor → Prop} (hline : ∀ cursor line, I cursor → I (cursor.toLine line))
    {ms : List Mapping}
    (hsegment : ∀ m ∈ ms, ∀ cursor, I cursor →
      P (segmentDeltas m (indexIn sources m.source) (m.name.map (indexIn names)) cursor)
        ∧ I (cursor.after m (indexIn sources m.source) (m.name.map (indexIn names))))
    {cursor : Cursor} (hcursor : I cursor) :
    ∀ line ∈ (deltaLines sources names cursor ms).1 :: (deltaLines sources names cursor ms).2,
      ∀ deltas ∈ line, P deltas := by
  induction ms generalizing cursor with
  | nil => simp [deltaLines]
  | cons m ms ih =>
    have hrest := fun n hn => hsegment n (List.mem_cons_of_mem _ hn)
    rw [deltaLines]
    split
    · obtain ⟨hfirst, hafter⟩ :=
        hsegment m List.mem_cons_self _ (hline cursor m.generated.line hcursor)
      have := ih hrest hafter
      simp only [List.forall_mem_cons, List.forall_mem_append] at this ⊢
      refine ⟨by simp, ?_, ⟨hfirst, this.1⟩, this.2⟩
      intro line hline deltas hdeltas
      rw [List.eq_of_mem_replicate hline] at hdeltas
      cases hdeltas
    · obtain ⟨hfirst, hafter⟩ := hsegment m List.mem_cons_self _ hcursor
      have := ih hrest hafter
      simp only [List.forall_mem_cons] at this ⊢
      exact ⟨⟨hfirst, this.1⟩, this.2⟩

/-! ## Adding the differences up

The totals of the reader are the cursor of the writer, before each segment and after it. A new line
sets the column back to zero for both. -/

/-- The sums that are reached where the writing is. -/
def Cursor.totals (cursor : Cursor) : Totals :=
  ⟨cursor.column, cursor.source, cursor.originLine, cursor.originColumn, cursor.name⟩

/-- The segment that a mapping becomes. -/
def segmentOf (sources names : List String) (m : Mapping) : Segment where
  line := m.generated.line
  column := m.generated.character
  source := indexIn sources m.source
  originLine := m.origin.line
  originColumn := m.origin.character
  name := m.name.map fun name => (indexIn names name : Int)

theorem readSegment_segmentDeltas (sources names : List String) (m : Mapping) (cursor : Cursor) :
    readSegment m.generated.line cursor.totals
        (segmentDeltas m (indexIn sources m.source) (m.name.map (indexIn names)) cursor)
      = some (segmentOf sources names m,
          (cursor.after m (indexIn sources m.source) (m.name.map (indexIn names))).totals) := by
  obtain ⟨generated, origin, source, name⟩ := m
  have hsum : ∀ total value : Int, total + (value - total) = value := by
    intro total value
    omega
  cases name with
  | none =>
    simp only [segmentDeltas, readSegment, Cursor.totals, Cursor.after, segmentOf, hsum,
      Option.map_none, List.append_nil, Option.getD_none]
  | some name =>
    simp only [segmentDeltas, readSegment, Cursor.totals, Cursor.after, segmentOf, hsum,
      Option.map_some, List.cons_append, List.nil_append, Option.getD_some]

/-- A mapping is read from the sums before it, and leaves the sums after it. -/
theorem readLine_segmentDeltas {sources names : List String} {m : Mapping} {cursor : Cursor}
    {line : List (List Int)} {segments : List Segment} {t : Totals}
    (hline : readLine m.generated.line
      (cursor.after m (indexIn sources m.source) (m.name.map (indexIn names))).totals line
        = some (segments, t)) :
    readLine m.generated.line cursor.totals
        (segmentDeltas m (indexIn sources m.source) (m.name.map (indexIn names)) cursor :: line)
      = some (segmentOf sources names m :: segments, t) := by
  simp [readLine, readSegment_segmentDeltas, hline]

/-- Lines without segments only count. -/
theorem accumulate_replicate (line : Nat) (t : Totals) (n : Nat) (next : List (List Int))
    (lines : List (List (List Int))) :
    accumulate line t (List.replicate n [] ++ next :: lines)
      = accumulate (line + n) t (next :: lines) := by
  induction n generalizing line t with
  | zero => rfl
  | succ n ih =>
    have hskip : accumulate line t (List.replicate (n + 1) [] ++ next :: lines)
        = accumulate (line + 1) { t with column := 0 } (List.replicate n [] ++ next :: lines) := by
      simp [List.replicate_succ, accumulate, readLine]
    rw [hskip, ih, Nat.add_right_comm, Nat.add_assoc]
    rfl

/-- **The differences add up to the fields.** The first line is read from where the writing is, in
the middle of it; the lines after it follow. -/
theorem accumulate_deltaLines (sources names : List String) {ms : List Mapping}
    (hsorted : ms.Pairwise fun a b => Mapping.le a b = true) {cursor : Cursor}
    (hcursor : ∀ m ∈ ms, cursor.line ≤ m.generated.line) :
    ∃ first t rest,
      readLine cursor.line cursor.totals (deltaLines sources names cursor ms).1 = some (first, t)
        ∧ accumulate (cursor.line + 1) t (deltaLines sources names cursor ms).2 = some rest
        ∧ first ++ rest = ms.map (segmentOf sources names) := by
  induction ms generalizing cursor with
  | nil => exact ⟨[], cursor.totals, [], rfl, rfl, rfl⟩
  | cons m ms ih =>
    obtain ⟨hm, hsorted⟩ := List.pairwise_cons.mp hsorted
    have hnext : ∀ n ∈ ms, m.generated.line ≤ n.generated.line :=
      fun n hn => Mapping.line_le_of_le (hm n hn)
    have hline := hcursor m List.mem_cons_self
    rw [deltaLines]
    by_cases hsame : m.generated.line = cursor.line
    · rw [if_neg (not_not_intro hsame)]
      have hafter : ∀ n ∈ ms, (cursor.after m (indexIn sources m.source)
          (m.name.map (indexIn names))).line ≤ n.generated.line := fun n hn => hsame ▸ hnext n hn
      obtain ⟨first, t, rest, hfirst, hrest, happend⟩ := ih hsorted hafter
      refine ⟨segmentOf sources names m :: first, t, rest, ?_, hrest, ?_⟩
      · rw [← hsame]
        exact readLine_segmentDeltas (by rwa [hsame])
      · rw [List.cons_append, happend, List.map_cons]
    · rw [if_pos hsame]
      have hafter : ∀ n ∈ ms, ((cursor.toLine m.generated.line).after m (indexIn sources m.source)
          (m.name.map (indexIn names))).line ≤ n.generated.line := hnext
      obtain ⟨first, t, rest, hfirst, hrest, happend⟩ := ih hsorted hafter
      -- The line of the cursor ends; those up to the line of the mapping are empty.
      have hgap : cursor.line + 1 + (m.generated.line - cursor.line - 1) = m.generated.line := by
        omega
      refine ⟨[], cursor.totals, segmentOf sources names m :: (first ++ rest), rfl, ?_, ?_⟩
      · have hread : readLine m.generated.line { cursor.totals with column := 0 }
            (segmentDeltas m (indexIn sources m.source) (m.name.map (indexIn names))
              (cursor.toLine m.generated.line) :: _)
                = some (segmentOf sources names m :: first, t) :=
          readLine_segmentDeltas hfirst
        have hrest : accumulate (m.generated.line + 1) t _ = some rest := hrest
        dsimp only
        rw [accumulate_replicate, hgap, accumulate]
        simp only [hread, hrest, Option.bind_eq_bind, Option.bind_some, Option.pure_def,
          List.cons_append]
      · rw [happend, List.nil_append, List.map_cons]

end SourceMap

end ArithScript
