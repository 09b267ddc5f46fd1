import ArithScript.Command.Run
import ArithScript.Snapshot

/-!
# What the command prints

Two texts of the command are laid out for people: the lines of mappings and the reports of failures.
This module says what they look like without going through the functions that make them. A mapping
is a line `line:column → line:column`, with a name behind it if there is one (`FlatMapping.line`). A
report has a heading and its causes (`Report.Prints`).

The text of a cause is not always printed as it is: its lines after the first are indented, so that
a reader sees where the next cause starts. Nothing else is changed, and no cause is lost by it
(`indented_injective`).
-/

set_option autoImplicit false

namespace ArithScript

/-- The line that shows a mapping: its places in the script and in the source, each as a line and a
column counted from zero, and its name if it has one. -/
def FlatMapping.line (f : FlatMapping) : String :=
  f.generatedLine.repr ++ ":" ++ f.generatedColumn.repr ++ " → " ++ f.originLine.repr ++ ":"
    ++ f.originColumn.repr ++ f.name.elim "" fun name => ", " ++ name

namespace Command

theorem mappingLine_eq (m : Mapping) : mappingLine m = m.flatten.line := by
  unfold mappingLine FlatMapping.line Mapping.flatten
  cases m.name with
  | none => simp only [Json.naturalText, Nat.repr, Option.elim_none, String.append_assoc]
  | some name => simp only [Json.naturalText, Nat.repr, Option.elim_some, String.append_assoc]

/-! ## Indentation

Lines after the first are moved to the right. Since every line break is followed by the same number
of blanks, they can be taken away again, and so different causes stay different. -/

/-- A text whose lines after the first are indented by some blanks. -/
def indented (width : Nat) (text : String) : List Char :=
  text.toList.flatMap fun c => if c = '\n' then '\n' :: List.replicate width ' ' else [c]

/-- Lines that were split apart are put together with more than a newline. -/
theorem intercalate_splitOn_newline (blanks cs : List Char) :
    ('\n' :: blanks).intercalate (cs.splitOn '\n')
      = cs.flatMap fun c => if c = '\n' then '\n' :: blanks else [c] := by
  induction cs with
  | nil => simp [List.splitOn_nil]
  | cons c cs ih =>
    obtain ⟨line, lines, hlines⟩ := List.exists_cons_of_ne_nil (List.splitOn_ne_nil '\n' cs)
    have hsplit : (c :: cs).splitOn '\n'
        = if c = '\n' then [] :: line :: lines else (c :: line) :: lines := by
      rw [List.splitOn, List.splitOnP_cons_eq_if_modifyHead, ← List.splitOn, hlines]
      simp
    rw [hlines] at ih
    rw [hsplit, List.flatMap_cons, ← ih]
    by_cases hc : c = '\n'
    · rw [if_pos hc, if_pos hc, List.intercalate_cons_cons, List.nil_append]
    · rw [if_neg hc, if_neg hc]
      cases lines with
      | nil => simp
      | cons next lines => simp [List.intercalate_cons_cons]

theorem toList_indentLines (width : Nat) (text : String) :
    (indentLines (String.ofList (List.replicate width ' ')) text).toList = indented width text := by
  have hlines : ((text.toList.splitOn '\n').map String.ofList).map String.toList
      = text.toList.splitOn '\n' := by
    rw [List.map_map]
    exact List.map_id'' (fun cs => String.toList_ofList) _
  rw [indentLines, String.toList_intercalate, hlines, String.toList_append,
    String.toList_ofList (l := List.replicate width ' ')]
  exact intercalate_splitOn_newline _ _

/-- **No text is lost** by indenting it. -/
theorem indented_injective (width : Nat) : Function.Injective (indented width) := by
  have hlists : ∀ cs ds : List Char,
      (cs.flatMap fun c => if c = '\n' then '\n' :: List.replicate width ' ' else [c])
        = (ds.flatMap fun c => if c = '\n' then '\n' :: List.replicate width ' ' else [c]) →
      cs = ds := by
    intro cs
    induction cs with
    | nil =>
      intro ds h
      cases ds with
      | nil => rfl
      | cons d ds =>
        rw [List.flatMap_nil, List.flatMap_cons] at h
        split at h <;> cases h
    | cons c cs ih =>
      intro ds h
      cases ds with
      | nil =>
        rw [List.flatMap_nil, List.flatMap_cons] at h
        split at h <;> cases h
      | cons d ds =>
        rw [List.flatMap_cons, List.flatMap_cons] at h
        -- the first characters agree, and so do the blanks that follow them
        obtain rfl : c = d := by
          split at h <;> split at h
          · next hc hd => exact hc.trans hd.symm
          · next hc hd => exact hc.trans (List.cons.inj h).1
          · next hc hd => exact (List.cons.inj h).1.trans hd.symm
          · exact (List.cons.inj h).1
        rw [ih ds (List.append_cancel_left h)]
  intro text text' h
  exact String.toList_inj.mp (hlists _ _ h)

/-! ## Reports

A report with one cause prints it under the heading, a report with two numbers them. The causes of a
refusal begin with the message that the library gives for it. -/

/-- **How a report is printed**: a heading, and a cause or two under it. Two causes are numbered. -/
inductive Report.Prints (heading : String) : List String → List Char → Prop
  | lone (cause : String) :
      Report.Prints heading [cause]
        (("Error: " ++ heading ++ "\n\nCaused by:\n    ").toList ++ indented 4 cause ++ ['\n'])
  | numbered (first second : String) :
      Report.Prints heading [first, second]
        (("Error: " ++ heading ++ "\n\nCaused by:\n    0: ").toList ++ indented 7 first
          ++ "\n    1: ".toList ++ indented 7 second ++ ['\n'])

theorem Report.toList_text_lone (heading cause : String) :
    (Report.text ⟨heading, [cause]⟩).toList
      = ("Error: " ++ heading ++ "\n\nCaused by:\n    ").toList ++ indented 4 cause ++ ['\n'] := by
  have hblanks : "    " = String.ofList (List.replicate 4 ' ') := by decide
  have hindent := toList_indentLines 4 cause
  rw [← hblanks] at hindent
  unfold Report.text
  simp only [String.toList_append, hindent, List.append_assoc]
  rfl

theorem Report.toList_text_numbered (heading first second : String) :
    (Report.text ⟨heading, [first, second]⟩).toList
      = ("Error: " ++ heading ++ "\n\nCaused by:\n    0: ").toList ++ indented 7 first
        ++ "\n    1: ".toList ++ indented 7 second ++ ['\n'] := by
  have hblanks : "       " = String.ofList (List.replicate 7 ' ') := by decide
  have hindent := toList_indentLines 7
  rw [← hblanks] at hindent
  unfold Report.text numberedCauses numberedCauses numberedCauses
  simp only [String.toList_append, hindent, List.append_assoc]
  rfl

/-- The report of a refusal. -/
theorem prints_refusal (heading : String) (refusal : Refusal) :
    Report.Prints heading (refusalCauses refusal)
      (Report.text ⟨heading, refusalCauses refusal⟩).toList := by
  cases refusal with
  | invalidDocument error =>
    rw [refusalCauses, Report.toList_text_numbered]
    exact .numbered _ _
  | nestingTooDeep error =>
    rw [refusalCauses, Report.toList_text_lone]
    exact .lone _

theorem head_refusalCauses (refusal : Refusal) :
    (refusalCauses refusal).head? = some refusal.message := by
  cases refusal <;> rfl

end Command

end ArithScript
