import ArithScript.Proofs.Generation
import ArithScript.Proofs.WriterExtension

/-!
# Later statements

The table of definitions is made from a whole module before its first statement is lowered.
Nevertheless a statement can be lowered without knowing what comes after it: of the table it sees
the earlier definitions only. `lower_append` says so by comparing two runs, of a module and of the
same module with more statements, whatever these define or redefine. The script of the first is the
beginning of that of the second, up to the tail that closes every script, and the nodes of the
statements are the same nodes.

Both runs come through one writer, the one at which the statements of the shorter module are
written. From there on each goes its own way, and none of the ways touches a node that is already
closed.
-/

set_option autoImplicit false

namespace ArithScript

open Trace Lowering

/-! ## The statements of a script, and its tail

A script is the opening, which holds the statements, and a tail that is always the same. The
fragments of more statements begin with those of fewer, since each looks back only. -/

theorem statementFragments_append (earlier : List String) (ss ts : List Statement) :
    statementFragments earlier (ss ++ ts)
      = statementFragments earlier ss
        ++ statementFragments (earlier ++ ss.flatMap Statement.defines) ts := by
  induction ss generalizing earlier with
  | nil => simp [statementFragments]
  | cons s ss ih => simp [statementFragments, ih]

/-- How the function body of a script goes, up to the end of some statements. -/
def bodyStart (ss : List Statement) : List Fragment :=
  [.text "let ", .text tracker, .text ";"] ++ statementFragments [] ss

/-- How it goes on behind the last statement. -/
def bodyTail : List Fragment :=
  [.text "\n\n", .text indent, .text "return ", .text tracker, .text ";"]

/-- The tail of every script: a blank line, the returned value and the closing brackets. -/
def scriptTail : String := "\n\n" ++ indent ++ "return " ++ tracker ++ ";" ++ "\n\x7d)"

theorem bodyStart_append (ss ts : List Statement) :
    bodyStart (ss ++ ts)
      = bodyStart ss ++ statementFragments (ss.flatMap Statement.defines) ts := by
  simp [bodyStart, statementFragments_append]

namespace Module

/-- The script up to the end of some statements. -/
def opening (ss : List Statement) : List Char :=
  Fragment.allChars ([.text "\"use strict\";\n(() => \x7b\n", .text indent] ++ bodyStart ss)

theorem allChars_fragments (region : Option Region) (ss : List Statement) :
    Fragment.allChars (fragments ⟨region, ss⟩) = opening ss ++ scriptTail.toList := by
  simp [fragments, body, opening, scriptTail, bodyStart, Fragment.chars]

theorem isPrefix_opening (ss ts : List Statement) : opening ss <+: opening (ss ++ ts) := by
  rw [opening, opening, bodyStart_append]
  simp [← List.append_assoc]

/-! ## The nodes of the statements

While the statements are written only the node of the module is open. So a node of a statement is
closed when the next one begins, and stays as it is; the node of the module is not, and is left out
of the comparison. -/

/-- The writer at the first statement, inside the node of the module if there is a region for it. -/
def begun (region : Option Region) : Writer :=
  (((Writer.start.append "\"use strict\";\n(() => \x7b\n").append indent).openIf region).2

/-- The number of the first node that belongs to a statement: before it come the root and, if there
is one, the node of the module. -/
def firstNode (region : Option Region) : Nat := if region.isSome then 2 else 1

theorem head_active_begun (region : Option Region) {id : Nat} (h : firstNode region ≤ id) :
    (begun region).active.head? ≠ some id := by
  cases region with
  | none =>
    have hid : 1 ≤ id := h
    simp only [begun, Writer.openIf, Writer.append, Writer.start, Tree.root, List.head?_cons, ne_eq,
      Option.some.injEq]
    omega
  | some region =>
    have hid : 2 ≤ id := h
    show some 1 ≠ some id
    rw [ne_eq, Option.some.injEq]
    omega

/-- The writer at the end of some statements. -/
def written (region : Option Region) (ss : List Statement) : Writer :=
  Fragment.writeAll (bodyStart ss) (begun region)

/-- What is written behind the statements ends the node of the module and leaves the others
alone. -/
theorem nodes_writer (region : Option Region) (ss : List Statement) :
    (writer ⟨region, ss⟩).nodes
      = match region with
        | none => (written none ss).nodes
        | some r => (Fragment.writeAll bodyTail (written (some r) ss)).endTarget 1 := by
  cases region with
  | none =>
    show (Fragment.writeAll (bodyStart ss ++ bodyTail) (begun none)).nodes = _
    rw [Fragment.writeAll_append]
    rfl
  | some r =>
    show (Fragment.writeAll (bodyStart ss ++ bodyTail) (begun (some r))).endTarget 1 = _
    rw [Fragment.writeAll_append]
    rfl

theorem size_finish (region : Option Region) (ss : List Statement) :
    (writer ⟨region, ss⟩).finish.2.size = (written region ss).nodes.size := by
  show ((writer ⟨region, ss⟩).close Tree.root).nodes.size = _
  rw [Writer.size_close, nodes_writer]
  cases region with
  | none => rfl
  | some r => exact Writer.size_close 1 (Fragment.writeAll bodyTail (written (some r) ss))

theorem node?_finish (region : Option Region) (ss : List Statement) {id : Nat}
    (h : firstNode region ≤ id) :
    (writer ⟨region, ss⟩).finish.2.node? id = (written region ss).nodes[id]? := by
  have hroot : Tree.root ≠ id := by
    have hpos : 0 < firstNode region := by
      unfold firstNode
      split <;> decide
    exact Nat.ne_of_lt (Nat.lt_of_lt_of_le hpos h)
  show ((writer ⟨region, ss⟩).endTarget Tree.root)[id]? = _
  rw [Writer.getElem?_endTarget _ hroot, nodes_writer]
  cases region with
  | none => rfl
  | some r => exact Writer.getElem?_endTarget _ (Nat.ne_of_lt h)

/-- More statements leave the nodes of those before them alone. -/
theorem getElem?_written (region : Option Region) (ss ts : List Statement) {id : Nat}
    (hfirst : firstNode region ≤ id) (hid : id < (written region ss).nodes.size) :
    (written region (ss ++ ts)).nodes[id]? = (written region ss).nodes[id]? := by
  have hkeeps := Fragment.keeps_writeAll (statementFragments (ss.flatMap Statement.defines) ts)
    (written region ss)
  rw [written, bodyStart_append, Fragment.writeAll_append]
  refine hkeeps.getElem?_eq hid ?_
  rw [written, Fragment.active_writeAll]
  exact head_active_begun region hfirst

theorem size_written_le (region : Option Region) (ss ts : List Statement) :
    (written region ss).nodes.size ≤ (written region (ss ++ ts)).nodes.size := by
  have hkeeps := Fragment.keeps_writeAll (statementFragments (ss.flatMap Statement.defines) ts)
    (written region ss)
  rw [written, written, bodyStart_append, Fragment.writeAll_append]
  exact hkeeps.size

theorem height_le_append (region : Option Region) (ss ts : List Statement) :
    height ⟨region, ss⟩ ≤ height ⟨region, ss ++ ts⟩ := by
  have hall := Expr.maxHeight_le_iff.mp (Nat.le_refl (height ⟨region, ss ++ ts⟩))
  refine Expr.maxHeight_le_iff.mpr fun e he => hall e ?_
  rw [List.map_append]
  exact List.mem_append_left _ he

/-- **Later statements never influence earlier output.** If a module with the statements `ss ++ ts`
is lowered, so is the module with the statements `ss` alone. Without its tail the script of `ss` is
the beginning of the script of `ss ++ ts`, and every node that was made for a statement of `ss` has
the same number in both traces and is the same node, with its source, its target and its
children. -/
theorem lower_append {region : Option Region} {ss ts : List Statement} {maxDepth : Nat}
    {script : String} {tree : Tree} (h : lower ⟨region, ss ++ ts⟩ maxDepth = .ok (script, tree)) :
    ∃ script₀ tree₀ opening rest, lower ⟨region, ss⟩ maxDepth = .ok (script₀, tree₀)
      ∧ script₀ = opening ++ scriptTail ∧ script = opening ++ rest
      ∧ tree₀.size ≤ tree.size
      ∧ ∀ id, firstNode region ≤ id → id < tree₀.size → tree.node? id = tree₀.node? id := by
  -- more statements only nest deeper, so the shorter module is lowered too
  have hheight : height ⟨region, ss ++ ts⟩ ≤ maxDepth := by
    rw [lower_eq] at h
    split at h
    · assumption
    · cases h
  have hfinish := finish_writer_of_lower h
  obtain rfl : (writer ⟨region, ss ++ ts⟩).text = script := congrArg Prod.fst hfinish
  obtain rfl : (writer ⟨region, ss ++ ts⟩).finish.2 = tree := congrArg Prod.snd hfinish
  have hlower : lower ⟨region, ss⟩ maxDepth
      = .ok ((writer ⟨region, ss⟩).text, (writer ⟨region, ss⟩).finish.2) := by
    rw [lower_eq, if_pos (Nat.le_trans (height_le_append region ss ts) hheight)]
    rfl
  obtain ⟨more, hmore⟩ := isPrefix_opening ss ts
  refine ⟨_, _, String.ofList (opening ss), String.ofList more ++ scriptTail, hlower,
    ?_, ?_, ?_, ?_⟩
  · apply String.ext
    rw [toList_writer, allChars_fragments, String.toList_append, String.toList_ofList]
  · apply String.ext
    rw [toList_writer, allChars_fragments, ← hmore]
    simp
  · rw [size_finish, size_finish]
    exact size_written_le region ss ts
  · intro id hfirst hid
    rw [size_finish] at hid
    rw [node?_finish region _ hfirst, node?_finish region _ hfirst,
      getElem?_written region ss ts hfirst hid]

/-- The statements `DEF x: 1; x + y;`. -/
def earlierStatements : List Statement :=
  [.definition ⟨"x", some ⟨4, 5, none⟩, [], .literal ⟨0x3FF0000000000000⟩ none, some ⟨0, 9, none⟩⟩,
    .evaluation ⟨.binary .add none (.call ⟨"x", none⟩ [] none)
      (.call ⟨"y", some ⟨14, 15, none⟩⟩ [] none) none, some ⟨10, 16, none⟩⟩]

/-- The statements `DEF y: 2; DEF x: y;`, which define both names again. -/
def laterStatements : List Statement :=
  [.definition ⟨"y", none, [], .literal ⟨0x4000000000000000⟩ none, some ⟨17, 26, none⟩⟩,
    .definition ⟨"x", none, [], .call ⟨"y", none⟩ [] none, some ⟨27, 36, none⟩⟩]

/-- The five nodes of the earlier statements do not change when both of their names are defined
later. -/
theorem lower_append_redefined :
    ∃ script tree script₀ tree₀ opening rest,
      lower ⟨some ⟨0, 36, none⟩, earlierStatements ++ laterStatements⟩ 2 = .ok (script, tree)
        ∧ lower ⟨some ⟨0, 36, none⟩, earlierStatements⟩ 2 = .ok (script₀, tree₀)
        ∧ script₀ = opening ++ scriptTail ∧ script = opening ++ rest
        ∧ tree₀.size = 7
        ∧ ∀ id, 2 ≤ id → id < 7 → tree.node? id = tree₀.node? id := by
  have hlower := lower_eq ⟨some ⟨0, 36, none⟩, earlierStatements ++ laterStatements⟩ 2
  rw [if_pos (by decide)] at hlower
  obtain ⟨script₀, tree₀, opening, rest, hlower₀, htail, hrest, -, hnodes⟩ := lower_append hlower
  have hsize : tree₀.size = 7 := by
    have hfinish := congrArg (·.2.size) (finish_writer_of_lower hlower₀)
    exact hfinish.symm.trans (by decide +kernel)
  refine ⟨_, _, script₀, tree₀, opening, rest, hlower, hlower₀, htail, hrest, hsize, ?_⟩
  intro id hfirst hid
  exact hnodes id hfirst (by rwa [hsize])

end Module

end ArithScript
