import ArithScript.Generate
import ArithScript.Proofs.Rendering
import ArithScript.Proofs.WriterRuns

/-!
# Generation in two parts

Generating a script is lowering the module, which may be refused, and then putting together the
script, its mappings and its map, which may not (`Document.generate_eq_map`). What is lowered
successfully is the run of one writer (`Module.writer`), at the end of which only the root is open.
-/

set_option autoImplicit false

namespace ArithScript

open Trace

namespace Module

/-- The writer that a module has been written on. -/
def writer (m : Module) : Writer := Fragment.writeAll m.fragments Writer.start

theorem reaches_writer (m : Module) : Writer.start.Reaches m.writer :=
  Fragment.reaches_writeAll m.fragments Writer.start

theorem active_writer (m : Module) : m.writer.active = [Tree.root] :=
  Fragment.active_writeAll m.fragments Writer.start

theorem toList_writer (m : Module) : m.writer.text.toList = Fragment.allChars m.fragments :=
  Fragment.chars_writeAll m.fragments Writer.start

theorem finish_writer_of_lower {m : Module} {maxDepth : Nat} {script : String} {tree : Tree}
    (h : m.lower maxDepth = .ok (script, tree)) : m.writer.finish = (script, tree) := by
  rw [Module.lower_eq] at h
  split at h
  · exact Except.ok.inj h
  · cases h

end Module

/-- What stands behind the script in generated code: the annotation with the map, if there is
one. -/
def Generated.trailer (g : Generated) : String :=
  match g.sourceMap with
  | some map => "\n\n" ++ annotationText map.text
  | none => ""

namespace Document

/-- The texts that the mappings of a script are made for. -/
def texts (d : Document) (uri script : String) : Texts where
  filename := filenameOf uri
  source := (d.sourceText.getD "").toList
  generated := script.toList

/-- The mappings of a lowered module. -/
def mappingsOf (d : Document) (uri : String) (options : Options) (script : String) (tree : Tree) :
    List Mapping :=
  synthesize (d.texts uri script) options tree

/-- What is generated from a lowered module. -/
def assemble (d : Document) (uri : String) (options : Options) (script : String) (tree : Tree) :
    Generated :=
  let mappings := d.mappingsOf uri options script tree
  let sourceMap := sourceMapOf (filenameOf uri) d.sourceText mappings
  if options.sourceMap then
    ⟨script ++ "\n\n" ++ annotationText sourceMap.text, mappings, some sourceMap⟩
  else
    ⟨script, mappings, none⟩

/-- **Generation is lowering and putting together.** -/
theorem generate_eq_map (d : Document) (uri : String) (options : Options) :
    d.generate uri options
      = (d.module.lower options.maxDepth).map fun lowered =>
          d.assemble uri options lowered.1 lowered.2 := by
  unfold generate assemble
  cases d.module.lower options.maxDepth with
  | error refusal => rfl
  | ok lowered =>
    simp only [bind, Except.bind, Except.map]
    split
    · rfl
    · rfl

/-- Whether a script is generated depends on the height of the expressions and nothing else. -/
theorem generate_eq (d : Document) (uri : String) (options : Options) :
    (d.module.height ≤ options.maxDepth → ∃ generated, d.generate uri options = .ok generated)
      ∧ (options.maxDepth < d.module.height →
          d.generate uri options = .error ⟨options.maxDepth⟩) := by
  rw [generate_eq_map, Module.lower_eq]
  constructor
  · intro hheight
    rw [if_pos hheight]
    exact ⟨_, rfl⟩
  · intro hheight
    rw [if_neg (Nat.not_le.mpr hheight)]
    rfl

theorem exists_lower_of_generate {d : Document} {uri : String} {options : Options}
    {generated : Generated} (h : d.generate uri options = .ok generated) :
    ∃ script tree, d.module.lower options.maxDepth = .ok (script, tree)
      ∧ generated = d.assemble uri options script tree := by
  rw [generate_eq_map] at h
  cases hlower : d.module.lower options.maxDepth with
  | error refusal =>
    rw [hlower] at h
    cases h
  | ok lowered =>
    rw [hlower] at h
    exact ⟨lowered.1, lowered.2, rfl, (Except.ok.inj h).symm⟩

theorem mappings_assemble (d : Document) (uri : String) (options : Options) (script : String)
    (tree : Tree) : (d.assemble uri options script tree).mappings
      = d.mappingsOf uri options script tree := by
  unfold assemble
  dsimp only
  split
  · rfl
  · rfl

theorem code_assemble (d : Document) (uri : String) (options : Options) (script : String)
    (tree : Tree) :
    (d.assemble uri options script tree).code
      = script ++ (d.assemble uri options script tree).trailer := by
  unfold assemble Generated.trailer
  dsimp only
  split
  · exact String.append_assoc
  · exact String.append_empty.symm

end Document

end ArithScript
