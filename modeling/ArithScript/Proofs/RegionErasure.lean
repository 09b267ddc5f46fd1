import ArithScript.Proofs.Generation
import ArithScript.Proofs.Regions

/-!
# Regions do not show in the script

Text and trace are written in one pass, and whether a node is opened depends on regions at every
construct. `script_eq_of_eraseRegions` says that the text does not: two modules that are the same
without their regions have the same script, or are refused alike. Nothing is compared step by step
for this. The script of a module is the text of its fragments, and the text of a fragment passes
over its marks; so it is enough that a change of regions changes nothing else of a fragment, neither
parentheses nor names. What remains of a region in the generated code is the annotation behind the
script.
-/

set_option autoImplicit false

namespace ArithScript

open Lowering

/-- Fragments with a separator between them, as text. -/
theorem Fragment.allChars_separated (separator : String) : ∀ parts : List Fragment,
    allChars (separated separator parts) = separator.toList.intercalate (parts.map chars)
  | [] => rfl
  | [part] => by simp [separated, List.intercalate]
  | part :: next :: parts => by
    have rest := allChars_separated separator (next :: parts)
    simp only [separated, List.intercalate, List.intersperse, List.map_cons] at rest ⊢
    simp [rest, chars]

theorem chars_operandFragment (e : Expr) (wrap : Bool) (inner : Fragment) :
    (operandFragment e wrap inner).chars
      = if e.isAtomic && !wrap then inner.chars else '(' :: inner.chars ++ [')'] := by
  unfold operandFragment
  split
  · rfl
  · simp [Fragment.chars]

section

variable (f : Option Region → Option Region)

@[simp] theorem Expr.isAtomic_mapRegions (e : Expr) : (e.mapRegions f).isAtomic = e.isAtomic := by
  cases e <;> rfl

@[simp] theorem Expr.isNegativeLiteral_mapRegions (e : Expr) :
    (e.mapRegions f).isNegativeLiteral = e.isNegativeLiteral := by
  cases e <;> rfl

mutual

/-- **The text of an expression passes over its regions.** -/
theorem Expr.chars_mapRegions (known : String → Bool) : ∀ e : Expr,
    ((e.mapRegions f).fragment known).chars = (e.fragment known).chars
  | .literal _ _ => by simp [Expr.mapRegions, Expr.fragment, Fragment.chars]
  | .binary _ _ left right _ => by
    simp [Expr.mapRegions, Expr.fragment, Fragment.chars, chars_operandFragment,
      left.chars_mapRegions known, right.chars_mapRegions known]
  | .call function arguments _ => by
    have list := Expr.chars_mapAllRegions known arguments
    have empty : (Expr.mapAllRegions f arguments).isEmpty = arguments.isEmpty := by
      cases arguments <;> rfl
    rw [Expr.mapRegions, Expr.fragment, Expr.fragment, empty]
    cases arguments.isEmpty with
    | true => simp [Fragment.chars, Reference.mapRegions]
    | false => simp [Fragment.chars, Fragment.allChars_separated, Reference.mapRegions, list]

theorem Expr.chars_mapAllRegions (known : String → Bool) : ∀ es : List Expr,
    (Expr.fragments known (Expr.mapAllRegions f es)).map Fragment.chars
      = (Expr.fragments known es).map Fragment.chars
  | [] => rfl
  | e :: es => by
    simp [Expr.mapAllRegions, Expr.fragments, e.chars_mapRegions known,
      Expr.chars_mapAllRegions known es]

end

theorem Definition.knows_mapRegions (d : Definition) (known : String → Bool) :
    (d.mapRegions f).knows known = d.knows known := by
  funext name
  simp [Definition.knows, Definition.mapRegions, Parameter.mapRegions, Function.comp_def]

theorem Statement.chars_mapRegions (known : String → Bool) (s : Statement) :
    ((s.mapRegions f).fragment known).chars = (s.fragment known).chars := by
  cases s with
  | evaluation e =>
    simp [Statement.mapRegions, Statement.fragment, Evaluation.mapRegions, Fragment.chars,
      Expr.chars_mapRegions]
  | definition d =>
    have empty : (d.mapRegions f).parameters.isEmpty = d.parameters.isEmpty := by
      simp [Definition.mapRegions]
    rw [Statement.mapRegions, Statement.fragment, Statement.fragment, empty]
    split
    · simp [Definition.constantFragment, Definition.nameFragment, Definition.mapRegions,
        Fragment.chars, Expr.chars_mapRegions]
    · rw [Definition.functionFragment, Definition.functionFragment, Definition.knows_mapRegions]
      simp [Definition.nameFragment, Definition.mapRegions, Parameter.fragment,
        Parameter.mapRegions, Fragment.chars, Fragment.allChars_separated, Expr.chars_mapRegions,
        Function.comp_def]

theorem Statement.defines_mapRegions (s : Statement) : (s.mapRegions f).defines = s.defines := by
  cases s <;> rfl

theorem allChars_statementFragments_mapRegions (earlier : List String) (ss : List Statement) :
    Fragment.allChars (statementFragments earlier (ss.map (·.mapRegions f)))
      = Fragment.allChars (statementFragments earlier ss) := by
  induction ss generalizing earlier with
  | nil => rfl
  | cons s ss ih =>
    simp [statementFragments, Statement.chars_mapRegions, Statement.defines_mapRegions, ih]

theorem Module.allChars_mapRegions (m : Module) :
    Fragment.allChars (m.mapRegions f).fragments = Fragment.allChars m.fragments := by
  simp [Module.fragments, Module.body, Module.mapRegions, Fragment.chars,
    allChars_statementFragments_mapRegions]

end

/-- Lowering a module without its regions gives the same script, or the same refusal. -/
theorem Module.lower_eraseRegions (m : Module) (maxDepth : Nat) :
    (m.eraseRegions.lower maxDepth).map Prod.fst = (m.lower maxDepth).map Prod.fst := by
  have htext : m.eraseRegions.writer.text = m.writer.text := by
    apply String.ext
    rw [toList_writer, toList_writer, eraseRegions, allChars_mapRegions]
  rw [lower_eq, lower_eq, eraseRegions, height_mapRegions]
  split
  · exact congrArg Except.ok htext
  · rfl

/-- **Instrumentation does not change the script.** Take two documents whose modules are the same up
to their regions, and options with the same limit. Then either both modules are refused with one
refusal, and so are the documents; or both have one script, and what is generated from either
document is this script with the annotation behind it. The source texts, the names of the sources
and the other options may differ. -/
theorem Document.script_eq_of_eraseRegions {d d' : Document} {options options' : Options}
    (hmodules : d.module.eraseRegions = d'.module.eraseRegions)
    (hdepth : options.maxDepth = options'.maxDepth) (uri uri' : String) :
    (∃ refusal, d.module.lower options.maxDepth = .error refusal
        ∧ d'.module.lower options'.maxDepth = .error refusal
        ∧ d.generate uri options = .error refusal ∧ d'.generate uri' options' = .error refusal)
      ∨ ∃ script tree tree' generated generated',
          d.module.lower options.maxDepth = .ok (script, tree)
            ∧ d'.module.lower options'.maxDepth = .ok (script, tree')
            ∧ d.generate uri options = .ok generated ∧ d'.generate uri' options' = .ok generated'
            ∧ generated.code = script ++ generated.trailer
            ∧ generated'.code = script ++ generated'.trailer := by
  -- both modules have the same script or refusal as their common erasure
  have hsame : (d.module.lower options.maxDepth).map Prod.fst
      = (d'.module.lower options'.maxDepth).map Prod.fst := by
    rw [← Module.lower_eraseRegions, hmodules, hdepth, Module.lower_eraseRegions]
  rw [Document.generate_eq_map, Document.generate_eq_map]
  cases hlower : d.module.lower options.maxDepth with
  | error refusal =>
    cases hlower' : d'.module.lower options'.maxDepth with
    | error refusal' =>
      rw [hlower, hlower'] at hsame
      obtain rfl : refusal = refusal' := Except.error.inj hsame
      exact Or.inl ⟨refusal, rfl, rfl, rfl, rfl⟩
    | ok lowered' =>
      rw [hlower, hlower'] at hsame
      cases hsame
  | ok lowered =>
    cases hlower' : d'.module.lower options'.maxDepth with
    | error refusal' =>
      rw [hlower, hlower'] at hsame
      cases hsame
    | ok lowered' =>
      obtain ⟨script, tree⟩ := lowered
      obtain ⟨script', tree'⟩ := lowered'
      rw [hlower, hlower'] at hsame
      obtain rfl : script = script' := Except.ok.inj hsame
      exact Or.inr ⟨script, tree, tree', _, _, rfl, rfl, rfl, rfl,
        d.code_assemble uri options script tree, d'.code_assemble uri' options' script tree'⟩

/-- The evaluation `f(-2)`. -/
def Document.inscribed : Document :=
  ⟨some "f(-2)", none, [.evaluation ⟨.call ⟨"f", some ⟨0, 1, none⟩⟩
    [.literal ⟨0xC000000000000000⟩ (some ⟨2, 4, none⟩)] (some ⟨0, 5, none⟩), none⟩]⟩

/-- The same evaluation with regions added, removed and inverted, and without its text. -/
def Document.scrambled : Document :=
  ⟨none, some ⟨9, 3, none⟩, [.evaluation ⟨.call ⟨"f", none⟩
    [.literal ⟨0xC000000000000000⟩ (some ⟨4, 2, some ⟨⟨7, 7⟩, ⟨0, 0⟩⟩⟩)] none, some ⟨0, 0, none⟩⟩]⟩

theorem Document.script_eq_of_eraseRegions_scrambled :
    Document.inscribed.module.eraseRegions = Document.scrambled.module.eraseRegions
      ∧ ∃ script generated generated',
          Document.inscribed.generate "a/b" Options.default = .ok generated
            ∧ Document.scrambled.generate "c" { Options.default with sourceMap := false }
              = .ok generated'
            ∧ generated.code = script ++ generated.trailer
            ∧ generated'.code = script ++ generated'.trailer := by
  have hmodules : Document.inscribed.module.eraseRegions
      = Document.scrambled.module.eraseRegions := rfl
  have hheight : Document.inscribed.module.height ≤ Options.default.maxDepth := by decide
  obtain ⟨generated, haccepted⟩ := (Document.inscribed.generate_eq "a/b" Options.default).1 hheight
  refine ⟨hmodules, ?_⟩
  have hdepth : Options.default.maxDepth
      = ({ Options.default with sourceMap := false } : Options).maxDepth := rfl
  rcases Document.script_eq_of_eraseRegions hmodules hdepth "a/b" "c" with
    ⟨refusal, -, -, hrefused, -⟩ | ⟨script, -, -, first, second, -, -, hfirst, hsecond, hcodes⟩
  · rw [hrefused] at haccepted
    cases haccepted
  · exact ⟨script, first, second, hfirst, hsecond, hcodes⟩

end ArithScript
