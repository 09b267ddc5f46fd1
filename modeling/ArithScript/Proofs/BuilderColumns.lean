import ArithScript.Proofs.BuilderLists
import Mathlib.Data.List.Induction

/-!
# Builders with two lists

A builder keeps a source and its text in one record, so they cannot get out of step. A builder may
also keep the names of the sources in one list and their texts in another, and find the text of a
source by the number of its name (`Columns`). Nothing in such a builder says that the lists belong
together.

They do. The two lists grow together and only one place of the second is ever set, so after any
calls they are the columns of the records (`refines_run`), and the source map is the same
(`build_run_eq`). What makes the place the right one is that no name is listed twice.
-/

set_option autoImplicit false

namespace ArithScript.SourceMap

/-- A source map under construction, with the texts of the sources in a list of their own. -/
structure Columns where
  file : String
  sources : List String
  contents : List (Option String)
  names : List String
  mappings : List Mapping
  deriving DecidableEq, Repr, Inhabited

namespace Columns

/-- The columns of a builder that has been told nothing yet. -/
def new (file : String) : Columns := ⟨file, [], [], [], []⟩

/-- The number of a source, which is added to both lists if it has not been mentioned. -/
def sourceIndex (source : String) (c : Columns) : Nat × Columns :=
  match c.sources.findIdx? (· = source) with
  | some index => (index, c)
  | none => (c.sources.length,
      { c with sources := c.sources ++ [source], contents := c.contents ++ [none] })

/-- Sets the text of a source, at the number of the source. -/
def setContent (source content : String) (c : Columns) : Columns :=
  let mentioned := c.sourceIndex source
  { mentioned.2 with contents := mentioned.2.contents.set mentioned.1 (some content) }

/-- Adds a mapping. -/
def addMapping (m : Mapping) (c : Columns) : Columns :=
  let mentioned := (c.sourceIndex m.source).2
  { mentioned with
    names := m.name.elim mentioned.names (mention · mentioned.names)
    mappings := mentioned.mappings ++ [m] }

/-- Does a call. -/
def apply (c : Columns) : Builder.Call → Columns
  | .setContent source content => c.setContent source content
  | .addMapping m => c.addMapping m

/-- The columns after some calls. -/
def run (file : String) (calls : List Builder.Call) : Columns := calls.foldl apply (new file)

/-- The source map of what has been told. -/
def build (c : Columns) : SourceMap where
  version := 3
  sources := c.sources
  names := c.names
  mappings := String.ofList <|
    encodeMappings c.sources c.names none .start (c.mappings.mergeSort Mapping.le)
  file := c.file
  sourcesContent :=
    if c.contents.any Option.isSome then c.contents.map fun content => content.getD "" else []

/-! ## Columns of records -/

/-- **Columns refine a builder**: each list is a column of its records, and what is not about
sources is the same. -/
structure Refines (c : Columns) (b : Builder) : Prop where
  file : c.file = b.file
  sources : c.sources = b.sources.map Source.name
  contents : c.contents = b.sources.map Source.content
  names : c.names = b.names
  mappings : c.mappings = b.mappings

variable {c : Columns} {b : Builder}

/-- Mentioning a source mentions it in both, and gives its number. -/
theorem Refines.sourceIndex (h : c.Refines b) (source : String) :
    (c.sourceIndex source).2.Refines { b with sources := Builder.mentionSource source b.sources }
      ∧ (Builder.mentionSource source b.sources).findIdx? (·.name = source)
        = some (c.sourceIndex source).1 := by
  -- the column of names is searched as the list of entries is
  have hfind : c.sources.findIdx? (· = source) = b.sources.findIdx? (·.name = source) := by
    rw [h.sources, List.findIdx?_map]
    rfl
  unfold Columns.sourceIndex Builder.mentionSource
  rw [hfind]
  cases hindex : b.sources.findIdx? (·.name = source) with
  | some index =>
    have hany : b.sources.any (·.name = source) = true := by
      rw [← List.findIdx?_isSome, hindex]
      rfl
    rw [if_pos hany]
    exact ⟨h, hindex⟩
  | none =>
    have hany : ¬ b.sources.any (·.name = source) = true := by
      rw [← List.findIdx?_isSome, hindex]
      exact Bool.false_ne_true
    rw [if_neg hany]
    refine ⟨⟨h.file, ?_, ?_, h.names, h.mappings⟩, ?_⟩
    · rw [List.map_append, ← h.sources]
      rfl
    · rw [List.map_append, ← h.contents]
      rfl
    · rw [List.findIdx?_append, hindex, h.sources, List.length_map]
      simp

/-- Where names are listed once, setting the text at the number of a name sets it at the name. -/
theorem set_contents {sources : List Source} {source : String} {index : Nat}
    (hindex : sources.findIdx? (·.name = source) = some index)
    (hnodup : (sources.map Source.name).Nodup) (content : Option String) :
    (sources.map Source.content).set index content
      = (sources.map fun s => if s.name = source then { s with content := content } else s).map
        Source.content := by
  induction sources generalizing index with
  | nil => cases hindex
  | cons s sources ih =>
    rw [List.map_cons, List.nodup_cons] at hnodup
    rw [List.findIdx?_cons] at hindex
    by_cases hname : s.name = source
    · obtain rfl : 0 = index := by simpa [hname] using hindex
      -- the name does not come again, so the records that follow are left alone
      have hothers : ∀ t ∈ sources,
          (if t.name = source then { t with content := content } else t) = t := by
        intro t ht
        refine if_neg fun heq => hnodup.1 ?_
        rw [hname, ← heq]
        exact List.mem_map_of_mem ht
      rw [List.map_cons, List.map_cons, List.map_cons, List.set_cons_zero, if_pos hname,
        List.map_congr_left hothers, List.map_id']
    · obtain ⟨previous, hprevious, rfl⟩ : ∃ previous,
          sources.findIdx? (·.name = source) = some previous ∧ previous + 1 = index := by
        simpa [hname] using hindex
      rw [List.map_cons, List.map_cons, List.map_cons, List.set_cons_succ, if_neg hname,
        ih hprevious hnodup.2]

/-- **A call does to the columns what it does to the records**, where no source is listed twice. -/
theorem Refines.apply (h : c.Refines b) {call : Builder.Call}
    (hnodup : (b.apply call).sourceNames.Nodup) : (c.apply call).Refines (b.apply call) := by
  cases call with
  | setContent source content =>
    obtain ⟨hmentioned, hindex⟩ := h.sourceIndex source
    have hlisted : ((Builder.mentionSource source b.sources).map Source.name).Nodup := by
      rwa [Builder.map_name_mentionSource, ← Builder.sourceNames, ← Builder.sourceNames_setContent]
    refine ⟨hmentioned.file, ?_, ?_, hmentioned.names, hmentioned.mappings⟩
    · refine hmentioned.sources.trans (.trans ?_ (List.map_map ..).symm)
      refine List.map_congr_left fun s _ => ?_
      show s.name = Source.name (if s.name = source then { s with content := some content } else s)
      split <;> rfl
    · show (c.sourceIndex source).2.contents.set (c.sourceIndex source).1 (some content) = _
      rw [hmentioned.contents]
      exact set_contents hindex hlisted (some content)
  | addMapping m =>
    obtain ⟨hmentioned, -⟩ := h.sourceIndex m.source
    have hnames : (c.sourceIndex m.source).2.names = b.names := hmentioned.names
    refine ⟨hmentioned.file, hmentioned.sources, hmentioned.contents, ?_, ?_⟩
    · show m.name.elim (c.sourceIndex m.source).2.names _ = (b.addMapping m).names
      rw [hnames, Builder.addMapping]
      cases m.name <;> rfl
    · exact congrArg (· ++ [m]) hmentioned.mappings

/-- **After any calls the two lists are the columns of the records.** -/
theorem refines_run (file : String) (calls : List Builder.Call) :
    (run file calls).Refines (Builder.run file calls) := by
  induction calls using List.reverseRecOn with
  | nil => exact ⟨rfl, rfl, rfl, rfl, rfl⟩
  | append_singleton calls call ih =>
    have hrun : Builder.run file (calls ++ [call]) = (Builder.run file calls).apply call :=
      List.foldl_append
    have hnodup := (Builder.firstMentions_sourceNames file (calls ++ [call])).nodup
    rw [hrun] at hnodup ⊢
    rw [run, List.foldl_append]
    exact ih.apply hnodup

theorem Refines.build_eq (h : c.Refines b) : c.build = b.build := by
  unfold Columns.build Builder.build Builder.mappingsText Builder.contents Builder.sourceNames
  rw [h.file, h.sources, h.contents, h.names, h.mappings, List.any_map, List.map_map]
  rfl

/-- **Both kinds of builders make one source map** of the same calls. In it each text stands at the
number of its source. -/
theorem build_run_eq (file : String) (calls : List Builder.Call) :
    (run file calls).build = (Builder.run file calls).build :=
  (refines_run file calls).build_eq

end Columns

end ArithScript.SourceMap
