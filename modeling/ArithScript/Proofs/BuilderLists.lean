import ArithScript.Proofs.BuilderDecoding
import Mathlib.Data.List.Sort

/-!
# What a builder lists

A builder grows its lists from two kinds of calls, in any interleaving. This module says what the
lists are in terms of the calls alone: the sources and the names in order of first mention
(`FirstMentions`), and for each source the text that was set last (`lastContent?`). Each of these is
one invariant, kept by every call.

Adding a mapping again changes the builder, which keeps all mappings, but not the source map. That
is so because the map depends on the mappings as a set only (`Alike.build_eq`), and because builders
that differ in repetitions only still do so after the same calls (`Alike.apply`). So the repetition
may come at any time, and more calls may follow it.
-/

set_option autoImplicit false

namespace ArithScript.SourceMap.Builder

/-- The source that a call mentions. -/
def Call.source : Call → String
  | .setContent source _ => source
  | .addMapping m => m.source

/-- The text that a call sets for a source. -/
def Call.contentFor? (source : String) : Call → Option String
  | .setContent other content => if other = source then some content else none
  | .addMapping _ => none

/-- The names that calls mention, in order and with repetitions. -/
def mentionedNames (calls : List Call) : List String := (added calls).filterMap Mapping.name

/-- The text that was last set for a source. -/
def lastContent? (source : String) (calls : List Call) : Option String :=
  calls.reverse.findSome? (Call.contentFor? source)

/-! ## Order of first mention

A list of first mentions has the members of the calls, none of them twice, and each where it was
mentioned first: no member comes before one that was mentioned earlier. -/

/-- What was mentioned is listed, nothing else is, and the list is in order of first mention. -/
structure FirstMentions (mentions listed : List String) : Prop where
  mem_iff : ∀ x, x ∈ listed ↔ x ∈ mentions
  ascending : listed.Pairwise fun x y => mentions.idxOf x < mentions.idxOf y

namespace FirstMentions

variable {mentions listed : List String}

theorem nil : FirstMentions [] [] := ⟨fun _ => Iff.rfl, List.Pairwise.nil⟩

/-- Nothing is listed twice. -/
theorem nodup (h : FirstMentions mentions listed) : listed.Nodup :=
  h.ascending.imp fun hlt heq => Nat.ne_of_lt hlt (congrArg mentions.idxOf heq)

/-- One more mention. -/
theorem mention (h : FirstMentions mentions listed) (x : String) :
    FirstMentions (mentions ++ [x]) (SourceMap.mention x listed) := by
  have hplace : ∀ y ∈ listed, (mentions ++ [x]).idxOf y = mentions.idxOf y :=
    fun y hy => List.idxOf_append_of_mem ((h.mem_iff y).mp hy)
  have hkept : listed.Pairwise fun y z =>
      (mentions ++ [x]).idxOf y < (mentions ++ [x]).idxOf z := by
    refine h.ascending.imp_of_mem fun hy hz hlt => ?_
    rwa [hplace _ hy, hplace _ hz]
  refine ⟨fun y => ?_, ?_⟩
  · rw [mem_mention, h.mem_iff, List.mem_append, List.mem_singleton, or_comm]
  · unfold SourceMap.mention
    split
    · exact hkept
    · next hnew =>
      refine List.pairwise_append.mpr ⟨hkept, List.pairwise_singleton _ _, fun y hy z hz => ?_⟩
      obtain rfl := List.mem_singleton.mp hz
      have hold : z ∉ mentions := fun hmem => hnew ((h.mem_iff z).mpr hmem)
      have hlt : mentions.idxOf y < mentions.length :=
        List.idxOf_lt_length_of_mem ((h.mem_iff y).mp hy)
      rw [hplace y hy, List.idxOf_append_of_notMem hold]
      omega

end FirstMentions

theorem firstMentions_sourceNames (file : String) (calls : List Call) :
    FirstMentions (calls.map Call.source) (run file calls).sourceNames := by
  refine run_induction (P := fun calls b => FirstMentions (calls.map Call.source) b.sourceNames)
    FirstMentions.nil ?_ calls
  intro calls b call hb
  rw [List.map_append, List.map_singleton]
  cases call with
  | setContent source content =>
    rw [Builder.apply, sourceNames_setContent]
    exact hb.mention source
  | addMapping m =>
    rw [Builder.apply, sourceNames_addMapping]
    exact hb.mention m.source

theorem mentionedNames_append (calls : List Call) (call : Call) :
    mentionedNames (calls ++ [call])
      = mentionedNames calls ++ (call.mapping?.bind Mapping.name).toList := by
  rw [mentionedNames, added, List.filterMap_append, List.filterMap_append, ← added,
    ← mentionedNames]
  cases call with
  | setContent source content => rfl
  | addMapping m => cases hname : m.name <;> simp [Call.mapping?, hname]

theorem firstMentions_names (file : String) (calls : List Call) :
    FirstMentions (mentionedNames calls) (run file calls).names := by
  refine run_induction (P := fun calls b => FirstMentions (mentionedNames calls) b.names)
    FirstMentions.nil ?_ calls
  intro calls b call hb
  rw [mentionedNames_append]
  cases call with
  | setContent source content =>
    rw [show (Call.setContent source content).mapping? = none from rfl, Option.bind_none,
      Option.toList_none, List.append_nil]
    exact hb
  | addMapping m =>
    rw [show (Call.addMapping m).mapping? = some m from rfl, Option.bind_some, Builder.apply,
      addMapping]
    cases m.name with
    | none =>
      rw [Option.toList_none, List.append_nil]
      exact hb
    | some name => exact hb.mention name

/-! ## Texts of sources

A text may be set for a source before or after a mapping mentions it, and may be set again. The last
one counts. Texts are listed only if some source has one. -/

theorem lastContent?_append (source : String) (calls : List Call) (call : Call) :
    lastContent? source (calls ++ [call])
      = (call.contentFor? source).or (lastContent? source calls) := by
  rw [lastContent?, List.reverse_append, List.reverse_singleton, List.singleton_append,
    List.findSome?_cons]
  cases call.contentFor? source <;> rfl

/-- Only one call sets a given text for a source. -/
theorem eq_of_contentFor? {source content : String} {call : Call}
    (h : call.contentFor? source = some content) : call = .setContent source content := by
  cases call with
  | setContent other text =>
    rw [Call.contentFor?, Option.ite_none_right_eq_some] at h
    obtain ⟨rfl, htext⟩ := h
    rw [Option.some.inj htext]
  | addMapping m => cases h

/-- A source that is not mentioned has no text. -/
theorem lastContent?_eq_none {source : String} {calls : List Call}
    (h : source ∉ calls.map Call.source) : lastContent? source calls = none := by
  refine List.findSome?_eq_none_iff.mpr fun call hcall => ?_
  refine Option.eq_none_iff_forall_ne_some.mpr fun content hcontent => h ?_
  obtain rfl := eq_of_contentFor? hcontent
  exact List.mem_map.mpr ⟨_, List.mem_reverse.mp hcall, rfl⟩

theorem isSome_lastContent?_iff {source : String} {calls : List Call} :
    (lastContent? source calls).isSome = true ↔ ∃ content, .setContent source content ∈ calls := by
  rw [lastContent?, List.findSome?_isSome_iff]
  constructor
  · rintro ⟨call, hcall, hsome⟩
    obtain ⟨content, hcontent⟩ := Option.isSome_iff_exists.mp hsome
    obtain rfl := eq_of_contentFor? hcontent
    exact ⟨content, List.mem_reverse.mp hcall⟩
  · rintro ⟨content, hmem⟩
    exact ⟨_, List.mem_reverse.mpr hmem, by simp [Call.contentFor?]⟩

/-- A mentioned source is an old one, or new and without a text. -/
theorem mem_mentionSource {name : String} {sources : List Source} {s : Source}
    (h : s ∈ mentionSource name sources) :
    s ∈ sources ∨ (s = ⟨name, none⟩ ∧ name ∉ sources.map Source.name) := by
  unfold mentionSource at h
  split at h
  · exact .inl h
  · next hnew =>
    refine (List.mem_append.mp h).imp_right fun hs => ⟨List.mem_singleton.mp hs, ?_⟩
    simpa using hnew

/-- A call sets the text of its source, and leaves the texts of the others. -/
theorem content_apply {calls : List Call} {b : Builder} {call : Call}
    (hmentions : FirstMentions (calls.map Call.source) b.sourceNames)
    (hb : ∀ s ∈ b.sources, s.content = lastContent? s.name calls) :
    ∀ s ∈ (b.apply call).sources, s.content = lastContent? s.name (calls ++ [call]) := by
  -- what is listed once the source has been mentioned, before a text is set
  have hlisted : ∀ s ∈ mentionSource call.source b.sources,
      s.content = lastContent? s.name calls := by
    intro s hs
    rcases mem_mentionSource hs with hs | ⟨rfl, hnew⟩
    · exact hb s hs
    · exact (lastContent?_eq_none fun hmem => hnew ((hmentions.mem_iff _).mpr hmem)).symm
  intro s hs
  rw [lastContent?_append]
  cases call with
  | setContent source content =>
    obtain ⟨old, hold, rfl⟩ := List.mem_map.mp hs
    by_cases hname : old.name = source
    · rw [if_pos hname, Call.contentFor?, if_pos hname.symm]
      rfl
    · rw [if_neg hname, Call.contentFor?, if_neg (Ne.symm hname), Option.none_or]
      exact hlisted old hold
  | addMapping m =>
    rw [Call.contentFor?, Option.none_or]
    exact hlisted s hs

/-- **Each source has the text that was set last.** -/
theorem content_run (file : String) (calls : List Call) :
    ∀ s ∈ (run file calls).sources, s.content = lastContent? s.name calls := by
  refine (run_induction (P := fun calls b => b = run file calls
    ∧ ∀ s ∈ b.sources, s.content = lastContent? s.name calls)
    ⟨rfl, fun s hs => absurd hs List.not_mem_nil⟩ ?_ calls).2
  rintro calls b call ⟨rfl, hb⟩
  refine ⟨by rw [run, run, List.foldl_append, List.foldl_cons, List.foldl_nil], ?_⟩
  exact content_apply (firstMentions_sourceNames file calls) hb

theorem contents_eq_nil_iff {b : Builder} :
    b.contents = [] ↔ ∀ s ∈ b.sources, s.content = none := by
  unfold contents
  split
  · next hany =>
    obtain ⟨s, hs, hsome⟩ := List.any_eq_true.mp hany
    refine ⟨fun h => ?_, fun h => ?_⟩
    · exact absurd (List.map_eq_nil_iff.mp h) (List.ne_nil_of_mem hs)
    · rw [h s hs] at hsome
      cases hsome
  · next hnone =>
    simpa using hnone

/-- The texts are left out if and only if none was ever set. -/
theorem contents_run_eq_nil_iff (file : String) (calls : List Call) :
    (run file calls).contents = []
      ↔ ∀ source content, Call.setContent source content ∉ calls := by
  rw [contents_eq_nil_iff]
  constructor
  · intro hnone source content hmem
    have hlisted : source ∈ (run file calls).sourceNames :=
      ((firstMentions_sourceNames file calls).mem_iff source).mpr
        (List.mem_map.mpr ⟨_, hmem, rfl⟩)
    obtain ⟨s, hs, rfl⟩ := List.mem_map.mp hlisted
    have hsome := isSome_lastContent?_iff.mpr ⟨content, hmem⟩
    rw [← content_run file calls s hs, hnone s hs] at hsome
    cases hsome
  · intro hunset s hs
    rw [content_run file calls s hs]
    refine Option.not_isSome_iff_eq_none.mp fun hsome => ?_
    obtain ⟨content, hmem⟩ := isSome_lastContent?_iff.mp hsome
    exact hunset s.name content hmem

/-- The texts stand beside the sources, empty where none was set. -/
theorem contents_run (file : String) (calls : List Call) (h : (run file calls).contents ≠ []) :
    (run file calls).contents
      = (run file calls).sourceNames.map fun source => (lastContent? source calls).getD "" := by
  unfold contents at h ⊢
  split
  · rw [sourceNames, List.map_map]
    refine List.map_congr_left fun s hs => ?_
    rw [content_run file calls s hs, Function.comp_apply]
  · next hnone =>
    rw [if_neg hnone] at h
    exact absurd rfl h

/-! ## Repeated mappings

Two builders are alike if they have the same lists and the same mappings as a set. A call keeps them
alike, and from builders that are alike the same map is built. -/

/-- Two builders that have been told the same, but for repeated mappings. -/
structure Alike (a b : Builder) : Prop where
  file : a.file = b.file
  sources : a.sources = b.sources
  names : a.names = b.names
  mappings : ∀ m, m ∈ a.mappings ↔ m ∈ b.mappings

instance : Std.Irrefl Mapping.Before where
  irrefl m hm := by
    have hself : compare m m = .eq := Std.ReflCmp.compare_self
    rw [Mapping.Before, hself] at hm
    cases hm

instance : Std.Antisymm Mapping.Before where
  antisymm m n hmn hnm := by
    have hgt : compare n m = .gt := Std.OrientedCmp.gt_of_lt hmn
    rw [Mapping.Before, hgt] at hnm
    cases hnm

/-- There is one ascending list with given members. -/
theorem written_congr {a b : Builder} (h : ∀ m, m ∈ a.mappings ↔ m ∈ b.mappings) :
    a.written = b.written := by
  obtain ⟨hascending, hmembers⟩ := sorted_dropRepeats a.mappings
  obtain ⟨hascending', hmembers'⟩ := sorted_dropRepeats b.mappings
  exact hascending.eq_of_mem_iff hascending' fun m =>
    (hmembers m).trans ((h m).trans (hmembers' m).symm)

namespace Alike

variable {a b : Builder}

/-- Builders that are alike build the same map. -/
theorem build_eq (h : Alike a b) : a.build = b.build := by
  have hnames : a.sourceNames = b.sourceNames := congrArg (List.map Source.name) h.sources
  have htext : a.mappingsText = b.mappingsText := by
    rw [← String.toList_inj, toList_mappingsText, toList_mappingsText, deltas, deltas, hnames,
      h.names, written_congr h.mappings]
  have hcontents : a.contents = b.contents := by rw [contents, contents, h.sources]
  rw [build, build, hnames, h.names, htext, h.file, hcontents]

/-- Calls keep builders alike. -/
theorem apply (h : Alike a b) (call : Call) : Alike (a.apply call) (b.apply call) := by
  cases call with
  | setContent source content =>
    refine ⟨h.file, ?_, h.names, h.mappings⟩
    simp only [Builder.apply, setContent, h.sources]
  | addMapping m =>
    refine ⟨h.file, ?_, ?_, fun n => ?_⟩
    · simp only [Builder.apply, addMapping, h.sources]
    · simp only [Builder.apply, addMapping, h.names]
    · simp only [Builder.apply, addMapping, List.mem_append, h.mappings n]

theorem foldl_apply (h : Alike a b) (calls : List Call) :
    Alike (calls.foldl Builder.apply a) (calls.foldl Builder.apply b) := by
  induction calls generalizing a b with
  | nil => exact h
  | cons call calls ih => exact ih (h.apply call)

end Alike

theorem mention_of_mem {α : Type} [DecidableEq α] {x : α} {xs : List α} (h : x ∈ xs) :
    mention x xs = xs := if_pos h

/-- A mapping that was added before mentions nothing new. -/
theorem alike_addMapping {b : Builder} (hlisted : b.AllListed) {m : Mapping} (h : m ∈ b.mappings) :
    Alike (b.addMapping m) b := by
  obtain ⟨hsource, hname⟩ := hlisted m h
  refine ⟨rfl, ?_, ?_, fun n => ?_⟩
  · have hany : b.sources.any (·.name = m.source) = true := by
      simpa [sourceNames] using hsource
    exact if_pos hany
  · unfold addMapping
    cases hm : m.name with
    | none => rfl
    | some name => exact mention_of_mem (hname name hm)
  · rw [addMapping, List.mem_append, List.mem_singleton]
    exact or_iff_left_of_imp fun heq => heq ▸ h

/-- A mapping may be added again at any time. -/
theorem build_run_insert (file : String) {before : List Call} {m : Mapping} (h : m ∈ added before)
    (after : List Call) :
    (run file (before ++ .addMapping m :: after)).build = (run file (before ++ after)).build := by
  have hadded : m ∈ (run file before).mappings := by rwa [mappings_run]
  have halike := (alike_addMapping (allListed_run file before) hadded).foldl_apply after
  have hleft : run file (before ++ .addMapping m :: after)
      = after.foldl Builder.apply ((run file before).addMapping m) := by
    rw [run, List.foldl_append, List.foldl_cons]
    rfl
  have hright : run file (before ++ after) = after.foldl Builder.apply (run file before) :=
    List.foldl_append
  rw [hleft, hright]
  exact halike.build_eq

/-- **The lists of a source map.** After any calls, the map that is built lists the sources that the
calls mention and the names of the mappings that they add, each once and in order of first mention.
The texts of sources are left out if and only if no call sets one; otherwise they stand beside the
sources, each the one that was set last, or empty. A mapping that was added before may be added
again at any later time without a change to the map. -/
theorem build_run_lists (file : String) (calls : List Call) :
    (run file calls).build.sources.Nodup
      ∧ FirstMentions (calls.map Call.source) (run file calls).build.sources
      ∧ (run file calls).build.names.Nodup
      ∧ FirstMentions (mentionedNames calls) (run file calls).build.names
      ∧ ((run file calls).build.sourcesContent = []
          ↔ ∀ source content, Call.setContent source content ∉ calls)
      ∧ ((run file calls).build.sourcesContent ≠ [] →
          (run file calls).build.sourcesContent = (run file calls).build.sources.map
            fun source => (lastContent? source calls).getD "")
      ∧ ∀ before m after, calls = before ++ after → m ∈ added before →
          (run file (before ++ .addMapping m :: after)).build = (run file calls).build := by
  refine ⟨(firstMentions_sourceNames file calls).nodup, firstMentions_sourceNames file calls,
    (firstMentions_names file calls).nodup, firstMentions_names file calls,
    contents_run_eq_nil_iff file calls, contents_run file calls, ?_⟩
  rintro before m after rfl hm
  exact build_run_insert file hm after

/-- Two sources, the first without a text and the second with two, and a name mentioned twice. -/
def interleavedCalls : List Call :=
  [.addMapping ⟨⟨1, 4⟩, ⟨0, 2⟩, "a", some "f"⟩, .setContent "b" "1 + 2",
    .addMapping ⟨⟨0, 0⟩, ⟨0, 0⟩, "b", none⟩, .setContent "b" "2 + 1",
    .addMapping ⟨⟨0, 7⟩, ⟨3, 1⟩, "a", some "f"⟩]

theorem build_run_lists_interleaved :
    (run "out" interleavedCalls).build.sourcesContent
        = (run "out" interleavedCalls).build.sources.map
            (fun source => (lastContent? source interleavedCalls).getD "")
      ∧ (run "out" (interleavedCalls.take 2 ++ .addMapping ⟨⟨1, 4⟩, ⟨0, 2⟩, "a", some "f"⟩ ::
          interleavedCalls.drop 2)).build = (run "out" interleavedCalls).build := by
  obtain ⟨-, -, -, -, hunset, hcontents, hagain⟩ := build_run_lists "out" interleavedCalls
  refine ⟨hcontents fun hnil => hunset.mp hnil "b" "2 + 1" (by decide), ?_⟩
  exact hagain _ _ _ (List.take_append_drop 2 interleavedCalls).symm (by decide)

end ArithScript.SourceMap.Builder
