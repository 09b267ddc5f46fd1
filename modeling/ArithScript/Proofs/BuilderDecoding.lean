import ArithScript.Proofs.MappingText
import Mathlib.Algebra.Group.Nat.Defs

/-!
# What a source map holds

A builder is told of mappings and of the texts of sources, in any order and any number of times.
Whatever it was told, the source map that it builds decodes to the mappings that were added, in
ascending order and each once.

The numbers in the mapping text stand for sources and names, so the decoding depends on one
invariant of the builder: what a mapping mentions is listed. A call adds to the lists at their end
and never takes anything away, so the invariant is kept by every call and holds of every run.
-/

set_option autoImplicit false

namespace ArithScript

/-- The numbers of a mapping's places are below a limit. -/
structure Mapping.PlacesBelow (limit : Nat) (m : Mapping) : Prop where
  generatedLine : m.generated.line < limit
  generatedColumn : m.generated.character < limit
  originLine : m.origin.line < limit
  originColumn : m.origin.character < limit

theorem Mapping.PlacesBelow.mono {small large : Nat} {m : Mapping} (h : m.PlacesBelow small)
    (hle : small ≤ large) : m.PlacesBelow large :=
  ⟨Nat.lt_of_lt_of_le h.generatedLine hle, Nat.lt_of_lt_of_le h.generatedColumn hle,
    Nat.lt_of_lt_of_le h.originLine hle, Nat.lt_of_lt_of_le h.originColumn hle⟩

namespace SourceMap

/-! ## Numbers of names

Sources and names are written as their places in a list. A place is looked up to what it was made
from, provided that it is listed at all (`Listed`). -/

theorem getElem?_indexIn {names : List String} {name : String} (h : name ∈ names) :
    names[indexIn names name]? = some name := by
  induction names with
  | nil => cases h
  | cons first names ih =>
    by_cases heq : first = name
    · simp [indexIn, List.findIdx?_cons, heq]
    · have hmem : name ∈ names := (List.mem_cons.mp h).resolve_left fun h => heq h.symm
      obtain ⟨i, hi⟩ : ∃ i, names.findIdx? (· = name) = some i :=
        Option.isSome_iff_exists.mp (by simpa [List.findIdx?_isSome] using hmem)
      have hindex : indexIn (first :: names) name = indexIn names name + 1 := by
        simp [indexIn, List.findIdx?_cons, heq, hi]
      rw [hindex, List.getElem?_cons_succ, ih hmem]

theorem indexIn_lt {names : List String} {name : String} (h : name ∈ names) :
    indexIn names name < names.length :=
  (List.getElem?_eq_some_iff.mp (getElem?_indexIn h)).1

theorem nameAt?_indexIn {names : List String} {name : String} (h : name ∈ names) :
    nameAt? names (indexIn names name) = some name :=
  getElem?_indexIn h

/-- The sources and names of a mapping are in the given lists. -/
def Listed (sources names : List String) (m : Mapping) : Prop :=
  m.source ∈ sources ∧ ∀ name, m.name = some name → name ∈ names

/-- A mapping whose source and name are listed is read back from its segment. -/
theorem mapping?_segmentOf {sources names : List String} {m : Mapping}
    (h : Listed sources names m) :
    (segmentOf sources names m).mapping? sources names = some m := by
  obtain ⟨generated, origin, source, name⟩ := m
  obtain ⟨hsource, hname⟩ := h
  have htoNat : ∀ n : Nat, (n : Int).toNat? = some n := fun _ => rfl
  cases name with
  | none => simp [segmentOf, Segment.mapping?, htoNat, nameAt?_indexIn hsource]
  | some name =>
    simp [segmentOf, Segment.mapping?, htoNat, nameAt?_indexIn hsource,
      nameAt?_indexIn (hname name rfl)]

/-! ## The size of differences

What is written are differences of numbers that are all below some bound, so the differences are
between the bound and its negative. A writer with words of limited size has to know this. -/

/-- The fields of a place in the writing are below a limit. -/
structure Cursor.Below (limit : Nat) (cursor : Cursor) : Prop where
  column : cursor.column < limit
  source : cursor.source < limit
  originLine : cursor.originLine < limit
  originColumn : cursor.originColumn < limit
  name : cursor.name < limit

theorem Cursor.below_start {limit : Nat} (h : 0 < limit) : Cursor.start.Below limit :=
  ⟨h, h, h, h, h⟩

theorem Cursor.Below.toLine {limit : Nat} {cursor : Cursor} (h : cursor.Below limit) {line : Nat} :
    (cursor.toLine line).Below limit :=
  ⟨Nat.lt_of_le_of_lt (Nat.zero_le _) h.column, h.source, h.originLine, h.originColumn, h.name⟩

theorem Cursor.Below.after {limit : Nat} {cursor : Cursor} (h : cursor.Below limit) {m : Mapping}
    (hm : m.PlacesBelow limit) {source : Nat} (hsource : source < limit) {name : Option Nat}
    (hname : ∀ index ∈ name, index < limit) : (cursor.after m source name).Below limit := by
  refine ⟨hm.generatedColumn, hsource, hm.originLine, hm.originColumn, ?_⟩
  cases name with
  | none => exact h.name
  | some index => exact hname index rfl

theorem natAbs_sub_lt {a b limit : Nat} (ha : a < limit) (hb : b < limit) :
    ((a : Int) - b).natAbs < limit := by
  omega

theorem natAbs_lt_of_mem_segmentDeltas {limit : Nat} {cursor : Cursor} (h : cursor.Below limit)
    {m : Mapping} (hm : m.PlacesBelow limit) {source : Nat} (hsource : source < limit)
    {name : Option Nat} (hname : ∀ index ∈ name, index < limit) :
    ∀ d ∈ segmentDeltas m source name cursor, d.natAbs < limit := by
  have hcolumn := natAbs_sub_lt hm.generatedColumn h.column
  have hsource := natAbs_sub_lt hsource h.source
  have horiginLine := natAbs_sub_lt hm.originLine h.originLine
  have horiginColumn := natAbs_sub_lt hm.originColumn h.originColumn
  cases name with
  | none => simp [segmentDeltas, *]
  | some index =>
    have hname := natAbs_sub_lt (hname index rfl) h.name
    simp [segmentDeltas, *]

namespace Builder

/-! ## Runs

A run is a list of calls. What is added to a list stays there, so whatever is listed at one time is
listed later; this is the invariant, and `run_induction` is how every invariant of runs is shown. -/

/-- What a builder can be told. -/
inductive Call where
  | setContent (source content : String)
  | addMapping (m : Mapping)
  deriving DecidableEq, Repr

/-- A builder after a call. -/
def apply (b : Builder) : Call → Builder
  | .setContent source content => b.setContent source content
  | .addMapping m => b.addMapping m

/-- A new builder after calls. -/
def run (file : String) (calls : List Call) : Builder := calls.foldl apply (new file)

/-- The mapping that a call adds, if any. -/
def Call.mapping? : Call → Option Mapping
  | .setContent .. => none
  | .addMapping m => some m

/-- The mappings that calls add, in order and with repetitions. -/
def added (calls : List Call) : List Mapping := calls.filterMap Call.mapping?

/-- All that the mappings of a builder mention is listed. -/
def AllListed (b : Builder) : Prop := ∀ m ∈ b.mappings, Listed b.sourceNames b.names m

theorem mem_mention {α : Type} [DecidableEq α] {x y : α} {xs : List α} :
    y ∈ mention x xs ↔ y = x ∨ y ∈ xs := by
  unfold mention
  split
  · next hmem => exact ⟨.inr, fun h => h.elim (fun heq => heq ▸ hmem) id⟩
  · rw [List.mem_append, List.mem_singleton, or_comm]

/-- The names of sources are mentioned as other names are. -/
theorem map_name_mentionSource (name : String) (sources : List Source) :
    (mentionSource name sources).map Source.name = mention name (sources.map Source.name) := by
  unfold mentionSource mention
  by_cases hmem : name ∈ sources.map Source.name
  · have hany : sources.any (·.name = name) = true := by simpa using hmem
    rw [if_pos hmem, if_pos hany]
  · have hany : ¬ sources.any (·.name = name) = true := by simpa using hmem
    rw [if_neg hmem, if_neg hany, List.map_append, List.map_singleton]

theorem sourceNames_setContent (source content : String) (b : Builder) :
    (b.setContent source content).sourceNames = mention source b.sourceNames := by
  have hkeep : Source.name ∘ (fun s : Source =>
      if s.name = source then { s with content := some content } else s) = Source.name := by
    funext s
    simp only [Function.comp_apply]
    split <;> rfl
  rw [sourceNames, setContent, List.map_map, hkeep, map_name_mentionSource, sourceNames]

theorem sourceNames_addMapping (m : Mapping) (b : Builder) :
    (b.addMapping m).sourceNames = mention m.source b.sourceNames :=
  map_name_mentionSource m.source b.sources

/-- A call keeps the lists complete. -/
theorem AllListed.apply {b : Builder} (h : b.AllListed) (call : Call) :
    (b.apply call).AllListed := by
  cases call with
  | setContent source content =>
    intro m hm
    obtain ⟨hsource, hname⟩ := h m hm
    refine ⟨?_, hname⟩
    rw [Builder.apply, sourceNames_setContent]
    exact mem_mention.mpr (.inr hsource)
  | addMapping added =>
    intro m hm
    -- a name that is added is listed, and what was listed stays
    have hnames : ∀ name, (added.name = some name ∨ name ∈ b.names) →
        name ∈ (b.addMapping added).names := by
      intro name hname
      unfold addMapping
      cases hadded : added.name with
      | none => exact hname.resolve_left (by simp [hadded])
      | some other =>
        refine mem_mention.mpr (hname.imp_left fun heq => ?_)
        exact (Option.some.inj (hadded.symm.trans heq)).symm
    rw [Listed, Builder.apply, sourceNames_addMapping]
    rcases List.mem_append.mp hm with hm | hm
    · obtain ⟨hsource, hname⟩ := h m hm
      exact ⟨mem_mention.mpr (.inr hsource), fun name heq => hnames name (.inr (hname name heq))⟩
    · obtain rfl := List.mem_singleton.mp hm
      exact ⟨mem_mention.mpr (.inl rfl), fun name heq => hnames name (.inl heq)⟩

/-- What holds of a new builder and is kept by every call holds after any calls. -/
theorem run_induction {P : List Call → Builder → Prop} {file : String} (hnew : P [] (new file))
    (hcall : ∀ calls b call, P calls b → P (calls ++ [call]) (b.apply call)) (calls : List Call) :
    P calls (run file calls) := by
  have hfold : ∀ done b, P done b → P (done ++ calls) (calls.foldl Builder.apply b) := by
    induction calls with
    | nil => exact fun done b hb => (List.append_nil done).symm ▸ hb
    | cons call calls ih =>
      intro done b hb
      rw [List.append_cons]
      exact ih _ _ (hcall done b call hb)
  exact hfold [] _ hnew

/-- **All that is mentioned is listed**, after any calls. -/
theorem allListed_run (file : String) (calls : List Call) : (run file calls).AllListed :=
  run_induction (P := fun _ b => b.AllListed) (fun m hm => by cases hm)
    (fun _ _ call hb => hb.apply call) calls

/-- The mappings of a builder are those that were added. -/
theorem mappings_run (file : String) (calls : List Call) :
    (run file calls).mappings = added calls := by
  refine run_induction (P := fun calls b => b.mappings = added calls) rfl ?_ calls
  intro calls b call hb
  rw [added, List.filterMap_append, ← added, ← hb]
  cases call with
  | setContent source content => exact (List.append_nil _).symm
  | addMapping m => rfl

theorem length_mention_le {α : Type} [DecidableEq α] (x : α) (xs : List α) :
    (mention x xs).length ≤ xs.length + 1 := by
  unfold mention
  split <;> simp

/-- A call lists at most one source and one name more. -/
theorem length_run_le (file : String) (calls : List Call) :
    (run file calls).sourceNames.length ≤ calls.length
      ∧ (run file calls).names.length ≤ calls.length := by
  refine run_induction (P := fun calls b => b.sourceNames.length ≤ calls.length
    ∧ b.names.length ≤ calls.length) ⟨Nat.le_refl _, Nat.le_refl _⟩ ?_ calls
  rintro calls b call ⟨hsources, hnames⟩
  rw [List.length_append, List.length_singleton]
  cases call with
  | setContent source content =>
    have hmention := length_mention_le source b.sourceNames
    rw [Builder.apply, sourceNames_setContent]
    exact ⟨by omega, Nat.le_succ_of_le hnames⟩
  | addMapping m =>
    have hmention := length_mention_le m.source b.sourceNames
    rw [Builder.apply, sourceNames_addMapping, addMapping]
    refine ⟨by omega, ?_⟩
    cases m.name with
    | none => exact Nat.le_succ_of_le hnames
    | some name => exact Nat.le_trans (length_mention_le name b.names) (Nat.succ_le_succ hnames)

/-! ## The text of a run

The mappings are sorted and repetitions are left out, then they are laid out by lines. Reading
undoes the layout and gives the sorted list back. -/

/-- The mappings that a builder writes: in ascending order, and each once. -/
def written (b : Builder) : List Mapping := dropRepeats none (b.mappings.mergeSort Mapping.le)

/-- The differences that a builder writes, by line and segment. -/
def deltas (b : Builder) : List (List (List Int)) :=
  let lines := deltaLines b.sourceNames b.names .start b.written
  lines.1 :: lines.2

theorem toList_mappingsText (b : Builder) : b.mappingsText.toList = layout b.deltas := by
  have hsorted := List.pairwise_mergeSort (fun _ _ _ => Std.TransCmp.isLE_trans) Mapping.le_total
    b.mappings
  rw [mappingsText, String.toList_ofList,
    encodeMappings_eq_layout _ _ hsorted (by simp) (fun m _ => Nat.zero_le _)]
  rfl

/-- The mapping text of a builder is read as the segments of its mappings. -/
theorem segments?_mappingsText (b : Builder) :
    segments? b.mappingsText.toList = some (b.written.map (segmentOf b.sourceNames b.names)) := by
  have hne : ∀ line ∈ b.deltas, ∀ deltas ∈ line, deltas ≠ [] :=
    forall_mem_deltaLines (I := fun _ => True) (fun _ _ _ => trivial)
      (fun _ _ _ _ => ⟨segmentDeltas_ne_nil _ _ _ _, trivial⟩) trivial
  have hsorted : b.written.Pairwise fun a b => Mapping.le a b = true :=
    (sorted_dropRepeats b.mappings).1.imp Mapping.Before.le
  have hstart : ∀ m ∈ b.written, Cursor.start.line ≤ m.generated.line := fun _ _ => Nat.zero_le _
  obtain ⟨first, t, rest, hfirst, hrest, happend⟩ :=
    accumulate_deltaLines b.sourceNames b.names hsorted hstart
  have hlines : deltas? (layout b.deltas) = some b.deltas :=
    deltas?_layout (List.cons_ne_nil _ _) hne
  rw [segments?, toList_mappingsText, hlines, Option.bind_some, deltas, accumulate]
  have hfirst : readLine 0 ⟨0, 0, 0, 0, 0⟩
      (deltaLines b.sourceNames b.names .start b.written).1 = some (first, t) := hfirst
  have hrest : accumulate (0 + 1) t
      (deltaLines b.sourceNames b.names .start b.written).2 = some rest := hrest
  simp only [hfirst, hrest, Option.bind_eq_bind, Option.bind_some, Option.pure_def, happend]

/-- A builder whose lists are complete builds a map that decodes to what it writes. -/
theorem decode?_build_of_allListed {b : Builder} (h : b.AllListed) :
    b.build.decode? = some b.written := by
  have hread : ∀ m ∈ b.written,
      (segmentOf b.sourceNames b.names m).mapping? b.sourceNames b.names = some (id m) :=
    fun m hm => mapping?_segmentOf (h m ((sorted_dropRepeats b.mappings).2 m |>.mp hm))
  rw [decode?, show b.build.mappings = b.mappingsText from rfl, segments?_mappingsText,
    Option.bind_some]
  exact (mapM_map_eq_some hread).trans (congrArg some (List.map_id _))

/-- **No difference is large.** If all positions of the mappings and the numbers of sources and
names are below a limit, then so are the differences that are written, whatever their sign. -/
theorem natAbs_lt_of_mem_deltas {b : Builder} (h : b.AllListed) {limit : Nat} (hlimit : 0 < limit)
    (hplaces : ∀ m ∈ b.mappings, m.PlacesBelow limit) (hsources : b.sourceNames.length ≤ limit)
    (hnames : b.names.length ≤ limit) :
    ∀ line ∈ b.deltas, ∀ deltas ∈ line, ∀ d ∈ deltas, d.natAbs < limit := by
  refine forall_mem_deltaLines (fun _ _ hcursor => hcursor.toLine) ?_
    (Cursor.below_start hlimit)
  intro m hm cursor hcursor
  have hm := ((sorted_dropRepeats b.mappings).2 m).mp hm
  obtain ⟨hsource, hname⟩ := h m hm
  have hindex : indexIn b.sourceNames m.source < limit :=
    Nat.lt_of_lt_of_le (indexIn_lt hsource) hsources
  have hname : ∀ index ∈ m.name.map (indexIn b.names), index < limit := by
    intro index hmem
    obtain ⟨name, heq, rfl⟩ := Option.map_eq_some_iff.mp hmem
    exact Nat.lt_of_lt_of_le (indexIn_lt (hname name heq)) hnames
  exact ⟨natAbs_lt_of_mem_segmentDeltas hcursor (hplaces m hm) hindex hname,
    hcursor.after (hplaces m hm) hindex hname⟩

/-- **A source map decodes to the mappings that were added.** After any calls, in any order and with
repetitions, the map that is built decodes to the added mappings in strictly ascending order, so
each once, with nothing lost and nothing new. Its text is a layout of differences, and these are
below `2 ^ 62` in magnitude as long as positions are below `2 ^ 32` and there are not more than
`2 ^ 62` calls, hence not more sources or names. -/
theorem decode?_build_run (file : String) (calls : List Call) :
    ∃ ms lines, (run file calls).build.decode? = some ms
      ∧ ms.Pairwise Mapping.Before
      ∧ (∀ m, m ∈ ms ↔ m ∈ added calls)
      ∧ (run file calls).build.mappings.toList = layout lines
      ∧ ((∀ m ∈ added calls, m.PlacesBelow (2 ^ 32)) → calls.length ≤ 2 ^ 62 →
          ∀ line ∈ lines, ∀ deltas ∈ line, ∀ d ∈ deltas, d.natAbs < 2 ^ 62) := by
  obtain ⟨hascending, hmembers⟩ := sorted_dropRepeats (run file calls).mappings
  refine ⟨(run file calls).written, (run file calls).deltas,
    decode?_build_of_allListed (allListed_run file calls), hascending, ?_,
    toList_mappingsText _, ?_⟩
  · rw [← mappings_run file calls]
    exact hmembers
  · intro hplaces hcalls
    have hwide : ∀ m ∈ (run file calls).mappings, m.PlacesBelow (2 ^ 62) := by
      rw [mappings_run]
      exact fun m hm => (hplaces m hm).mono (by decide)
    have hlength := length_run_le file calls
    exact natAbs_lt_of_mem_deltas (allListed_run file calls) (by decide) hwide
      (Nat.le_trans hlength.1 hcalls) (Nat.le_trans hlength.2 hcalls)

/-- Calls out of order, with a repetition, a line without mappings and two sources. -/
def sampleCalls : List Call :=
  [.setContent "b" "1 + 2", .addMapping ⟨⟨2, 4⟩, ⟨0, 9⟩, "a", some "f"⟩,
    .addMapping ⟨⟨0, 7⟩, ⟨3, 1⟩, "b", none⟩, .addMapping ⟨⟨2, 4⟩, ⟨0, 9⟩, "a", some "f"⟩]

theorem decode?_build_run_sample :
    ∃ ms lines, (run "out" sampleCalls).build.decode? = some ms
      ∧ (∀ m, m ∈ ms ↔ m ∈ added sampleCalls)
      ∧ (run "out" sampleCalls).build.mappings.toList = layout lines
      ∧ ∀ line ∈ lines, ∀ deltas ∈ line, ∀ d ∈ deltas, d.natAbs < 2 ^ 62 := by
  obtain ⟨ms, lines, hdecode, -, hmembers, hlayout, hsmall⟩ := decode?_build_run "out" sampleCalls
  refine ⟨ms, lines, hdecode, hmembers, hlayout, hsmall ?_ (by decide)⟩
  intro m hm
  simp only [added, sampleCalls, List.filterMap_cons, List.filterMap_nil, Call.mapping?,
    List.mem_cons, List.not_mem_nil, or_false] at hm
  rcases hm with rfl | rfl | rfl <;> constructor <;> decide

end Builder

end SourceMap

end ArithScript
