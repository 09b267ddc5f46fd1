import ArithScript.Proofs.DocumentDepth
import ArithScript.Proofs.LineOffsets
import ArithScript.Proofs.MappingOrigins
import Mathlib.Data.Option.Basic

/-!
# What filling in ranges changes

`Corresponds R` relates two modules that differ in their regions only. It goes through both at once,
asks for the same names, numbers and operators, and for `R` wherever a region may stand, whether
there is one or not: on modules, statements, names and parameters of definitions, on expressions of
each kind, on operators and on names in calls.

With the rule for one region in place of `R` (`Region.FilledFrom`) this is all that is to be said
about parsing: the document that comes out and the one in the text are alike in this way, and no
other document is, so there is no place that the rule does not reach.
-/

set_option autoImplicit false

namespace ArithScript

open Text

/-! ## Corresponds up to regions

Two relations for the two kinds of recursion, through an expression and through a list of arguments.
They are given by rules and not by erasing regions, so that `R` can relate the regions of both
sides. -/

section

variable (R : Option Region → Option Region → Prop)

mutual

/-- Two expressions are the same but for their regions, and these are related by `R`. -/
inductive Expr.Corresponds : Expr → Expr → Prop where
  | literal {value : Double} {r r' : Option Region} (own : R r r') :
    Corresponds (.literal value r) (.literal value r')
  | binary {operator : Operator} {o o' : Option Region} {left left' right right' : Expr}
      {r r' : Option Region} (token : R o o') (hleft : left.Corresponds left')
      (hright : right.Corresponds right') (own : R r r') :
      Corresponds (.binary operator o left right r) (.binary operator o' left' right' r')
  | call {name : String} {n n' : Option Region} {arguments arguments' : List Expr}
      {r r' : Option Region} (hname : R n n') (harguments : Expr.AllCorrespond arguments arguments')
      (own : R r r') :
    Corresponds (.call ⟨name, n⟩ arguments r) (.call ⟨name, n'⟩ arguments' r')

/-- The same of some expressions in a row. -/
inductive Expr.AllCorrespond : List Expr → List Expr → Prop where
  | nil : AllCorrespond [] []
  | cons {e e' : Expr} {es es' : List Expr} (first : e.Corresponds e')
      (rest : AllCorrespond es es') :
    AllCorrespond (e :: es) (e' :: es')

end

/-- Two parameters have the same name, and related regions. -/
structure Parameter.Corresponds (p p' : Parameter) : Prop where
  name : p.name = p'.name
  own : R p.region p'.region

/-- Two statements are the same but for their regions. -/
inductive Statement.Corresponds : Statement → Statement → Prop where
  | definition {d d' : Definition} (name : d.name = d'.name) (hname : R d.nameRegion d'.nameRegion)
      (parameters : List.Forall₂ (Parameter.Corresponds R) d.parameters d'.parameters)
      (body : d.body.Corresponds R d'.body) (own : R d.region d'.region) :
    Corresponds (.definition d) (.definition d')
  | evaluation {e e' : Evaluation} (expression : e.expression.Corresponds R e'.expression)
      (own : R e.region e'.region) : Corresponds (.evaluation e) (.evaluation e')

/-- **Two modules are the same but for their regions**, and these are related by `R` wherever one
may stand. -/
structure Module.Corresponds (m m' : Module) : Prop where
  own : R m.region m'.region
  statements : List.Forall₂ (Statement.Corresponds R) m.statements m'.statements

end

variable {R : Option Region → Option Region → Prop}

section

variable {f : Option Region → Option Region}

mutual

/-- A change of regions changes nothing else, so it gives a document that corresponds, place by
place. -/
theorem Expr.corresponds_mapRegions (hf : ∀ r, R r (f r)) :
    ∀ e : Expr, e.Corresponds R (e.mapRegions f)
  | .literal _ region => .literal (hf region)
  | .binary _ operatorRegion left right region =>
    .binary (hf operatorRegion) (left.corresponds_mapRegions hf) (right.corresponds_mapRegions hf)
      (hf region)
  | .call ⟨_, name⟩ arguments region =>
    .call (hf name) (Expr.allCorrespond_mapAllRegions hf arguments) (hf region)

theorem Expr.allCorrespond_mapAllRegions (hf : ∀ r, R r (f r)) : ∀ es : List Expr,
    Expr.AllCorrespond R es (Expr.mapAllRegions f es)
  | [] => .nil
  | e :: es => .cons (e.corresponds_mapRegions hf) (Expr.allCorrespond_mapAllRegions hf es)

end

theorem Statement.corresponds_mapRegions (hf : ∀ r, R r (f r)) (s : Statement) :
    s.Corresponds R (s.mapRegions f) := by
  cases s with
  | definition d =>
    refine .definition rfl (hf _) ?_ (d.body.corresponds_mapRegions hf) (hf _)
    exact List.forall₂_map_right_iff.mpr (List.forall₂_same.mpr fun p _ => ⟨rfl, hf p.region⟩)
  | evaluation e => exact .evaluation (e.expression.corresponds_mapRegions hf) (hf _)

/-- Changing every region in a way that `R` allows gives a module that corresponds. -/
theorem Module.corresponds_mapRegions (hf : ∀ r, R r (f r)) (m : Module) :
    m.Corresponds R (m.mapRegions f) where
  own := hf m.region
  statements :=
    List.forall₂_map_right_iff.mpr (List.forall₂_same.mpr fun s _ => s.corresponds_mapRegions hf)

end

mutual

/-- To change no region is to change nothing. -/
theorem Expr.mapRegions_id : ∀ e : Expr, e.mapRegions id = e
  | .literal _ _ => rfl
  | .binary _ _ left right _ => by
    rw [Expr.mapRegions, left.mapRegions_id, right.mapRegions_id]
    rfl
  | .call _ arguments _ => by
    rw [Expr.mapRegions, Expr.mapAllRegions_id arguments]
    rfl

theorem Expr.mapAllRegions_id : ∀ es : List Expr, Expr.mapAllRegions id es = es
  | [] => rfl
  | e :: es => by rw [Expr.mapAllRegions, e.mapRegions_id, Expr.mapAllRegions_id es]

end

theorem Statement.mapRegions_id (s : Statement) : s.mapRegions id = s := by
  have hparameter : (fun p : Parameter => p.mapRegions id) = id := rfl
  cases s with
  | definition d =>
    simp [Statement.mapRegions, Definition.mapRegions, Expr.mapRegions_id, hparameter]
  | evaluation e => simp [Statement.mapRegions, Evaluation.mapRegions, Expr.mapRegions_id]

theorem Module.mapRegions_id (m : Module) : m.mapRegions id = m := by
  have hstatement : (fun s : Statement => s.mapRegions id) = id := funext Statement.mapRegions_id
  simp [Module.mapRegions, hstatement]

/-! ## No place is left out

If the relation of regions leaves no choice, neither does the relation of documents. This is where
it would show if a place for a region had been forgotten: two documents could differ there. -/

mutual

/-- Whatever is not a region is the same in both, and the regions are given by those of the first:
there is only one such expression. -/
theorem Expr.Corresponds.unique (hR : Relator.RightUnique R) :
    ∀ {e a b : Expr}, e.Corresponds R a → e.Corresponds R b → a = b
  | _, _, _, .literal own, .literal own' => by rw [hR own own']
  | _, _, _, .binary token hleft hright own, .binary token' hleft' hright' own' => by
    rw [hR token token', hleft.unique hR hleft', hright.unique hR hright', hR own own']
  | _, _, _, .call hname harguments own, .call hname' harguments' own' => by
    rw [hR hname hname', harguments.unique hR harguments', hR own own']

theorem Expr.AllCorrespond.unique (hR : Relator.RightUnique R) :
    ∀ {es as bs : List Expr}, Expr.AllCorrespond R es as → Expr.AllCorrespond R es bs → as = bs
  | _, _, _, .nil, .nil => rfl
  | _, _, _, .cons first rest, .cons first' rest' => by
    rw [first.unique hR first', rest.unique hR rest']

end

theorem Parameter.corresponds_unique (hR : Relator.RightUnique R) :
    Relator.RightUnique (Parameter.Corresponds R) := by
  rintro p ⟨_, _⟩ ⟨_, _⟩ ⟨rfl, own⟩ ⟨rfl, own'⟩
  rw [Parameter.mk.injEq]
  exact ⟨rfl, hR own own'⟩

/-- The same for statements, whose parameters and names have regions of their own. -/
theorem Statement.corresponds_unique (hR : Relator.RightUnique R) :
    Relator.RightUnique (Statement.Corresponds R) := by
  intro s a b ha hb
  cases ha with
  | @definition d x name hname parameters body own =>
    cases hb with
    | @definition _ y name' hname' parameters' body' own' =>
      obtain ⟨_, _, _, _, _⟩ := x
      obtain ⟨_, _, _, _, _⟩ := y
      rw [Statement.definition.injEq, Definition.mk.injEq]
      exact ⟨name.symm.trans name', hR hname hname',
        (List.right_unique_forall₂' (Parameter.corresponds_unique hR)) parameters parameters',
        body.unique hR body', hR own own'⟩
  | @evaluation e x expression own =>
    cases hb with
    | @evaluation _ y expression' own' =>
      obtain ⟨_, _⟩ := x
      obtain ⟨_, _⟩ := y
      rw [Statement.evaluation.injEq, Evaluation.mk.injEq]
      exact ⟨expression.unique hR expression', hR own own'⟩

/-- **Corresponding modules are determined**, if `R` determines regions. -/
theorem Module.corresponds_unique (hR : Relator.RightUnique R) :
    Relator.RightUnique (Module.Corresponds R) := by
  rintro m ⟨_, _⟩ ⟨_, _⟩ ⟨own, statements⟩ ⟨own', statements'⟩
  rw [Module.mk.injEq]
  exact ⟨hR own own',
    (List.right_unique_forall₂' (Statement.corresponds_unique hR)) statements statements'⟩

/-! ## The rule for one region

A range that was given is kept, also if it is wrong. A missing one is looked up in the source text,
if there is one, and stays missing if either offset is not a place of the text. -/

/-- **One region comes from another by filling in**: it has the same offsets, a range that was there
is kept, and one that was not is looked up in the source text, if there is a source text. -/
structure Region.FilledFrom (source : Option String) (before after : Region) : Prop where
  offset : after.offset = before.offset
  stop : after.stop = before.stop
  kept : ∀ range, before.range = some range → after.range = some range
  missing : source = none → before.range = none → after.range = none
  found : ∀ text, source = some text → before.range = none →
    after.range = (LineIndex.ofText text.toList).range? before.offset before.stop

/-- The rule leaves no choice for a region. -/
theorem Region.filledFrom_unique (source : Option String) :
    Relator.RightUnique (Region.FilledFrom source) := by
  intro before a b ha hb
  have hrange : a.range = b.range := by
    cases hbefore : before.range with
    | some range => rw [ha.kept range hbefore, hb.kept range hbefore]
    | none =>
      cases source with
      | none => rw [ha.missing rfl hbefore, hb.missing rfl hbefore]
      | some text => rw [ha.found text rfl hbefore, hb.found text rfl hbefore]
  have hoffset := ha.offset.trans hb.offset.symm
  have hstop := ha.stop.trans hb.stop.symm
  cases a
  cases b
  rw [Region.mk.injEq]
  exact ⟨hoffset, hstop, hrange⟩

/-- Without a source text nothing is filled in. -/
theorem Region.filledFrom_self (r : Region) : r.FilledFrom none r :=
  ⟨rfl, rfl, fun _ h => h, fun _ h => h, fun _ h => (by cases h)⟩

/-- With a source text, filling in follows the rule. -/
theorem Region.filledFrom_fill (text : String) (r : Region) :
    r.FilledFrom (some text) (r.fill (LineIndex.ofText text.toList)) := by
  cases hrange : r.range with
  | some range =>
    have hfill : r.fill (LineIndex.ofText text.toList) = r := by rw [fill, hrange]
    rw [hfill]
    refine ⟨rfl, rfl, fun _ h => h, fun h => (by cases h), fun _ _ h => ?_⟩
    rw [hrange] at h
    cases h
  | none =>
    have hfill : r.fill (LineIndex.ofText text.toList)
        = ⟨r.offset, r.stop, (LineIndex.ofText text.toList).range? r.offset r.stop⟩ := by
      rw [fill, hrange]
    rw [hfill]
    refine ⟨rfl, rfl, fun _ h => ?_, fun h => (by cases h), fun _ h _ => ?_⟩
    · rw [hrange] at h
      cases h
    · cases h
      rfl

/-- A byte offset lies on a boundary: some first part of the text has that many bytes. -/
def Text.IsCut (text : List Char) (offset : Nat) : Prop :=
  ∃ before after, text = before ++ after ∧ byteLength before = offset

/-- An offset is found in the index exactly if the text can be cut there, that is, not inside a
character and not behind the end. -/
theorem LineIndex.isSome_position?_iff {text : List Char} {offset : Nat} :
    ((ofText text).position? offset).isSome = true ↔ IsCut text offset := by
  rw [Option.isSome_iff_exists]
  constructor
  · rintro ⟨p, hp⟩
    obtain ⟨before, after, htext, hoffset, -⟩ := position?_eq_some_iff.mp hp
    exact ⟨before, after, htext, hoffset.symm⟩
  · rintro ⟨before, after, rfl, rfl⟩
    exact ⟨_, position?_append before after⟩

/-- **A range is found exactly if its offsets are in order and cut the text.** -/
theorem LineIndex.isSome_range?_iff {text : List Char} {offset stop : Nat} :
    ((ofText text).range? offset stop).isSome = true
      ↔ offset ≤ stop ∧ stop ≤ byteLength text ∧ IsCut text offset ∧ IsCut text stop := by
  constructor
  · intro h
    obtain ⟨range, hrange⟩ := Option.isSome_iff_exists.mp h
    obtain ⟨hstart, hstop⟩ := position?_of_range? hrange
    have hle : offset ≤ stop := by
      by_contra hlt
      rw [range?, if_neg hlt] at hrange
      cases hrange
    have hcut := isSome_position?_iff.mp (Option.isSome_of_eq_some hstop)
    refine ⟨hle, ?_, isSome_position?_iff.mp (Option.isSome_of_eq_some hstart), hcut⟩
    obtain ⟨before, after, rfl, rfl⟩ := hcut
    rw [byteLength_append]
    exact Nat.le_add_right _ _
  · rintro ⟨hle, -, hoffset, hstop⟩
    obtain ⟨p, hp⟩ := Option.isSome_iff_exists.mp (isSome_position?_iff.mpr hoffset)
    obtain ⟨q, hq⟩ := Option.isSome_iff_exists.mp (isSome_position?_iff.mpr hstop)
    rw [range?, if_pos hle, hp, hq]
    rfl

/-- The rule for a place where a region may stand: it stands there after filling in if it did
before. -/
theorem filledFrom_fillRegion (text : String) (r : Option Region) :
    Option.Rel (Region.FilledFrom (some text)) r (fillRegion (LineIndex.ofText text.toList) r) := by
  cases r with
  | none => exact .none
  | some r => exact .some (r.filledFrom_fill text)

theorem filledFrom_refl (r : Option Region) : Option.Rel (Region.FilledFrom none) r r := by
  cases r with
  | none => exact .none
  | some r => exact .some r.filledFrom_self

/-- The rule leaves no choice for a place that has no region either. -/
theorem rel_filledFrom_unique (source : Option String) :
    Relator.RightUnique (Option.Rel (Region.FilledFrom source)) := by
  rintro _ _ _ (h | _) (h' | _)
  · rw [Region.filledFrom_unique source h h']
  · rfl

namespace Document

/-- **One document comes from another by filling in ranges**, and by nothing else. -/
structure FilledFrom (plain d : Document) : Prop where
  sourceText : d.sourceText = plain.sourceText
  module : plain.module.Corresponds (Option.Rel (Region.FilledFrom plain.sourceText)) d.module

/-- Filling in a document follows the rule at every place, with its own source text. -/
theorem filledFrom_fill (plain : Document) : plain.FilledFrom plain.fill where
  sourceText := plain.sourceText_fill
  module := by
    obtain ⟨source, m⟩ := plain
    cases source with
    | some text =>
      show m.Corresponds _ (m.fill (LineIndex.ofText text.toList))
      rw [Module.fill_eq_mapRegions]
      exact m.corresponds_mapRegions (filledFrom_fillRegion text)
    | none =>
      -- nothing is looked up without a source text, and every region corresponds to itself
      have hself := m.corresponds_mapRegions (f := id) filledFrom_refl
      rw [Module.mapRegions_id] at hself
      exact hself

/-- The rule determines the document. -/
theorem FilledFrom.unique {plain d d' : Document} (h : plain.FilledFrom d)
    (h' : plain.FilledFrom d') :
    d = d' := by
  obtain ⟨_, _⟩ := d
  obtain ⟨_, _⟩ := d'
  rw [Document.mk.injEq]
  exact ⟨h.sourceText.trans h'.sourceText.symm,
    Module.corresponds_unique (rel_filledFrom_unique _) h.module h'.module⟩

/-- **Filling in ranges is complete and touches nothing else.** An accepted text holds a document,
which is also what reading alone gives if the text opens no more brackets than that allows. The
result is that document with the rule for filling in applied to every region in it, wherever it
stands, and it is the only document of which this can be said. What the rule looks up is there
exactly if the two offsets of a region are in order and lie on boundaries of the source text. -/
theorem parse_fills_ranges {text : String} {maxDepth : Nat} {d : Document}
    (h : parse text maxDepth = .ok d) :
    ∃ plain, read text = .ok plain
      ∧ (Json.Within uncheckedNesting 0 text.toList → parsePlain text = .ok plain)
      ∧ (∀ d', plain.FilledFrom d' ↔ d' = d)
      ∧ ∀ source, plain.sourceText = some source → ∀ offset stop,
          ((LineIndex.ofText source.toList).range? offset stop).isSome = true
            ↔ offset ≤ stop ∧ stop ≤ byteLength source.toList ∧ IsCut source.toList offset
              ∧ IsCut source.toList stop := by
  obtain ⟨plain, hread, rfl⟩ := exists_read_of_parse h
  refine ⟨plain, hread, fun hwithin => ?_, fun d' => ?_, fun source _ offset stop => ?_⟩
  · exact (readText_of_within hwithin (Nat.le_refl _)).trans hread
  · constructor
    · intro hfilled
      exact hfilled.unique plain.filledFrom_fill
    · rintro rfl
      exact plain.filledFrom_fill
  · exact LineIndex.isSome_range?_iff

/-- A definition and a call in a text of two lines. The module begins inside a character, the body
of the definition is inverted and the evaluation goes past the end; the name of the definition comes
with a range that is not the one of its offsets. -/
def partlyRanged : Document :=
  ⟨some "f(x) = é * x\nf(f)", some ⟨8, 18, none⟩, [
    .definition ⟨"f", some ⟨0, 1, some ⟨⟨7, 7⟩, ⟨7, 8⟩⟩⟩, [⟨"x", some ⟨2, 3, none⟩⟩],
      .binary .mul (some ⟨10, 11, none⟩) (.call ⟨"é", none⟩ [] (some ⟨7, 9, none⟩))
        (.call ⟨"x", some ⟨12, 13, none⟩⟩ [] none) (some ⟨13, 7, none⟩), some ⟨0, 13, none⟩⟩,
    .evaluation ⟨.call ⟨"f", some ⟨14, 15, none⟩⟩ [.call ⟨"f", none⟩ [] (some ⟨16, 17, none⟩)]
      (some ⟨14, 18, none⟩), some ⟨14, 99, none⟩⟩]⟩

theorem writable_partlyRanged : partlyRanged.Writable := by
  simp [partlyRanged, Writable, Module.Writable, Statement.Writable, Definition.Writable,
    Parameter.Writable, Evaluation.Writable, Expr.Writable, Expr.AllWritable, RegionFits,
    Region.Fits, Range.Fits, Position.Fits, Json.Width.max]

theorem parse_fills_ranges_partlyRanged :
    parse partlyRanged.text 2 = .ok partlyRanged.fill
      ∧ (∀ d, partlyRanged.FilledFrom d ↔ d = partlyRanged.fill)
      ∧ partlyRanged.fill.regions.map Region.range
        = [none, some ⟨⟨0, 0⟩, ⟨0, 12⟩⟩, some ⟨⟨7, 7⟩, ⟨7, 8⟩⟩, some ⟨⟨0, 2⟩, ⟨0, 3⟩⟩, none,
          some ⟨⟨0, 9⟩, ⟨0, 10⟩⟩, some ⟨⟨0, 7⟩, ⟨0, 8⟩⟩, some ⟨⟨0, 11⟩, ⟨0, 12⟩⟩, none,
          some ⟨⟨1, 0⟩, ⟨1, 4⟩⟩, some ⟨⟨1, 0⟩, ⟨1, 1⟩⟩, some ⟨⟨1, 2⟩, ⟨1, 3⟩⟩] := by
  have hsize : partlyRanged.text.utf8ByteSize ≤ maxNesting := by
    rw [← Text.byteLength_toList, toList_text]
    decide +kernel
  have hparse : parse partlyRanged.text 2 = .ok partlyRanged.fill := by
    rw [parse_text writable_partlyRanged, if_pos (nestingWithin_text hsize (by decide))]
  have hread : read partlyRanged.text = .ok partlyRanged := by
    rw [read, toList_text]
    exact readText_text writable_partlyRanged
  obtain ⟨plain, hplain, -, hfilled, -⟩ := parse_fills_ranges hparse
  obtain rfl : plain = partlyRanged := Except.ok.inj (hplain.symm.trans hread)
  exact ⟨hparse, hfilled, by decide +kernel⟩

end Document

end ArithScript
