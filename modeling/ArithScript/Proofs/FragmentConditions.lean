import ArithScript.Proofs.Regions

/-!
# Conditions on marked text

Several things are said about all texts that lowering writes or about all marks that it makes: no
text is empty, every mark comes from the module, every mark lies inside the mark around it.
`Fragment.Meets` is their common form. It takes a condition for texts and one for marks, and the
latter may look at the innermost mark around.

What lowering writes is walked over once, here (`Module.meets_fragments`). All that is left to show
for a condition is about the module: its names meet the condition for texts, and its regions meet
the condition for marks where lowering puts them (`Module.Placed`). The latter is so for every
condition that is kept by covers and does not look at the marks around (`Module.placed_of_regions`).
-/

set_option autoImplicit false

namespace ArithScript

open Lowering

namespace Fragment

variable {texts : String → Prop} {marks : Option Region → Region → Prop} {outer : Option Region}

/-- **A fragment meets two conditions**: one for its texts, and one for its marks together with the
innermost mark around them. No stretch is without parts. -/
inductive Meets (texts : String → Prop) (marks : Option Region → Region → Prop) :
    Option Region → Fragment → Prop where
  | text {outer : Option Region} {s : String} (h : texts s) : Meets texts marks outer (.text s)
  | marked {outer source : Option Region} {parts : List Fragment}
      (hmark : ∀ r ∈ source, marks outer r) (hparts : parts ≠ [])
      (each : ∀ part ∈ parts, Meets texts marks (source.or outer) part) :
      Meets texts marks outer (.marked source parts)

/-- A stretch of a single text. -/
theorem meets_word {source : Option Region} {s : String} (hmark : ∀ r ∈ source, marks outer r)
    (h : texts s) : Meets texts marks outer (.marked source [.text s]) :=
  .marked hmark (List.cons_ne_nil _ _) (List.forall_mem_singleton.mpr (.text h))

/-- What holds of fragments and of the separator holds of the fragments with the separator
between. -/
theorem forall_mem_separated {P : Fragment → Prop} {separator : String}
    (hseparator : P (.text separator)) :
    ∀ {parts : List Fragment}, (∀ part ∈ parts, P part) →
      ∀ part ∈ Fragment.separated separator parts, P part
  | [], h => h
  | [_], h => h
  | _ :: next :: parts, h => by
    obtain ⟨hpart, hparts⟩ := List.forall_mem_cons.mp h
    rw [Fragment.separated, List.intersperse_cons_cons]
    refine List.forall_mem_cons.mpr ⟨hpart, List.forall_mem_cons.mpr ⟨hseparator, ?_⟩⟩
    exact forall_mem_separated hseparator hparts

end Fragment

open Fragment

/-! ## Texts

All that lowering writes of its own accord, numerals among it, has a character at least. So it is
enough to know of a condition for texts that it holds of texts that are not empty, and of names. -/

theorem positional_ne_nil (d : Decimal) : d.positional ≠ [] := by
  have hdigits : d.digitChars ≠ [] := Nat.toDigits_ne_nil
  unfold Decimal.positional
  dsimp only
  split
  · exact List.append_ne_nil_of_left_ne_nil hdigits _
  · split
    · simp
    · simp

theorem numeral_ne_nil (x : Double) : numeral x ≠ [] := by
  have hdigits : (if x.isInfinite then "Infinity".toList else if x.isZero then ['0']
      else (Decimal.shortest .upward x).positional) ≠ [] := by
    split
    · decide
    · split
      · exact List.cons_ne_nil _ _
      · exact positional_ne_nil _
  unfold numeral
  by_cases hnan : x.isNaN = true
  · rw [if_pos hnan]
    decide
  · rw [if_neg hnan]
    by_cases hnegative : x.isNegative = true
    · rw [if_pos hnegative]
      exact List.cons_ne_nil _ _
    · rw [if_neg hnegative]
      exact hdigits

/-- The names of a definition and of its parameters meet a condition. -/
def Definition.Spelled (texts : String → Prop) (d : Definition) : Prop :=
  texts d.name ∧ ∀ p ∈ d.parameters, texts p.name

section Texts

variable {texts : String → Prop} {known : String → Bool}

theorem texts_spelling (hwords : ∀ s, s ≠ "" → texts s)
    (hknown : ∀ name, known name = true → texts name) (name : String) :
    texts (spelling known name) := by
  unfold spelling
  split
  · next hname => exact hknown name hname
  · exact hwords unresolved (by decide)

/-- Inside a definition its parameters are known, and these meet the condition as well. -/
theorem Definition.Spelled.knows {d : Definition} (hd : d.Spelled texts)
    (hknown : ∀ name, known name = true → texts name) :
    ∀ name, d.knows known name = true → texts name := by
  intro name hname
  rw [Definition.knows, Bool.or_eq_true, List.any_eq_true] at hname
  rcases hname with ⟨p, hp, heq⟩ | hname
  · rw [← of_decide_eq_true heq]
    exact hd.2 p hp
  · exact hknown name hname

end Texts

/-! ## Marks

The marks of a construct are its regions, at places that lowering chooses: an operand in parentheses
is marked twice, a constant is marked at its keyword again, and the arguments of a call are marked
together, from the first to the last. -/

section Placed

variable (marks : Option Region → Region → Prop)

/-- The marks of an expression meet a condition where they are put. -/
inductive Expr.Placed : Option Region → Expr → Prop where
  | literal {outer region : Option Region} {value : Double} (own : ∀ r ∈ region, marks outer r) :
      Placed outer (.literal value region)
  | binary {outer region operatorRegion : Option Region} {operator : Operator} {left right : Expr}
      (own : ∀ r ∈ region, marks outer r)
      (token : ∀ r ∈ operatorRegion, marks (region.or outer) r)
      (hleft : Placed (region.or outer) left)
      (hleftInside : Placed (left.region.or (region.or outer)) left)
      (hright : Placed (region.or outer) right)
      (hrightInside : Placed (right.region.or (region.or outer)) right) :
      Placed outer (.binary operator operatorRegion left right region)
  | call {outer region : Option Region} {function : Reference} {arguments : List Expr}
      (own : ∀ r ∈ region, marks outer r)
      (callee : ∀ r ∈ function.region, marks (region.or outer) r)
      (stretch : ∀ r ∈ Expr.argumentsRegion arguments, marks (region.or outer) r)
      (each : ∀ e ∈ arguments, Placed ((Expr.argumentsRegion arguments).or (region.or outer)) e) :
      Placed outer (.call function arguments region)

/-- The marks of a statement meet a condition where they are put. -/
inductive Statement.Placed : Option Region → Statement → Prop where
  | definition {outer : Option Region} {d : Definition} (own : ∀ r ∈ d.region, marks outer r)
      (keyword : ∀ r ∈ d.region, marks (d.region.or outer) r)
      (name : ∀ r ∈ d.nameRegion, marks (d.region.or outer) r)
      (parameters : ∀ p ∈ d.parameters, ∀ r ∈ p.region, marks (d.region.or outer) r)
      (body : d.body.Placed marks (d.region.or outer)) : Placed outer (.definition d)
  | evaluation {outer : Option Region} {e : Evaluation} (own : ∀ r ∈ e.region, marks outer r)
      (expression : e.expression.Placed marks (e.region.or outer)) : Placed outer (.evaluation e)

/-- The marks of a module meet a condition where they are put. -/
structure Module.Placed (m : Module) : Prop where
  own : ∀ r ∈ m.region, marks none r
  statements : ∀ s ∈ m.statements, s.Placed marks (m.region.or none)

end Placed

theorem Expr.Placed.own {marks : Option Region → Region → Prop} {outer : Option Region} {e : Expr}
    (h : e.Placed marks outer) : ∀ r ∈ e.region, marks outer r := by
  cases h with
  | literal own => exact own
  | binary own => exact own
  | call own => exact own

/-! ## The walk

One lemma for each construct, with the conditions as variables. `hwords` is all that is asked of the
condition for texts: that it holds of every text that is not empty. -/

section Walk

variable {texts : String → Prop} {marks : Option Region → Region → Prop} {outer : Option Region}
  {known : String → Bool} (hwords : ∀ s, s ≠ "" → texts s)
include hwords

/-- The words and marks of the script meet any condition for texts that are not empty. -/
theorem meets_fixed {s : String} (h : s ≠ "") : Meets texts marks outer (.text s) :=
  .text (hwords s h)

/-- An operand is marked once more where it is in parentheses. -/
theorem meets_operand {e : Expr} (wrap : Bool) (hplaced : e.Placed marks outer)
    (h : Meets texts marks outer (e.fragment known))
    (hinside : Meets texts marks (e.region.or outer) (e.fragment known)) :
    Meets texts marks outer (operandFragment e wrap (e.fragment known)) := by
  unfold operandFragment
  split
  · exact h
  · refine .marked hplaced.own (List.cons_ne_nil _ _) ?_
    simp only [List.forall_mem_cons]
    exact ⟨meets_fixed hwords (by decide), hinside, meets_fixed hwords (by decide),
      List.forall_mem_nil _⟩

/-- By induction on where the marks of an expression go, which is the shape of its fragment. -/
theorem Expr.Placed.meets_fragment {e : Expr} (h : e.Placed marks outer)
    (hknown : ∀ name, known name = true → texts name) :
    Meets texts marks outer (e.fragment known) := by
  induction h with
  | @literal outer region value own =>
    rw [Expr.fragment]
    refine meets_word own (hwords _ fun hempty => numeral_ne_nil value ?_)
    simpa using congrArg String.toList hempty
  | @binary outer region operatorRegion operator left right own token hleft hleftInside hright
      hrightInside ihleft ihleftInside ihright ihrightInside =>
    have hspace {outer : Option Region} : Meets texts marks outer (.text " ") :=
      meets_fixed hwords (by decide)
    rw [Expr.fragment]
    refine .marked own (List.cons_ne_nil _ _) ?_
    simp only [List.forall_mem_cons]
    exact ⟨meets_operand hwords _ hleft ihleft ihleftInside, hspace,
      meets_word token (hwords _ (by cases operator <;> decide)), hspace,
      meets_operand hwords _ hright ihright ihrightInside, List.forall_mem_nil _⟩
  | @call outer region function arguments own callee stretch each ih =>
    have harguments : ∀ part ∈ arguments.map (·.fragment known),
        Meets texts marks ((Expr.argumentsRegion arguments).or (region.or outer)) part :=
      List.forall_mem_map.mpr ih
    rw [Expr.fragment, fragments_eq_map]
    refine .marked own (List.cons_ne_nil _ _) (List.forall_mem_cons.mpr ⟨?_, ?_⟩)
    · exact meets_word callee (texts_spelling hwords hknown function.name)
    split
    · exact List.forall_mem_nil _
    · refine List.forall_mem_singleton.mpr (.marked stretch (List.cons_ne_nil _ _) ?_)
      rw [List.cons_append, List.forall_mem_cons, List.forall_mem_append,
        List.forall_mem_singleton]
      exact ⟨meets_fixed hwords (by decide),
        forall_mem_separated (meets_fixed hwords (by decide)) harguments,
        meets_fixed hwords (by decide)⟩

/-- A definition without parameters is written as a constant, with one as a function. Both mark the
name and the expression. -/
theorem Statement.Placed.meets_fragment {s : Statement} (h : s.Placed marks outer)
    (hknown : ∀ name, known name = true → texts name)
    (hspelled : ∀ d, s = .definition d → d.Spelled texts) :
    Meets texts marks outer (s.fragment known) := by
  cases h with
  | @definition d own keyword name parameters body =>
    obtain ⟨hname, hparameters⟩ := hspelled d rfl
    have hnamed : Meets texts marks (d.region.or outer) d.nameFragment := meets_word name hname
    rw [Statement.fragment]
    split
    · refine .marked own (List.cons_ne_nil _ _) ?_
      simp only [List.forall_mem_cons]
      exact ⟨meets_word keyword (hwords _ (by decide)), meets_fixed hwords (by decide), hnamed,
        meets_fixed hwords (by decide), meets_fixed hwords (by decide),
        meets_fixed hwords (by decide), body.meets_fragment hwords hknown,
        meets_fixed hwords (by decide), List.forall_mem_nil _⟩
    · -- inside a function the parameters are spelled as they are declared, and known
      have heach : ∀ part ∈ d.parameters.map Parameter.fragment,
          Meets texts marks (d.region.or outer) part :=
        List.forall_mem_map.mpr fun p hp => meets_word (parameters p hp) (hparameters p hp)
      refine .marked own (List.cons_ne_nil _ _) ?_
      simp only [List.forall_mem_append, List.forall_mem_cons]
      exact ⟨⟨⟨meets_fixed hwords (by decide), hnamed, meets_fixed hwords (by decide),
        List.forall_mem_nil _⟩,
          forall_mem_separated (meets_fixed hwords (by decide)) heach⟩,
        meets_fixed hwords (by decide),
        body.meets_fragment hwords (Definition.Spelled.knows ⟨hname, hparameters⟩ hknown),
        meets_fixed hwords (by decide), List.forall_mem_nil _⟩
  | evaluation own expression =>
    refine .marked own (List.cons_ne_nil _ _) ?_
    simp only [List.forall_mem_cons]
    exact ⟨meets_fixed hwords (by decide), meets_fixed hwords (by decide),
      expression.meets_fragment hwords hknown, meets_fixed hwords (by decide),
      List.forall_mem_nil _⟩

/-- Each statement adds a line and its own fragment, and the name that it defines to those known
from then on. -/
theorem meets_statementFragments {earlier : List String} {ss : List Statement}
    (hearlier : ∀ name ∈ earlier, texts name) (hplaced : ∀ s ∈ ss, s.Placed marks outer)
    (hspelled : ∀ d, Statement.definition d ∈ ss → d.Spelled texts) :
    ∀ part ∈ statementFragments earlier ss, Meets texts marks outer part := by
  induction ss generalizing earlier with
  | nil => exact List.forall_mem_nil _
  | cons s ss ih =>
    obtain ⟨hs, hss⟩ := List.forall_mem_cons.mp hplaced
    have hline : Meets texts marks outer (s.fragment fun name => name ∈ earlier) :=
      hs.meets_fragment hwords (fun name hname => hearlier name (of_decide_eq_true hname))
        fun d hd => hspelled d (hd ▸ List.mem_cons_self)
    -- later statements may also use the name that this one defines
    have hlater : ∀ name ∈ earlier ++ s.defines, texts name := by
      refine List.forall_mem_append.mpr ⟨hearlier, fun name hname => ?_⟩
      cases s with
      | definition d =>
        rw [List.mem_singleton.mp hname]
        exact (hspelled d List.mem_cons_self).1
      | evaluation e => exact absurd hname List.not_mem_nil
    rw [statementFragments]
    simp only [List.forall_mem_cons]
    exact ⟨meets_fixed hwords (by decide), meets_fixed hwords (by decide), hline,
      ih hlater hss fun d hd => hspelled d (List.mem_cons_of_mem _ hd)⟩

/-- **What lowering writes meets a condition for texts and one for marks**, if the names and the
regions of the module do. -/
theorem Module.meets_fragments {m : Module} (hplaced : m.Placed marks)
    (hspelled : ∀ d, Statement.definition d ∈ m.statements → d.Spelled texts) :
    ∀ part ∈ m.fragments, Meets texts marks none part := by
  have hstatements : ∀ part ∈ statementFragments [] m.statements,
      Meets texts marks (m.region.or none) part :=
    meets_statementFragments hwords (List.forall_mem_nil _) hplaced.statements hspelled
  have hbody : Meets texts marks none m.body := by
    refine .marked hplaced.own (List.cons_ne_nil _ _) ?_
    simp only [List.forall_mem_append, List.forall_mem_cons]
    exact ⟨⟨⟨meets_fixed hwords (by decide), meets_fixed hwords (by decide),
        meets_fixed hwords (by decide), List.forall_mem_nil _⟩, hstatements⟩,
      meets_fixed hwords (by decide), meets_fixed hwords (by decide),
      meets_fixed hwords (by decide), meets_fixed hwords (by decide),
      meets_fixed hwords (by decide), List.forall_mem_nil _⟩
  simp only [Module.fragments, List.forall_mem_cons]
  exact ⟨meets_fixed hwords (by decide), meets_fixed hwords (by decide), hbody,
    meets_fixed hwords (by decide), List.forall_mem_nil _⟩

end Walk

/-! ## Conditions that do not look around

Where a condition for marks says nothing about the marks around, it is enough that it holds of every
region of the module, and of the cover of two if it holds of both. -/

theorem Expr.toList_region_subset (e : Expr) : e.region.toList ⊆ e.regions := by
  intro r hr
  cases e with
  | literal value region => exact hr
  | binary operator operatorRegion left right region =>
    exact List.mem_append_left _ (List.mem_append_left _ (List.mem_append_left _ hr))
  | call function arguments region =>
    exact List.mem_append_left _ (List.mem_append_left _ hr)

/-- The stretch of the arguments begins with the first and ends with the last. -/
theorem exists_of_argumentsRegion {arguments : List Expr} {r : Region}
    (h : Expr.argumentsRegion arguments = some r) :
    ∃ a b first last, arguments.head? = some a ∧ arguments.getLast? = some b
      ∧ a.region = some first ∧ b.region = some last ∧ r = first.cover last := by
  rw [Expr.argumentsRegion] at h
  simp only [Option.bind_eq_bind, Option.bind_eq_some_iff, Option.pure_def, Option.some.injEq] at h
  obtain ⟨a, ha, first, hfirst, b, hb, last, hlast, rfl⟩ := h
  exact ⟨a, b, first, last, ha, hb, hfirst, hlast, rfl⟩

section Regions

variable {P : Region → Prop} (hcover : ∀ r s, P r → P s → P (r.cover s))
include hcover

theorem argumentsRegion_of_regions {arguments : List Expr}
    (hregions : ∀ e ∈ arguments, ∀ r ∈ e.regions, P r) :
    ∀ r ∈ Expr.argumentsRegion arguments, P r := by
  intro r hr
  obtain ⟨a, b, first, last, ha, hb, hfirst, hlast, rfl⟩ := exists_of_argumentsRegion hr
  have hown (e : Expr) (he : e ∈ arguments) (r : Region) (hr : e.region = some r) : P r :=
    hregions e he r (e.toList_region_subset (Option.mem_toList.mpr hr))
  exact hcover first last (hown a (List.mem_of_head? ha) first hfirst)
    (hown b (List.mem_of_getLast? hb) last hlast)

/-- A condition that does not look around is met wherever a region is put. -/
theorem Expr.placed_of_regions (e : Expr) (hregions : ∀ r ∈ e.regions, P r)
    (outer : Option Region) : e.Placed (fun _ => P) outer := by
  cases e with
  | literal value region => exact .literal fun r hr => hregions r (Option.mem_toList.mpr hr)
  | binary operator operatorRegion left right region =>
    simp only [Expr.regions, List.forall_mem_append, Option.mem_toList] at hregions
    obtain ⟨⟨⟨own, token⟩, hleft⟩, hright⟩ := hregions
    exact .binary own token (placed_of_regions left hleft _) (placed_of_regions left hleft _)
      (placed_of_regions right hright _) (placed_of_regions right hright _)
  | call function arguments region =>
    simp only [Expr.regions, Expr.allRegions_eq_flatMap, List.forall_mem_append, List.mem_flatMap,
      forall_exists_index, and_imp, Option.mem_toList] at hregions
    obtain ⟨⟨own, callee⟩, hlist⟩ := hregions
    have heach (e : Expr) (he : e ∈ arguments) : ∀ r ∈ e.regions, P r := fun r => hlist r e he
    exact .call own callee (argumentsRegion_of_regions hcover heach)
      fun e he => placed_of_regions e (heach e he) _
termination_by sizeOf e

theorem Statement.placed_of_regions (s : Statement) (hregions : ∀ r ∈ s.regions, P r)
    (outer : Option Region) : s.Placed (fun _ => P) outer := by
  cases s with
  | definition d =>
    simp only [Statement.regions, Definition.regions, List.forall_mem_append, List.mem_flatMap,
      forall_exists_index, and_imp, Option.mem_toList] at hregions
    obtain ⟨⟨⟨own, name⟩, parameters⟩, body⟩ := hregions
    exact .definition own own name (fun p hp r => parameters r p hp)
      (d.body.placed_of_regions hcover body _)
  | evaluation e =>
    simp only [Statement.regions, List.forall_mem_append, Option.mem_toList] at hregions
    exact .evaluation hregions.1 (e.expression.placed_of_regions hcover hregions.2 _)

/-- **What holds of all regions of a module, and of covers, holds of all marks.** -/
theorem Module.placed_of_regions {m : Module} (hregions : ∀ r ∈ m.regions, P r) :
    m.Placed fun _ => P := by
  simp only [Module.regions, List.forall_mem_append, List.mem_flatMap, forall_exists_index,
    and_imp, Option.mem_toList] at hregions
  exact ⟨hregions.1, fun s hs => s.placed_of_regions hcover (fun r => hregions.2 r s hs) _⟩

end Regions

end ArithScript
