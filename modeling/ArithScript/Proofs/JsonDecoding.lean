import ArithScript.Json.Decoder
import ArithScript.Proofs.JsonText

/-!
# Decoding printed values

A decoder can read text or convert a value in memory. Here the two meet: `Decodes` says that a
decoder makes `x` of `v`, both from the value and from its printed text, and there is one lemma for
each way to put a decoder together.

Records need one notion more. The state of a reader in the middle of a record is a tuple of slots,
nested as the fields are put together, and a member changes one of them. `Feeds` says that members
lead from one state to another, each through a field that was free; it holds of a part of the state
exactly where it holds of the whole (`Feeds.left`, `Feeds.right`), and that is what makes the forms
of records compositional: `Accepts.seq` is the rule for `<*>`.
-/

set_option autoImplicit false

namespace ArithScript.Json

variable {α β : Type}

/-- A decoder makes `x` of a value, in memory and in print alike. -/
structure Decoder.Decodes (item : Decoder α) (v : Value) (x : α) : Prop where
  readable : v.Readable
  convert : item.convert v = .ok x
  read : ∀ depth, v.nesting ≤ depth → ∀ rest, Delimited rest →
    item.read depth (v.print ++ rest) = .ok (x, rest)

/-- **What is decoded from a value is read from its text**, if the text holds nothing else. -/
theorem Decoder.Decodes.readText {item : Decoder α} {v : Value} {x : α} (h : item.Decodes v x) :
    readText (item.read v.print.length) v.print = .ok x := by
  have hread := h.read _ (nesting_le_length_print v) [] delimited_nil
  rw [List.append_nil] at hread
  simp only [Json.readText, hread, bind, Except.bind]
  rfl

/-- A value that is printed has no blanks in front of it. -/
theorem atNext_opening {c : Char} {cs : List Char} (h : opensValue c = true)
    (read : Char → List Char → Except Failure α) : atNext (c :: cs) read = read c cs := by
  rw [atNext, skipSpace_cons (not_isSpace_of_opensValue h)]

namespace Decoder

/-! ## Scalars

Scalars are printed by their own rules and read back by the scanners. What a decoder adds is a check
of the kind of value, and of the width for natural numbers. -/

theorem decodes_string (s : String) : string.Decodes (.string s) s where
  readable := trivial
  convert := rfl
  read depth _ rest _ := by
    rw [Value.print, printString_append, string]
    dsimp only
    rw [atNext_opening (by decide)]
    exact string_printString s rest

/-- Every width has fewer values than the reader has exact integers for. -/
theorem max_le_maxSignificand (width : Width) : width.max ≤ maxSignificand := by
  cases width <;> decide

theorem print_integer (n : Nat) : (Value.integer n).print = Nat.toDigits 10 n := by
  rw [Value.print, integerNumeral, if_neg (by omega), Int.natAbs_natCast]

theorem checkNatural_ok {width : Width} {n : Nat} (h : n ≤ width.max) :
    checkNatural width (.integer n) = .ok n := by
  rw [checkNatural, if_pos ⟨Int.natCast_nonneg n, Int.ofNat_le.mpr h⟩]
  rfl

theorem decodes_natural {width : Width} {n : Nat} (h : n ≤ width.max) :
    (natural width).Decodes (.integer n) n where
  readable :=
    ⟨Int.natCast_nonneg n, Int.ofNat_le.mpr (Nat.le_trans h (max_le_maxSignificand width))⟩
  convert := checkNatural_ok h
  read depth _ rest hrest := by
    have hnumber := number_toDigits (Nat.le_trans h (max_le_maxSignificand width)) hrest
    rw [print_integer]
    cases hdigits : Nat.toDigits 10 n with
    | nil => exact absurd hdigits Nat.toDigits_ne_nil
    | cons c cs =>
      have hc : c.isDigit = true := isDigit_of_mem_toDigits (hdigits ▸ List.mem_cons_self)
      have hsome : (digit? c).isSome = true := by rw [digit?_of_isDigit hc]; rfl
      have hminus : c ≠ '-' := by
        rintro rfl
        cases hc
      rw [hdigits, List.cons_append] at hnumber
      rw [List.cons_append]
      refine (atNext_opening (by simp [opensValue, hsome]) _).trans ?_
      simp only [hsome, hminus, hnumber, checkNatural_ok h, Bool.or_true, if_true, if_false, bind,
        Except.bind]

/-- What is read into memory and converted there is read back if the value is. -/
theorem decodes_buffered {convert : Value → Except Cause α} {v : Value} {x : α}
    (hreadable : v.Readable) (hconvert : convert v = .ok x) : (buffered convert).Decodes v x where
  readable := hreadable
  convert := hconvert
  read depth hdepth rest hrest := by
    simp only [buffered, value_print v hreadable depth hdepth rest hrest, bind, Except.bind,
      hconvert]

/-! ## Options and lists

An option is printed as `null` or as what is in it, a list as an array. To read a list back is a
loop, and what the loop does on printed text is known once its step is (`Steps`). -/

theorem decodes_nullable_none (item : Decoder α) : item.nullable.Decodes .null none where
  readable := trivial
  convert := rfl
  read _ _ _ _ := rfl

/-- `null` is recognised by its first letter, and no other value that is printed has it. -/
theorem Decodes.nullable {item : Decoder α} {v : Value} {x : α} (h : item.Decodes v x)
    (hnull : v.print.head? ≠ some 'n') : item.nullable.Decodes v (some x) where
  readable := h.readable
  convert := by
    have hmap : (item.convert v).map some = .ok (some x) := by rw [h.convert]; rfl
    cases v with
    | null => exact absurd rfl hnull
    | _ => exact hmap
  read depth hdepth rest hrest := by
    have hread := h.read depth hdepth rest hrest
    obtain ⟨c, cs, heq, hopens⟩ := opening_print h.readable
    have hc : c ≠ 'n' := by
      rintro rfl
      exact hnull (by rw [heq]; rfl)
    rw [heq, List.cons_append] at hread ⊢
    rw [Decoder.nullable]
    dsimp only
    rw [skipSpace_cons (not_isSpace_of_opensValue hopens)]
    split
    · next heq => cases heq; exact absurd rfl hc
    · rw [hread]
      rfl

theorem list_array {item : Decoder α} (depth : Nat) (cs : List Char) :
    item.list.read (depth + 1) ('[' :: cs) = do
      let (items, rest) ← elements (push (item.read depth)) cs true [] cs
      return (items.reverse, rest) := by
  rw [list]
  dsimp only
  rw [atNext_opening (by decide)]
  rfl

theorem mapM_convert {item : Decoder α} {f : α → Value} {xs : List α}
    (h : ∀ x ∈ xs, item.Decodes (f x) x) : (xs.map f).mapM item.convert = .ok xs := by
  induction xs with
  | nil => rfl
  | cons x xs ih =>
    rw [List.map_cons, List.mapM_cons, (h x List.mem_cons_self).convert,
      ih fun y hy => h y (List.mem_cons_of_mem _ hy)]
    rfl

/-- In a text each element is read with the brackets that are left inside the list. -/
theorem steps_list {item : Decoder α} {f : α → Value} {xs : List α}
    (h : ∀ x ∈ xs, item.Decodes (f x) x) {depth : Nat} (hdepth : itemsNesting (xs.map f) ≤ depth)
    (done : List α) :
    Steps (push (item.read depth)) (printItems (xs.map f)) done (xs.reverse ++ done) := by
  induction xs generalizing done with
  | nil => exact .nil done
  | cons x xs ih =>
    rw [List.map_cons, itemsNesting, Nat.max_le] at hdepth
    rw [List.map_cons, printItems, List.reverse_cons, List.append_assoc, List.singleton_append]
    have hx := h x List.mem_cons_self
    exact .cons (opening_print hx.readable)
      (fun rest hrest => push_ok (hx.read depth hdepth.1 rest hrest) done)
      (ih (fun y hy => h y (List.mem_cons_of_mem _ hy)) hdepth.2 (x :: done))

/-- A value that is decoded can be read, so a list of them can. -/
theorem itemsReadable_map {item : Decoder α} {f : α → Value} {xs : List α}
    (h : ∀ x ∈ xs, item.Decodes (f x) x) : ItemsReadable (xs.map f) := by
  induction xs with
  | nil => trivial
  | cons x xs ih =>
    exact ⟨(h x List.mem_cons_self).readable, ih fun y hy => h y (List.mem_cons_of_mem _ hy)⟩

/-- A list is decoded if its items are. -/
theorem decodes_list {item : Decoder α} {f : α → Value} {xs : List α}
    (h : ∀ x ∈ xs, item.Decodes (f x) x) : item.list.Decodes (.array (xs.map f)) xs where
  readable := itemsReadable_map h
  convert := mapM_convert h
  read depth hdepth rest _ := by
    rw [Value.nesting] at hdepth
    obtain ⟨depth, rfl⟩ : ∃ d, depth = d + 1 := ⟨depth - 1, by omega⟩
    have hloop := elements_of_steps (steps_list h (show _ ≤ depth by omega) []) rest rfl
    rw [Value.print, bracketed_append, list_array]
    simp only [bind, Except.bind, hloop, List.append_nil, List.reverse_reverse]
    rfl

end Decoder

/-! ## Records -/

section Fields

variable {σ τ : Type}

/-- A field takes a value, in memory and in print alike, and leads from one state to another. -/
structure Field.Takes (field : Field σ) (v : Value) (s₁ s₂ : σ) : Prop where
  readable : v.Readable
  convert : field.convert v s₁ = .ok s₂
  read : ∀ depth, v.nesting ≤ depth → ∀ rest, Delimited rest →
    field.read depth s₁ (v.print ++ rest) = .ok (s₂, rest)

/-- Members lead from one state to another, each through a field of its name that was free. -/
inductive Feeds (fields : List (Field σ)) : List (String × Value) → σ → σ → Prop where
  | nil (s : σ) : Feeds fields [] s s
  | cons {name : String} {v : Value} {found : List (String × Value)} {field : Field σ}
      {s₁ s₂ s₃ : σ} (hfield : fields.find? (·.name = name) = some field)
      (hfree : field.filled s₁ = false) (htakes : field.Takes v s₁ s₂)
      (hfound : Feeds fields found s₂ s₃) :
      Feeds fields ((name, v) :: found) s₁ s₃

theorem Feeds.append {fields : List (Field σ)} {first second : List (String × Value)}
    {s₁ s₂ s₃ : σ} (hfirst : Feeds fields first s₁ s₂) (hsecond : Feeds fields second s₂ s₃) :
    Feeds fields (first ++ second) s₁ s₃ := by
  induction hfirst with
  | nil => exact hsecond
  | cons hfield hfree htakes _ ih => exact .cons hfield hfree htakes (ih hsecond)

/-- What a field does to its part of the state it does to the whole. -/
theorem Field.Takes.within {field : Field σ} {v : Value} (get : τ → σ) (set : τ → σ → τ) (t : τ)
    {s : σ} (h : field.Takes v (get t) s) : (field.within get set).Takes v t (set t s) where
  readable := h.readable
  convert := by
    show (field.convert v (get t)).map (set t) = _
    rw [h.convert]
    rfl
  read depth hdepth rest hrest := by
    show (field.read depth (get t) _).map _ = _
    rw [h.read depth hdepth rest hrest]
    rfl

/-- Looking a field up by its name does not look into it. -/
theorem find?_within {get : τ → σ} {set : τ → σ → τ} {fields : List (Field σ)} {name : String} :
    (fields.map (Field.within get set)).find? (·.name = name)
      = (fields.find? (·.name = name)).map (Field.within get set) := by
  rw [List.find?_map]
  rfl

theorem map_name_within (get : τ → σ) (set : τ → σ → τ) (fields : List (Field σ)) :
    (fields.map (Field.within get set)).map Field.name = fields.map Field.name := by
  rw [List.map_map]
  rfl

variable {fields : List (Field σ)} {found : List (String × Value)} {s₁ s₂ : σ}

/-- Members that feed the first part of a state feed the whole. -/
theorem Feeds.left (h : Feeds fields found s₁ s₂) (others : List (Field (σ × τ))) (t : τ) :
    Feeds (fields.map (Field.within Prod.fst fun slots part => (part, slots.2)) ++ others) found
      (s₁, t) (s₂, t) := by
  induction h with
  | nil s => exact .nil _
  | @cons _ _ _ _ s₁ _ _ hfield hfree htakes _ ih =>
    refine .cons ?_ hfree (.within Prod.fst (fun slots part => (part, slots.2)) (s₁, t) htakes) ih
    rw [List.find?_append, find?_within, hfield]
    rfl

/-- Members that feed the second part feed the whole, unless the first part has fields of their
names. -/
theorem Feeds.right (h : Feeds fields found s₁ s₂) {others : List (Field (τ × σ))} {t : τ}
    (hothers : ∀ m ∈ found, others.find? (·.name = m.1) = none) :
    Feeds (others ++ fields.map (Field.within Prod.snd fun slots part => (slots.1, part))) found
      (t, s₁) (t, s₂) := by
  induction h with
  | nil s => exact .nil _
  | @cons _ _ _ _ s₁ _ _ hfield hfree htakes _ ih =>
    obtain ⟨hfirst, hothers⟩ := List.forall_mem_cons.mp hothers
    refine .cons ?_ hfree (.within Prod.snd (fun slots part => (slots.1, part)) (t, s₁) htakes)
      (ih hothers)
    rw [List.find?_append, hfirst, find?_within, hfield]
    rfl

theorem Feeds.readable (h : Feeds fields found s₁ s₂) : MembersReadable found := by
  induction h with
  | nil => trivial
  | cons _ _ htakes _ ih => exact ⟨htakes.readable, ih⟩

/-- Members that lead from one state to another do so when they are converted. -/
theorem Feeds.convertMembers (h : Feeds fields found s₁ s₂) :
    Shape.convertMembers fields found s₁ = .ok s₂ := by
  induction h with
  | nil => rfl
  | cons hfield hfree htakes _ ih =>
    simp only [Shape.convertMembers, hfield, hfree, htakes.convert, bind, Except.bind]
    exact ih

/-- They do so when they are read, with the brackets that are left inside the record. -/
theorem Feeds.memberSteps (h : Feeds fields found s₁ s₂) {depth : Nat}
    (hdepth : membersNesting found ≤ depth) :
    MemberSteps (Shape.readMember depth fields) found s₁ s₂ := by
  induction h with
  | nil s => exact .nil s
  | cons hfield hfree htakes _ ih =>
    rw [membersNesting, Nat.max_le] at hdepth
    refine .cons (fun rest hrest => ?_) (ih hdepth.2)
    simp only [Shape.readMember, hfield, hfree, List.cons_append, colon_cons, bind, Except.bind]
    exact htakes.read depth hdepth.1 rest hrest

end Fields

namespace Shape

/-- The names of the fields. -/
def names (shape : Shape α) : List String := shape.fields.map Field.name

@[simp] theorem names_required (name : String) (item : Decoder α) :
    (required name item).names = [name] := rfl

@[simp] theorem names_optional (name : String) (item : Decoder α) (fallback : α) :
    (optional name item fallback).names = [name] := rfl

@[simp] theorem names_nullable (name : String) (item : Decoder α) :
    (nullable name item).names = [name] := rfl

@[simp] theorem names_map (f : α → β) (shape : Shape α) : (f <$> shape).names = shape.names := rfl

@[simp] theorem names_seq (shape : Shape (α → β)) (next : Shape α) :
    (shape <*> next).names = shape.names ++ next.names := by
  refine List.map_append.trans (congr (congrArg HAppend.hAppend ?_) ?_)
  · exact map_name_within _ _ shape.fields
  · exact map_name_within _ _ next.fields

/-- A record form makes `x` of members that stand in the order of its fields. -/
def Accepts (shape : Shape α) (found : List (String × Value)) (x : α) : Prop :=
  ∃ slots, Feeds shape.fields found shape.blank slots ∧ shape.build slots = .ok x

/-- A record of one field takes one member. -/
theorem accepts_single {item : Decoder α} {v : Value} {x : α} (h : item.Decodes v x)
    (name : String) (absent : Except String α) :
    (single name item absent).Accepts [(name, v)] x := by
  have htakes : ∀ field ∈ (single name item absent).fields, field.Takes v none (some x) := by
    intro field hfield
    obtain rfl := List.mem_singleton.mp hfield
    refine ⟨h.readable, ?_, fun depth hdepth rest hrest => ?_⟩
    · show (item.convert v).map some = _
      rw [h.convert]
      rfl
    · show (item.read depth _).map _ = _
      rw [h.read depth hdepth rest hrest]
      rfl
  have hfind : (single name item absent).fields.find? (·.name = name)
      = some ((single name item absent).fields.head (List.cons_ne_nil _ _)) := by
    simp [single]
  exact ⟨some x, .cons hfind rfl (htakes _ (List.head_mem _)) (.nil _), rfl⟩

theorem accepts_required {item : Decoder α} {v : Value} {x : α} (h : item.Decodes v x)
    (name : String) : (required name item).Accepts [(name, v)] x :=
  accepts_single h name _

theorem accepts_optional {item : Decoder α} {v : Value} {x : α} (h : item.Decodes v x)
    (name : String) (fallback : α) : (optional name item fallback).Accepts [(name, v)] x :=
  accepts_single h name _

/-- A field that may be missing is made of nothing. -/
theorem accepts_absent (item : Decoder α) (name : String) (fallback : α) :
    (optional name item fallback).Accepts [] fallback :=
  ⟨none, .nil _, rfl⟩

theorem Accepts.map {shape : Shape α} {found : List (String × Value)} {x : α}
    (h : shape.Accepts found x) (f : α → β) : (f <$> shape).Accepts found (f x) := by
  obtain ⟨slots, hfeeds, hbuild⟩ := h
  refine ⟨slots, hfeeds, ?_⟩
  show (shape.build slots).map f = _
  rw [hbuild]
  rfl

/-- **Forms are put together as their records are**, as long as no field of the second has the name
of one of the first. -/
theorem Accepts.seq {shape : Shape (α → β)} {next : Shape α} {first second : List (String × Value)}
    {f : α → β} {x : α} (hfirst : shape.Accepts first f) (hsecond : next.Accepts second x)
    (hnames : ∀ m ∈ second, m.1 ∉ shape.names) :
    (shape <*> next).Accepts (first ++ second) (f x) := by
  obtain ⟨slots₁, hfeeds₁, hbuild₁⟩ := hfirst
  obtain ⟨slots₂, hfeeds₂, hbuild₂⟩ := hsecond
  refine ⟨(slots₁, slots₂), (hfeeds₁.left _ _).append (hfeeds₂.right ?_), ?_⟩
  · intro m hm
    rw [find?_within, Option.map_eq_none_iff, List.find?_eq_none]
    intro field hfield heq
    exact hnames m hm (List.mem_map.mpr ⟨field, hfield, of_decide_eq_true heq⟩)
  · show (do let f ← shape.build slots₁; let x ← next.build slots₂; return f x) = _
    rw [hbuild₁, hbuild₂]
    rfl

theorem Accepts.readable {shape : Shape α} {found : List (String × Value)} {x : α}
    (h : shape.Accepts found x) : MembersReadable found :=
  h.elim fun _ hslots => hslots.1.readable

/-- A record is decoded if its form makes it of its members. -/
theorem Accepts.decodes {shape : Shape α} {found : List (String × Value)} {x : α}
    (h : shape.Accepts found x) (name : String) :
    (shape.decoder name).Decodes (.object found) x where
  readable := h.readable
  convert := by
    obtain ⟨slots, hfeeds, hbuild⟩ := h
    show shape.convert name (.object found) = _
    simp only [Shape.convert, hfeeds.convertMembers, bind, Except.bind, hbuild]
    rfl
  read depth hdepth rest _ := by
    obtain ⟨slots, hfeeds, hbuild⟩ := h
    rw [Value.nesting] at hdepth
    obtain ⟨depth, rfl⟩ : ∃ d, depth = d + 1 := ⟨depth - 1, by omega⟩
    have hloop := members_of_steps (hfeeds.memberSteps (show _ ≤ depth by omega)) rest rfl
    show shape.read name (depth + 1) ((Value.object found).print ++ rest) = .ok (x, rest)
    rw [Value.print, bracketed_append, Shape.read, atNext_opening (by decide),
      if_neg (by decide), if_pos rfl]
    simp only [bind, Except.bind, hloop, hbuild]
    rfl

end Shape

/-! ## Variants

A variant is printed as the record of its case, with the tag as one more member. So the tag has to
be told from the members of the record: none of these has its name. -/

namespace Variants

variable {variants : Variants α} {tag : String} {convert : Value → Except Cause α}

/-- A tag is printed as a string and read as one. -/
theorem readTag_printString (h : variants.ofTag tag = .ok convert) (rest : List Char) :
    variants.readTag (printString tag ++ rest) = .ok (convert, rest) := by
  rw [printString_append, readTag, atNext_opening (by decide), if_pos rfl, string_printString]
  simp only [bind, Except.bind, h]
  rfl

/-- Members that are not the tag are kept, in memory and in print alike. -/
theorem splitTag_free {found : List (String × Value)} (hfree : ∀ m ∈ found, m.1 ≠ tagName)
    (state : Gathered α) :
    variants.splitTag found state = .ok (state.1, found.reverse ++ state.2) := by
  induction found generalizing state with
  | nil => rfl
  | cons m found ih =>
    obtain ⟨hname, hfree⟩ := List.forall_mem_cons.mp hfree
    rw [splitTag, if_neg hname, ih hfree, List.reverse_cons, List.append_assoc,
      List.singleton_append]

/-- Members with other names than that of the tag are gathered as they are, in reverse. -/
theorem memberSteps_free {found : List (String × Value)} (hfree : ∀ m ∈ found, m.1 ≠ tagName)
    (hreadable : MembersReadable found) {depth : Nat} (hdepth : membersNesting found ≤ depth)
    (state : Gathered α) :
    MemberSteps (variants.gatherMember depth) found state (state.1, found.reverse ++ state.2) := by
  induction found generalizing state with
  | nil => exact .nil _
  | cons m found ih =>
    obtain ⟨name, v⟩ := m
    obtain ⟨hname, hfree⟩ := List.forall_mem_cons.mp hfree
    rw [membersNesting, Nat.max_le] at hdepth
    rw [List.reverse_cons, List.append_assoc, List.singleton_append]
    refine .cons (fun rest hrest => ?_)
      (ih hfree hreadable.2 hdepth.2 (state.1, (name, v) :: state.2))
    have hvalue := value_print v hreadable.1 depth hdepth.1 rest hrest
    rw [gatherMember, if_neg hname, List.cons_append, colon_cons]
    simp only [bind, Except.bind, hvalue]
    rfl

/-- **A variant is decoded if its content is converted**, with the tag in front of its members. -/
theorem decodes {found : List (String × Value)} {x : α} (htag : variants.ofTag tag = .ok convert)
    (hfree : ∀ m ∈ found, m.1 ≠ tagName) (hreadable : MembersReadable found)
    (hconvert : convert (.object found) = .ok x) :
    variants.decoder.Decodes (.object ((tagName, .string tag) :: found)) x where
  readable := ⟨trivial, hreadable⟩
  convert := by
    -- the tag comes first in the written form, and no later member has its name
    have hsplit : variants.splitTag ((tagName, .string tag) :: found) (none, [])
        = .ok (some convert, found.reverse) := by
      have hrest : variants.splitTag found (some convert, []) = _ := splitTag_free hfree _
      rw [splitTag, if_pos rfl]
      simp only [Option.isSome_none, Bool.false_eq_true, if_false, convertTag, htag, bind,
        Except.bind, hrest, List.append_nil]
    show variants.convert (.object ((tagName, .string tag) :: found)) = .ok x
    simp only [Variants.convert, hsplit, bind, Except.bind, List.reverse_reverse, hconvert]
  read depth hdepth rest _ := by
    rw [Value.nesting, membersNesting] at hdepth
    obtain ⟨depth, rfl⟩ : ∃ d, depth = d + 1 := ⟨depth - 1, by omega⟩
    have hsteps : MemberSteps (variants.gatherMember depth) ((tagName, .string tag) :: found)
        (none, []) (some convert, found.reverse ++ []) := by
      refine .cons (fun rest _ => ?_)
        (memberSteps_free hfree hreadable (show _ ≤ depth by omega) (some convert, []))
      rw [gatherMember, if_pos rfl, List.cons_append, colon_cons, Value.print]
      simp only [Option.isSome_none, Bool.false_eq_true, if_false, bind, Except.bind,
        readTag_printString htag]
      rfl
    have hloop := members_of_steps hsteps rest rfl
    show variants.read (depth + 1)
      ((Value.object ((tagName, .string tag) :: found)).print ++ rest) = .ok (x, rest)
    rw [Value.print, bracketed_append, Variants.read, gather, atNext_opening (by decide),
      if_neg (by decide), if_pos rfl]
    simp only [bind, Except.bind, hloop, List.append_nil, List.reverse_reverse, pure, Except.pure,
      hconvert]

end Variants

end ArithScript.Json
