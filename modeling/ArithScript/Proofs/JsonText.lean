import ArithScript.Proofs.JsonScan

/-!
# Reading printed values

A value is read back from its text by the reader, in front of any delimiter and within any limit
that its nesting keeps (`value_print`). The reader of arrays and the reader of objects are loops
with a step of the caller's choice, and so are the lemmas about them: `elements_of_steps` and
`members_of_steps` say what a loop does on printed text, given what its step does on each part of
it. They serve the reader of values here, and the readers of lists, records and variants elsewhere.
-/

set_option autoImplicit false

namespace ArithScript.Json

/-- The characters that a value starts with. -/
def opensValue (c : Char) : Bool :=
  c = '[' || c = '\x7b' || c = '"' || c = '-' || c = 'n' || c = 't' || c = 'f' || (digit? c).isSome

/-- A text that starts like a value. -/
def Opening (cs : List Char) : Prop := ∃ c rest, cs = c :: rest ∧ opensValue c = true

theorem not_isSpace_of_opensValue {c : Char} (h : opensValue c = true) : isSpace c = false := by
  unfold isSpace
  simp only [Bool.or_eq_false_iff, decide_eq_false_iff_not]
  refine ⟨⟨⟨?_, ?_⟩, ?_⟩, ?_⟩ <;> rintro rfl <;> revert h <;> decide

theorem skipSpace_cons {c : Char} (h : isSpace c = false) (cs : List Char) :
    skipSpace (c :: cs) = c :: cs := by
  simp [skipSpace, h]

theorem Opening.append {cs : List Char} (h : Opening cs) (rest : List Char) :
    Opening (cs ++ rest) := by
  obtain ⟨c, tail, rfl, hopens⟩ := h
  exact ⟨c, tail ++ rest, rfl, hopens⟩

theorem Opening.skipSpace {cs : List Char} (h : Opening cs) : skipSpace cs = cs := by
  obtain ⟨c, tail, rfl, hopens⟩ := h
  exact skipSpace_cons (not_isSpace_of_opensValue hopens) tail

/-! ## Loops

Printed arrays and objects have no blanks and no trailing commas, so a round of a loop is either an
item with a comma in front of it, but for the first, or the closing bracket. The bound of the loop
is the text itself, which is longer than the items are many. -/

/-- Texts divided by commas are the first, and the others each after a comma. -/
theorem intercalate_comma (item : List Char) (items : List (List Char)) :
    [','].intercalate (item :: items) = item ++ items.flatMap (',' :: ·) := by
  induction items generalizing item with
  | nil => simp
  | cons next items ih =>
    rw [List.intercalate_cons_cons, ih, List.flatMap_cons, List.append_assoc]
    rfl

/-- Every item has a character of its own, so a text is at least as long as the items in it are
many. -/
theorem length_le_length_intercalate {items : List (List Char)} (h : ∀ item ∈ items, Opening item) :
    items.length ≤ ([','].intercalate items).length := by
  cases items with
  | nil => exact Nat.zero_le _
  | cons item items =>
    obtain ⟨c, rest, rfl, -⟩ := h item List.mem_cons_self
    have hrest : ∀ items : List (List Char),
        items.length ≤ (items.flatMap (',' :: ·)).length := by
      intro items
      induction items with
      | nil => exact Nat.le_refl _
      | cons item items ih =>
        rw [List.flatMap_cons, List.length_append, List.length_cons, List.length_cons]
        omega
    have := hrest items
    rw [intercalate_comma, List.length_append, List.length_cons, List.length_cons]
    omega

theorem bracketed_append (opening closing : Char) (items : List (List Char)) (rest : List Char) :
    bracketed opening closing items ++ rest
      = opening :: ([','].intercalate items ++ closing :: rest) := by
  simp [bracketed]

/-- After an item comes a comma or the closing bracket. -/
theorem delimited_tail {close : Char} (hclose : close = ']' ∨ close = '\x7d')
    (items : List (List Char)) (rest : List Char) :
    Delimited (items.flatMap (',' :: ·) ++ close :: rest) := by
  cases items with
  | nil => exact delimited_cons (.inr hclose) rest
  | cons item items => exact delimited_cons (.inl rfl) _

/-- The number of items of a bracketed text is below the length of what follows the opening
bracket, so the rounds of a loop over it suffice. -/
theorem length_lt_length_bracketed {items : List (List Char)} (h : ∀ item ∈ items, Opening item)
    (close : Char) (rest : List Char) :
    items.length < ([','].intercalate items ++ close :: rest).length := by
  have := length_le_length_intercalate h
  rw [List.length_append, List.length_cons]
  omega

section Elements

variable {σ : Type} {step : σ → List Char → Except Failure (σ × List Char)}

/-- A step takes each of the texts, in front of any delimiter, and leads from one state to
another. -/
inductive Steps (step : σ → List Char → Except Failure (σ × List Char)) :
    List (List Char) → σ → σ → Prop where
  | nil (s : σ) : Steps step [] s s
  | cons {item : List Char} {items : List (List Char)} {s₁ s₂ s₃ : σ} (hopening : Opening item)
      (hitem : ∀ rest, Delimited rest → step s₁ (item ++ rest) = .ok (s₂, rest))
      (hitems : Steps step items s₂ s₃) : Steps step (item :: items) s₁ s₃

theorem Steps.opening {items : List (List Char)} {s₁ s₂ : σ} (h : Steps step items s₁ s₂) :
    ∀ item ∈ items, Opening item := by
  induction h with
  | nil => nofun
  | cons hopening _ _ ih => exact List.forall_mem_cons.mpr ⟨hopening, ih⟩

theorem nextElement_first {cs : List Char} (h : Opening cs) :
    nextElement true cs = .ok (.element cs) := by
  rw [nextElement, h.skipSpace]
  obtain ⟨c, rest, rfl, hopens⟩ := h
  have hclose : c ≠ ']' := by
    rintro rfl
    revert hopens
    decide
  simp [hclose]

theorem nextElement_comma {cs : List Char} (h : Opening cs) :
    nextElement false (',' :: cs) = .ok (.element cs) := by
  rw [nextElement, skipSpace_cons (by decide)]
  simp only [h.skipSpace]
  obtain ⟨c, rest, rfl, hopens⟩ := h
  have hclose : c ≠ ']' := by
    rintro rfl
    revert hopens
    decide
  simp [hclose]

theorem nextElement_close (first : Bool) (rest : List Char) :
    nextElement first (']' :: rest) = .ok (.done rest) := by
  rw [nextElement, skipSpace_cons (by decide)]
  rfl

/-- By induction on the steps: each round reads a comma and an item. -/
theorem elements_after {items : List (List Char)} {s₁ s₂ : σ} (h : Steps step items s₁ s₂)
    {bound : List Char} (hbound : items.length < bound.length) (rest : List Char) :
    elements step bound false s₁ (items.flatMap (',' :: ·) ++ ']' :: rest) = .ok (s₂, rest) := by
  induction h generalizing bound with
  | nil s =>
    cases bound with
    | nil => cases hbound
    | cons b bound =>
      rw [List.flatMap_nil, List.nil_append, elements, nextElement_close]
      rfl
  | @cons item items s₁ s₂ s₃ hopening hitem hitems ih =>
    cases bound with
    | nil => cases hbound
    | cons b bound =>
      have htail : Delimited (items.flatMap (',' :: ·) ++ ']' :: rest) :=
        delimited_tail (.inl rfl) items rest
      rw [List.flatMap_cons, List.append_assoc, List.cons_append, elements,
        nextElement_comma (hopening.append _)]
      simp only [bind, Except.bind, hitem _ htail]
      exact ih (Nat.lt_of_succ_lt_succ hbound)

/-- **What a loop does on a printed array**, from what its step does on each element. -/
theorem elements_of_steps {items : List (List Char)} {s₁ s₂ : σ} (h : Steps step items s₁ s₂)
    (rest : List Char) {bound : List Char}
    (hbound : bound = [','].intercalate items ++ ']' :: rest) :
    elements step bound true s₁ ([','].intercalate items ++ ']' :: rest) = .ok (s₂, rest) := by
  have hlength : items.length < bound.length := hbound ▸ length_lt_length_bracketed h.opening _ _
  cases bound with
  | nil => cases hlength
  | cons b bound =>
    cases h with
    | nil =>
      rw [List.intercalate_nil, List.nil_append, elements, nextElement_close]
      rfl
    | @cons item items _ s₂ _ hopening hitem hitems =>
      have htail : Delimited (items.flatMap (',' :: ·) ++ ']' :: rest) :=
        delimited_tail (.inl rfl) items rest
      rw [intercalate_comma, List.append_assoc, elements, nextElement_first (hopening.append _)]
      simp only [bind, Except.bind, hitem _ htail]
      exact elements_after hitems (Nat.lt_of_succ_lt_succ hlength) rest

end Elements

section Members

variable {σ : Type} {step : σ → String → List Char → Except Failure (σ × List Char)}

/-- A step takes each of the members, from its colon on and in front of any delimiter, and leads
from one state to another. -/
inductive MemberSteps (step : σ → String → List Char → Except Failure (σ × List Char)) :
    List (String × Value) → σ → σ → Prop where
  | nil (s : σ) : MemberSteps step [] s s
  | cons {name : String} {v : Value} {found : List (String × Value)} {s₁ s₂ s₃ : σ}
      (hmember : ∀ rest, Delimited rest → step s₁ name (':' :: v.print ++ rest) = .ok (s₂, rest))
      (hfound : MemberSteps step found s₂ s₃) : MemberSteps step ((name, v) :: found) s₁ s₃

theorem opening_printString (s : String) (rest : List Char) : Opening (printString s ++ rest) := by
  rw [printString_append]
  exact ⟨'"', _, rfl, by decide⟩

theorem memberName_printString (name : String) (rest : List Char) :
    memberName (printString name ++ rest) = .ok (.member name rest) := by
  rw [printString_append, memberName, if_pos rfl, string_printString]
  rfl

theorem nextMember_first (name : String) (rest : List Char) :
    nextMember true (printString name ++ rest) = .ok (.member name rest) := by
  have hname := memberName_printString name rest
  rw [nextMember, (opening_printString name rest).skipSpace]
  rw [printString_append] at hname ⊢
  exact hname

theorem nextMember_comma (name : String) (rest : List Char) :
    nextMember false (',' :: (printString name ++ rest)) = .ok (.member name rest) := by
  have hname := memberName_printString name rest
  rw [nextMember, skipSpace_cons (by decide)]
  simp only [(opening_printString name rest).skipSpace]
  rw [printString_append] at hname ⊢
  exact hname

theorem nextMember_close (first : Bool) (rest : List Char) :
    nextMember first ('\x7d' :: rest) = .ok (.done rest) := by
  rw [nextMember, skipSpace_cons (by decide)]
  rfl

/-- The text of a member begins with the quotation mark of its name. -/
theorem opening_of_mem_printMembers {found : List (String × Value)} :
    ∀ item ∈ printMembers found, Opening item := by
  induction found with
  | nil => nofun
  | cons first found ih => exact List.forall_mem_cons.mpr ⟨opening_printString _ _, ih⟩

theorem length_printMembers (found : List (String × Value)) :
    (printMembers found).length = found.length := by
  induction found with
  | nil => rfl
  | cons first found ih => exact congrArg Nat.succ ih

/-- As for elements, with a name in front of each step. -/
theorem members_after {found : List (String × Value)} {s₁ s₂ : σ} (h : MemberSteps step found s₁ s₂)
    {bound : List Char} (hbound : found.length < bound.length) (rest : List Char) :
    members step bound false s₁ ((printMembers found).flatMap (',' :: ·) ++ '\x7d' :: rest)
      = .ok (s₂, rest) := by
  induction h generalizing bound with
  | nil s =>
    cases bound with
    | nil => cases hbound
    | cons b bound =>
      rw [printMembers, List.flatMap_nil, List.nil_append, members, nextMember_close]
      rfl
  | @cons name v found s₁ s₂ s₃ hmember hfound ih =>
    cases bound with
    | nil => cases hbound
    | cons b bound =>
      have htail : Delimited ((printMembers found).flatMap (',' :: ·) ++ '\x7d' :: rest) :=
        delimited_tail (.inr rfl) _ rest
      rw [printMembers, List.flatMap_cons, List.append_assoc, List.cons_append, List.append_assoc,
        members, nextMember_comma]
      simp only [bind, Except.bind, hmember _ htail]
      exact ih (Nat.lt_of_succ_lt_succ hbound)

/-- **What a loop does on a printed object**, from what its step does on each member. -/
theorem members_of_steps {found : List (String × Value)} {s₁ s₂ : σ}
    (h : MemberSteps step found s₁ s₂) (rest : List Char) {bound : List Char}
    (hbound : bound = [','].intercalate (printMembers found) ++ '\x7d' :: rest) :
    members step bound true s₁ ([','].intercalate (printMembers found) ++ '\x7d' :: rest)
      = .ok (s₂, rest) := by
  have hlength : found.length < bound.length := by
    rw [← length_printMembers, hbound]
    exact length_lt_length_bracketed opening_of_mem_printMembers _ _
  cases bound with
  | nil => cases hlength
  | cons b bound =>
    cases h with
    | nil =>
      rw [printMembers, List.intercalate_nil, List.nil_append, members, nextMember_close]
      rfl
    | @cons name v found _ s₂ _ hmember hfound =>
      have htail : Delimited ((printMembers found).flatMap (',' :: ·) ++ '\x7d' :: rest) :=
        delimited_tail (.inr rfl) _ rest
      rw [printMembers, intercalate_comma, List.append_assoc, List.append_assoc, members,
        nextMember_first]
      simp only [bind, Except.bind, hmember _ htail]
      exact members_after hfound (Nat.lt_of_succ_lt_succ hlength) rest

end Members

/-! ## Scalars

How doubles are read back from their numerals is a matter of its own, about rounding. It comes in
here as an assumption on the double (`ReadsBack`). -/

/-- The numeral of a double is read as that double. -/
def ReadsBack (x : Double) : Prop := scalar (realNumeral x) = .ok (.real x, [])

/-- What starts a scalar is no bracket. -/
theorem opening_of_scalar {cs : List Char} {r : Value × List Char} (h : scalar cs = .ok r) :
    ∃ c rest, cs = c :: rest ∧ opensValue c = true ∧ c ≠ '[' ∧ c ≠ '\x7b' := by
  cases cs with
  | nil => cases h
  | cons c rest =>
    refine ⟨c, rest, rfl, ?_⟩
    simp only [scalar] at h
    split at h
    · next heq => subst heq; decide
    split at h
    · next heq => subst heq; decide
    split at h
    · next heq => subst heq; decide
    split at h
    · next heq => subst heq; decide
    split at h
    · next hdigit =>
      refine ⟨by simp [opensValue, hdigit], ?_, ?_⟩ <;> rintro rfl <;> revert hdigit <;> decide
    split at h
    · next heq => subst heq; decide
    · cases h

/-- A scalar is read as a value whatever the limit. -/
theorem value_of_scalar {cs : List Char} {r : Value × List Char} (h : scalar cs = .ok r)
    (depth : Nat) : value depth cs = .ok r := by
  obtain ⟨c, rest, rfl, hopens, hbracket, hbrace⟩ := opening_of_scalar h
  rw [value, skipSpace_cons (not_isSpace_of_opensValue hopens)]
  simp only [hbracket, hbrace, if_false]
  exact h

/-- A number, as a value, ends at a delimiter. -/
theorem numberValue_append {negative : Bool} {cs rest : List Char} {v : Value}
    (hrest : Delimited rest)
    (h : (number negative cs).map (fun (n, rest) => (n.toValue, rest)) = .ok (v, [])) :
    (number negative (cs ++ rest)).map (fun (n, rest) => (n.toValue, rest)) = .ok (v, rest) := by
  cases hread : number negative cs with
  | error failure =>
    rw [hread] at h
    cases h
  | ok r =>
    obtain ⟨n, left⟩ := r
    rw [hread] at h
    simp only [Except.map, Except.ok.injEq, Prod.mk.injEq] at h
    rw [number_append hrest hread, h.2, ← h.1]
    rfl

/-- Only numbers are read as reals. -/
theorem map_ne_real {α : Type} (f : α → Value) (hf : ∀ a x, f a ≠ .real x) (r : Reading α)
    (x : Double) : r.map (fun (a, rest) => (f a, rest)) ≠ .ok (.real x, []) := by
  intro heq
  cases r with
  | error failure => cases heq
  | ok r =>
    simp only [Except.map, Except.ok.injEq, Prod.mk.injEq] at heq
    exact hf r.1 x heq.1

/-- The reader that finds a double looks no further than the end of the numeral. -/
theorem scalar_real_append {cs : List Char} {x : Double} (h : scalar cs = .ok (.real x, []))
    {rest : List Char} (hrest : Delimited rest) : scalar (cs ++ rest) = .ok (.real x, rest) := by
  cases cs with
  | nil => cases h
  | cons c cs =>
    simp only [List.cons_append, scalar] at h ⊢
    split at h
    · exact absurd h (map_ne_real (fun _ => .null) nofun _ x)
    split at h
    · exact absurd h (map_ne_real (fun _ => .boolean true) nofun _ x)
    split at h
    · exact absurd h (map_ne_real (fun _ => .boolean false) nofun _ x)
    split at h
    · next hminus =>
      subst hminus
      exact numberValue_append hrest h
    split at h
    · next hn ht hf hminus hdigit =>
      simp only [hn, ht, hf, hminus, hdigit, if_true, if_false]
      exact numberValue_append hrest h
    split at h
    · exact absurd h (map_ne_real .string nofun _ x)
    · cases h

/-- Integers are exact as long as they fit into a significand. -/
theorem scalar_integer {n : Nat} (hn : n ≤ maxSignificand) {rest : List Char}
    (hrest : Delimited rest) :
    scalar (Nat.toDigits 10 n ++ rest) = .ok (.integer n, rest) := by
  have hread := number_toDigits hn hrest
  cases hdigits : Nat.toDigits 10 n with
  | nil => exact absurd hdigits Nat.toDigits_ne_nil
  | cons c cs =>
    have hc : c.isDigit = true := isDigit_of_mem_toDigits (hdigits ▸ List.mem_cons_self)
    have hrange := toNat_of_isDigit hc
    -- The letters and the sign that come before digits in the reader's order are no digits.
    have hne : ∀ letter : Char, ¬ (48 ≤ letter.toNat ∧ letter.toNat ≤ 57) → c ≠ letter :=
      fun letter hletter heq => hletter (heq ▸ hrange)
    rw [hdigits, List.cons_append] at hread
    rw [List.cons_append, scalar, if_neg (hne 'n' (by decide)), if_neg (hne 't' (by decide)),
      if_neg (hne 'f' (by decide)), if_neg (hne '-' (by decide)), digit?_of_isDigit hc,
      if_pos Option.isSome_some, hread]
    rfl

/-! ## Values

A value is readable if all numbers in it are. The induction is over the value, and goes through the
two loops at once. -/

mutual

/-- The values whose text says all: natural numbers that fit into 64 bits, and doubles whose
numerals are read back. -/
def Value.Readable : Value → Prop
  | .integer n => 0 ≤ n ∧ n ≤ maxSignificand
  | .real x => ReadsBack x
  | .array items => ItemsReadable items
  | .object found => MembersReadable found
  | _ => True

def ItemsReadable : List Value → Prop
  | [] => True
  | item :: items => item.Readable ∧ ItemsReadable items

def MembersReadable : List (String × Value) → Prop
  | [] => True
  | (_, item) :: rest => item.Readable ∧ MembersReadable rest

end

theorem colon_cons (rest : List Char) : colon (':' :: rest) = .ok rest := by
  rw [colon, skipSpace_cons (by decide)]
  rfl

/-- The steps of the two loops read a value and keep it. -/
theorem push_ok {α : Type} {read : List Char → Except Failure (α × List Char)} {cs rest : List Char}
    {x : α} (h : read cs = .ok (x, rest)) (items : List α) :
    push read items cs = .ok (x :: items, rest) := by
  simp only [push, bind, Except.bind, h]
  rfl

theorem pushMember_ok {α : Type} {read : List Char → Except Failure (α × List Char)}
    {cs rest : List Char} {x : α} (h : read cs = .ok (x, rest)) (found : List (String × α))
    (name : String) : pushMember read found name (':' :: cs) = .ok ((name, x) :: found, rest) := by
  simp only [pushMember, colon_cons, bind, Except.bind, h]
  rfl

/-- With a bracket to spare, an array is read by the loop over elements, and an object by the loop
over members. -/
theorem value_array (depth : Nat) (cs : List Char) :
    value (depth + 1) ('[' :: cs) = do
      let (items, rest) ← elements (push (value depth)) cs true [] cs
      return (.array items.reverse, rest) := by
  rw [value, skipSpace_cons (by decide)]
  rfl

theorem value_object (depth : Nat) (cs : List Char) :
    value (depth + 1) ('\x7b' :: cs) = do
      let (found, rest) ← members (pushMember (value depth)) cs true [] cs
      return (.object found.reverse, rest) := by
  rw [value, skipSpace_cons (by decide)]
  rfl

/-- The text of a readable value starts like one. -/
theorem opening_print {v : Value} (h : v.Readable) : Opening v.print := by
  cases v with
  | null => exact ⟨'n', _, rfl, by decide⟩
  | boolean b =>
    cases b with
    | true => exact ⟨'t', _, rfl, by decide⟩
    | false => exact ⟨'f', _, rfl, by decide⟩
  | integer n =>
    obtain ⟨n, rfl⟩ := Int.eq_ofNat_of_zero_le h.1
    have hscalar := scalar_integer (Int.ofNat_le.mp h.2) delimited_nil
    obtain ⟨c, rest, heq, hopens, -⟩ := opening_of_scalar hscalar
    rw [List.append_nil] at heq
    exact ⟨c, rest, heq, hopens⟩
  | real x =>
    obtain ⟨c, rest, heq, hopens, -⟩ := opening_of_scalar h
    exact ⟨c, rest, heq, hopens⟩
  | string s => exact ⟨'"', _, rfl, by decide⟩
  | array items => exact ⟨'[', _, rfl, by decide⟩
  | object found => exact ⟨'\x7b', _, rfl, by decide⟩

mutual

/-- **A readable value is read back**, in front of any delimiter and within any limit that its
nesting keeps. -/
theorem value_print : ∀ (v : Value), v.Readable → ∀ (depth : Nat), v.nesting ≤ depth →
    ∀ (rest : List Char), Delimited rest → value depth (v.print ++ rest) = .ok (v, rest)
  | .null, _, depth, _, rest, _ => value_of_scalar rfl depth
  | .boolean true, _, depth, _, rest, _ => value_of_scalar rfl depth
  | .boolean false, _, depth, _, rest, _ => value_of_scalar rfl depth
  | .integer n, h, depth, _, rest, hrest => by
    obtain ⟨n, rfl⟩ := Int.eq_ofNat_of_zero_le h.1
    exact value_of_scalar (scalar_integer (Int.ofNat_le.mp h.2) hrest) depth
  | .real x, h, depth, _, rest, hrest => value_of_scalar (scalar_real_append h hrest) depth
  | .string s, _, depth, _, rest, _ => by
    refine value_of_scalar ?_ depth
    rw [Value.print, printString_append]
    show (string _).map _ = _
    rw [string_printString]
    rfl
  | .array items, h, depth, hdepth, rest, _ => by
    rw [Value.nesting] at hdepth
    obtain ⟨depth, rfl⟩ : ∃ d, depth = d + 1 := ⟨depth - 1, by omega⟩
    -- the loop reads the items one by one, each at one level less
    have hsteps := steps_printItems items h depth (by omega) []
    have hloop := elements_of_steps hsteps rest rfl
    rw [Value.print, bracketed_append, value_array]
    simp only [bind, Except.bind, hloop, List.append_nil, List.reverse_reverse]
    rfl
  | .object found, h, depth, hdepth, rest, _ => by
    rw [Value.nesting] at hdepth
    obtain ⟨depth, rfl⟩ : ∃ d, depth = d + 1 := ⟨depth - 1, by omega⟩
    have hsteps := steps_printMembers found h depth (by omega) []
    have hloop := members_of_steps hsteps rest rfl
    rw [Value.print, bracketed_append, value_object]
    simp only [bind, Except.bind, hloop, List.append_nil, List.reverse_reverse]
    rfl

/-- Items are read one by one, with the brackets that are left inside the array. -/
theorem steps_printItems : ∀ (items : List Value), ItemsReadable items → ∀ (depth : Nat),
    itemsNesting items ≤ depth → ∀ (done : List Value),
    Steps (push (value depth)) (printItems items) done (items.reverse ++ done)
  | [], _, _, _, done => .nil done
  | item :: items, h, depth, hdepth, done => by
    rw [itemsNesting, Nat.max_le] at hdepth
    rw [printItems, List.reverse_cons, List.append_assoc, List.singleton_append]
    exact .cons (opening_print h.1)
      (fun rest hrest => push_ok (value_print item h.1 depth hdepth.1 rest hrest) done)
      (steps_printItems items h.2 depth hdepth.2 (item :: done))

/-- So are members, inside an object. -/
theorem steps_printMembers : ∀ (found : List (String × Value)), MembersReadable found →
    ∀ (depth : Nat), membersNesting found ≤ depth → ∀ (done : List (String × Value)),
    MemberSteps (pushMember (value depth)) found done (found.reverse ++ done)
  | [], _, _, _, done => .nil done
  | (name, item) :: found, h, depth, hdepth, done => by
    rw [membersNesting, Nat.max_le] at hdepth
    rw [List.reverse_cons, List.append_assoc, List.singleton_append]
    exact .cons
      (fun rest hrest => pushMember_ok (value_print item h.1 depth hdepth.1 rest hrest) done name)
      (steps_printMembers found h.2 depth hdepth.2 ((name, item) :: done))

end

/-! ## Nesting and length

A value that is nested is printed with at least as many brackets. A text therefore never needs a
greater bound than its own length. -/

mutual

/-- A text has no more nested brackets than characters. -/
theorem nesting_le_length_print : ∀ v : Value, v.nesting ≤ v.print.length
  | .null => Nat.zero_le _
  | .boolean _ => Nat.zero_le _
  | .integer _ => Nat.zero_le _
  | .real _ => Nat.zero_le _
  | .string _ => Nat.zero_le _
  | .array items => by
    have hitems := itemsNesting_le items _ fun _ => length_le_length_intercalate_of_mem [',']
    rw [Value.nesting, Value.print, bracketed, List.cons_append, List.length_cons,
      List.length_append]
    omega
  | .object found => by
    have hfound := membersNesting_le found _ fun _ => length_le_length_intercalate_of_mem [',']
    rw [Value.nesting, Value.print, bracketed, List.cons_append, List.length_cons,
      List.length_append]
    omega

/-- If the texts of all items are short, their nesting is small, and the same goes for members. -/
theorem itemsNesting_le : ∀ (items : List Value) (n : Nat),
    (∀ text ∈ printItems items, text.length ≤ n) → itemsNesting items ≤ n
  | [], _, _ => Nat.zero_le _
  | item :: items, n, h => by
    obtain ⟨hitem, hitems⟩ := List.forall_mem_cons.mp h
    exact Nat.max_le.mpr
      ⟨Nat.le_trans (nesting_le_length_print item) hitem, itemsNesting_le items n hitems⟩

theorem membersNesting_le : ∀ (found : List (String × Value)) (n : Nat),
    (∀ text ∈ printMembers found, text.length ≤ n) → membersNesting found ≤ n
  | [], _, _ => Nat.zero_le _
  | (_, item) :: found, n, h => by
    obtain ⟨hitem, hfound⟩ := List.forall_mem_cons.mp h
    have hlength := nesting_le_length_print item
    rw [List.length_append, List.length_cons] at hitem
    exact Nat.max_le.mpr ⟨by omega, membersNesting_le found n hfound⟩

end

end ArithScript.Json
