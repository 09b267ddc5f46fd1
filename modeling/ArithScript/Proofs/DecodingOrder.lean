import ArithScript.Proofs.MemberOrder

/-!
# Decoders and the order of members

A decoder that does not depend on the order of members (`Decoder.Orderless`) makes the same of a
tree and of its rearrangements, from any text of these and from their values in memory. There is one
lemma for each way to put a decoder together; those for records and for variants have modules of
their own.

Some readers do by themselves what could be done in memory. What such a reader makes of a tree is
what is made of the value of the tree (`makes_of_value`), and rearranging the tree rearranges the
value.
-/

set_option autoImplicit false

namespace ArithScript.Json

variable {α β σ τ : Type}

/-- A reader that makes the same of a tree and of its rearrangements. -/
def ReadsAlike (read : Nat → List Char → Except Failure (α × List Char)) : Prop :=
  ∃ meaning : Tree → Option α, (∀ {n t}, t.nesting ≤ n → Makes (read n) t (meaning t))
    ∧ ∀ {t t' : Tree}, t.Rearranges t' → meaning t = meaning t'

/-- A conversion that makes the same of a value and of its rearrangements. -/
def ConvertsAlike (convert : Value → Except Cause α) : Prop :=
  ∀ ⦃v v' : Value⦄, v.Rearranges v' → (convert v).toOption = (convert v').toOption

/-- **A decoder that does not depend on the order of members.** -/
structure Decoder.Orderless (decoder : Decoder α) : Prop where
  read : ReadsAlike decoder.read
  convert : ConvertsAlike decoder.convert

/-- A reader that makes something of the value of a tree. -/
theorem readsAlike_of_value {read : Nat → List Char → Except Failure (α × List Char)}
    (make : Value → Option α)
    (hread : ∀ {n t}, t.nesting ≤ n → Makes (read n) t (t.value?.bind make))
    (hmake : ∀ v v', v.Rearranges v' → make v = make v') : ReadsAlike read :=
  ⟨fun t => t.value?.bind make, hread, fun h => bind_eq_of_rel h.value? hmake⟩

theorem toOption_mismatch (expected : Expected) (cs : List Char) :
    (mismatch expected cs : Except Failure α).toOption = none :=
  toOption_eq_none fun _ => mismatch_ne_ok

theorem atNext_eq {read : Char → List Char → Except Failure α} {cs after : List Char} {c : Char}
    (h : skipSpace cs = c :: after) : atNext cs read = read c after := by
  rw [atNext, h]

section AtNext

variable {read : Char → List Char → Except Failure (α × List Char)} {x : Option α}

/-- **A reader that looks at the next character** makes of a tree what it makes of the text from its
first character on. -/
theorem makes_atNext {t : Tree}
    (h : ∀ {c cs rest}, t.Fronts (c :: cs) rest → (read c cs).toOption = x.map (·, rest)) :
    Makes (fun cs => atNext cs read) t x := by
  intro cs rest ht _
  have hfronts := ht.fronts
  obtain ⟨c, tail, hskip, -⟩ := hfronts.opening
  rw [hskip] at hfronts
  exact (congrArg Except.toOption (atNext_eq hskip)).trans (h hfronts)

/-- A reader of arrays and objects refuses scalars. -/
theorem makes_atNext_scalar {token : List Char}
    (h : ∀ c cs, c ≠ '[' → c ≠ '\x7b' → (read c cs).toOption = none) :
    Makes (fun cs => atNext cs read) (.scalar token) none := by
  refine makes_atNext fun {c cs rest} hfronts => ?_
  generalize hfront : c :: cs = front at hfronts
  cases hfronts with
  | scalar htoken =>
    obtain ⟨d, tail, rfl, -, hbracket, hbrace⟩ := htoken.exists_cons
    cases hfront
    exact h c _ hbracket hbrace

theorem makes_atNext_array {ts : List Tree}
    (h : ∀ {cs rest}, Sequence ']' Tree.Leads true ts cs rest →
      (read '[' cs).toOption = x.map (·, rest)) :
    Makes (fun cs => atNext cs read) (.array ts) x :=
  makes_atNext fun hfronts => by
    cases hfronts with
    | array hts => exact h hts

theorem makes_atNext_object {ms : List (List Char × Tree)}
    (h : ∀ {cs rest}, Sequence '\x7d' Tree.MemberLeads true ms cs rest →
      (read '\x7b' cs).toOption = x.map (·, rest)) :
    Makes (fun cs => atNext cs read) (.object ms) x :=
  makes_atNext fun hfronts => by
    cases hfronts with
    | object hms => exact h hms

end AtNext

namespace Decoder

/-! ## Scalars -/

/-- What is read into memory is rearranged as its text is. -/
theorem orderless_buffered {convert : Value → Except Cause α} (h : ConvertsAlike convert) :
    (buffered convert).Orderless where
  read := by
    refine readsAlike_of_value (fun v => (convert v).toOption) (fun hn => ?_) fun _ _ => @h _ _
    refine (makes_value hn).bind fun v rest => ?_
    dsimp only
    cases convert v <;> rfl
  convert := h

end Decoder

section Scalars

variable {n : Nat} {t : Tree} {cs after rest : List Char} {c : Char} {v : Value}

/-- What is read into memory is an array, an object or a scalar. -/
theorem value_cases (hskip : skipSpace cs = c :: after) (h : value n cs = .ok (v, rest)) :
    (∃ vs, v = .array vs) ∨ (∃ ms, v = .object ms) ∨ scalar (c :: after) = .ok (v, rest) := by
  unfold value at h
  rw [hskip] at h
  dsimp only at h
  split at h
  · cases n with
    | zero => cases h
    | succ n =>
      obtain ⟨⟨vs, left⟩, -, heq⟩ := exists_of_bind_eq_ok h
      cases heq
      exact .inl ⟨_, rfl⟩
  split at h
  · cases n with
    | zero => cases h
    | succ n =>
      obtain ⟨⟨ms, left⟩, -, heq⟩ := exists_of_bind_eq_ok h
      cases heq
      exact .inr (.inl ⟨_, rfl⟩)
  · exact .inr (.inr h)

/-- A reader that does by itself what could be done in memory makes the same of every tree. -/
theorem makes_of_value {read : List Char → Except Failure (α × List Char)} {make : Value → Option α}
    (hn : t.nesting ≤ n)
    (h : ∀ cs, (read cs).toOption = (value n cs).toOption.bind fun r => (make r.1).map (·, r.2)) :
    Makes read t (t.value?.bind make) := by
  intro cs rest ht hrest
  rw [h, makes_value hn ht hrest, Option.bind_map, Option.map_bind]
  rfl

/-- Such a reader may refuse all texts of which nothing would be made. -/
theorem toOption_bind_value_eq_none (make : Value → Option α) (hskip : skipSpace cs = c :: after)
    (harray : ∀ vs, make (.array vs) = none) (hobject : ∀ ms, make (.object ms) = none)
    (hscalar : ∀ v rest, ReadsScalar (c :: after) v rest → make v = none) :
    ((value n cs).toOption.bind fun r => (make r.1).map (·, r.2)) = none := by
  refine Option.bind_eq_none_iff.mpr fun r hv => ?_
  obtain ⟨v, rest⟩ := r
  have hmake : make v = none := by
    rcases value_cases hskip (eq_ok_of_toOption hv) with ⟨vs, rfl⟩ | ⟨ms, rfl⟩ | hscan
    · exact harray vs
    · exact hobject ms
    · exact hscalar v rest (readsScalar_of_scalar hscan)
  rw [hmake]
  rfl

/-- The text that a value is. -/
def Value.text? : Value → Option String
  | .string s => some s
  | _ => none

/-- Readers of texts. -/
theorem makes_text (hn : t.nesting ≤ n) (expected : Expected) :
    Makes
      (fun cs => atNext cs fun c rest =>
        if c = '"' then string rest else mismatch expected (c :: rest))
      t (t.value?.bind Value.text?) := by
  refine makes_of_value hn fun cs => ?_
  cases hskip : skipSpace cs with
  | nil =>
    rw [atNext, value, hskip]
    rfl
  | cons c after =>
    rw [atNext_eq hskip]
    split
    · next hquote =>
      subst hquote
      rw [value, hskip]
      show (string after).toOption
          = ((string after).map fun r => (Value.string r.1, r.2)).toOption.bind _
      cases string after <;> rfl
    · next hquote =>
      -- no quote: whatever value stands here is not a text
      rw [toOption_mismatch, toOption_bind_value_eq_none Value.text? hskip (fun _ => rfl)
        fun _ => rfl]
      intro v rest h
      cases h with
      | null | isTrue | isFalse => rfl
      | @negative _ _ m | @positive _ _ m => cases m <;> rfl
      | string => exact absurd rfl hquote

end Scalars

namespace Decoder

theorem orderless_string : string.Orderless where
  read := by
    refine readsAlike_of_value Value.text? (fun hn => makes_text hn .string) fun v v' h => ?_
    cases h <;> rfl
  convert v v' h := by cases h <;> rfl

section Natural

variable {width : Width} {n : Nat} {cs after : List Char} {c : Char}

/-- The reader without its notation: a number with a sign or without one, and then the check. -/
theorem natural_read (hskip : skipSpace cs = c :: after) :
    (natural width).read n cs
      = if c = '-' then (number true after).bind (checkRead width)
        else if (digit? c).isSome then (number false (c :: after)).bind (checkRead width)
        else mismatch (.natural width) (c :: after) := by
  show atNext cs _ = _
  rw [atNext_eq hskip]
  by_cases hsign : c = '-'
  · simp only [hsign, decide_true, Bool.true_or, if_true]
    rfl
  · simp only [hsign, decide_false, Bool.false_or, if_false]
    rfl

/-- A number is checked in the same way when it has been read and when it is in memory. -/
theorem toOption_checkRead (scan : Except Failure (Number × List Char)) :
    (scan.bind (checkRead width)).toOption
      = (scan.map fun r => (r.1.toValue, r.2)).toOption.bind fun r =>
          ((natural width).convert r.1).toOption.map (·, r.2) := by
  have hconvert (n : Number) : (natural width).convert n.toValue = checkNatural width n := by
    cases n <;> rfl
  cases scan with
  | error failure => rfl
  | ok r =>
    show (checkRead width r).toOption = ((natural width).convert r.1.toValue).toOption.map (·, r.2)
    rw [hconvert, checkRead]
    cases checkNatural width r.1 <;> rfl

/-- Reading a natural number comes to reading a value and converting it, but for the cause of a
refusal. -/
theorem toOption_natural_read :
    ((natural width).read n cs).toOption
      = (value n cs).toOption.bind fun r =>
        ((natural width).convert r.1).toOption.map (·, r.2) := by
  cases hskip : skipSpace cs with
  | nil =>
    rw [value, hskip]
    show (atNext cs _).toOption = _
    rw [atNext, hskip]
    rfl
  | cons c after =>
    rw [natural_read hskip]
    split
    · next hsign =>
      subst hsign
      rw [toOption_checkRead, value, hskip]
      rfl
    split
    · next hdigit =>
      rw [toOption_checkRead, ← scalar_digit hdigit, value, hskip]
      simp only [ne_of_digit hdigit (show digit? '[' = none from rfl),
        ne_of_digit hdigit (show digit? '\x7b' = none from rfl), if_false]
    · next hsign hdigit =>
      -- not a number: the value that stands here may be read, but is not converted
      rw [toOption_mismatch]
      refine (toOption_bind_value_eq_none (fun v => ((natural width).convert v).toOption) hskip
        (fun _ => rfl) (fun _ => rfl) fun v rest h => ?_).symm
      cases h with
      | null | isTrue | isFalse | string => rfl
      | negative => exact absurd rfl hsign
      | positive h =>
        rw [number, Option.not_isSome_iff_eq_none.mp hdigit] at h
        cases h

end Natural

theorem orderless_natural (width : Width) : (natural width).Orderless where
  read := by
    refine readsAlike_of_value (fun v => ((natural width).convert v).toOption)
      (fun hn => makes_of_value hn fun cs => toOption_natural_read) fun v v' h => ?_
    cases h <;> rfl
  convert v v' h := by cases h <;> rfl

/-! ## Options and lists

Neither has members of its own, so all rearranging takes place in what they contain. -/

/-- Whether a tree is the word for nothing. -/
def isNull : Tree → Bool
  | .scalar token => token = ['n', 'u', 'l', 'l']
  | _ => false

/-- `null` has one text, but for blanks. -/
theorem eq_of_isNull {t : Tree} {cs rest : List Char} (ht : t.Fronts cs rest)
    (h : isNull t = true) :
    cs = 'n' :: 'u' :: 'l' :: 'l' :: rest := by
  cases ht with
  | scalar =>
    obtain rfl := of_decide_eq_true h
    rfl
  | array | object => cases h

theorem ne_of_not_isNull {t : Tree} {cs rest : List Char} (ht : t.Fronts cs rest)
    (h : ¬ isNull t = true) (after : List Char) : cs ≠ 'n' :: after := by
  cases ht with
  | scalar ht =>
    cases ht with
    | word hword =>
      simp only [List.mem_cons, List.not_mem_nil, or_false] at hword
      rcases hword with rfl | rfl | rfl
      · exact absurd rfl h
      all_goals
        intro heq
        cases heq
    | positive hnumeral =>
      obtain ⟨c, cs, rfl, hc⟩ := hnumeral.exists_cons
      intro heq
      cases heq
      cases hc
    | negative | string =>
      intro heq
      cases heq
  | array | object =>
    intro heq
    cases heq

theorem nullable_read_null {item : Decoder α} {n : Nat} {cs rest : List Char}
    (h : skipSpace cs = 'n' :: 'u' :: 'l' :: 'l' :: rest) :
    item.nullable.read n cs = .ok (none, rest) := by
  unfold nullable
  dsimp only
  rw [h]
  rfl

theorem nullable_read_item {item : Decoder α} {n : Nat} {cs : List Char}
    (h : ∀ after, skipSpace cs ≠ 'n' :: after) :
    item.nullable.read n cs = (item.read n (skipSpace cs)).map fun r => (some r.1, r.2) := by
  unfold nullable
  dsimp only
  split
  · next heq => exact absurd heq (h _)
  · rfl

/-- What a value or nothing is made of. -/
def nullableMeaning (meaning : Tree → Option α) (t : Tree) : Option (Option α) :=
  if isNull t then some none else (meaning t).map some

/-- What is `null` stays so, and what is not is left to the decoder. -/
theorem Orderless.nullable {item : Decoder α} (h : item.Orderless) : item.nullable.Orderless where
  read := by
    obtain ⟨meaning, hmeaning, hsame⟩ := h.read
    refine ⟨nullableMeaning meaning, fun {n t} hn cs rest ht hrest => ?_, fun {t t'} h => ?_⟩
    · rw [nullableMeaning]
      by_cases hnull : isNull t = true
      · rw [nullable_read_null (eq_of_isNull ht.fronts hnull), if_pos hnull]
        rfl
      · rw [nullable_read_item (ne_of_not_isNull ht.fronts hnull), if_neg hnull]
        exact (hmeaning hn).map some ht.fronts.leads hrest
    · have hnull : isNull t = isNull t' := by cases h <;> rfl
      rw [nullableMeaning, nullableMeaning, hnull, hsame h]
  convert v v' hv := by
    have hitem := h.convert hv
    cases hv with
    | refl => rfl
    | array | object =>
      show (Except.map some _).toOption = (Except.map some _).toOption
      rw [toOption_map, toOption_map, hitem]

theorem toOption_mapM {f : β → Except Cause α} (xs : List β) :
    (xs.mapM f).toOption = xs.mapM fun x => (f x).toOption := by
  induction xs with
  | nil => rfl
  | cons x xs ih =>
    rw [List.mapM_cons, List.mapM_cons, toOption_bind]
    simp only [toOption_bind, ih]
    rfl

theorem mapM_congr {R : β → β → Prop} {xs ys : List β} (h : List.Forall₂ R xs ys) {f : β → Option α}
    (hf : ∀ x y, R x y → f x = f y) : xs.mapM f = ys.mapM f := by
  induction h with
  | nil => rfl
  | cons hxy _ ih => rw [List.mapM_cons, List.mapM_cons, hf _ _ hxy, ih]

/-- What a list is made of. -/
def listMeaning (meaning : Tree → Option α) : Tree → Option (List α)
  | .array ts => ts.mapM meaning
  | _ => none

/-- Elements keep their order, and each is rearranged inside. -/
theorem Orderless.list {item : Decoder α} (h : item.Orderless) : item.list.Orderless where
  read := by
    -- read as text first, then as a value that is already taken in
    obtain ⟨meaning, hmeaning, hsame⟩ := h.read
    refine ⟨listMeaning meaning, fun {n t} hn => ?_, fun {t t'} h => ?_⟩
    · cases t with
      | scalar token =>
        refine makes_atNext_scalar fun c cs hbracket _ => ?_
        rw [if_neg hbracket]
        exact toOption_mismatch _ _
      | array ts =>
        refine makes_atNext_array fun {cs rest} hts => ?_
        obtain ⟨n, rfl, hitems⟩ := Tree.exists_of_array_nesting_le hn
        rw [if_pos rfl]
        dsimp only
        rw [toOption_bind, elements_sequence hts (fun t ht => makes_push (hmeaning (hitems t ht)))
          (hts.length_lt Tree.Leads.length_lt), foldlM_push, listMeaning]
        cases ts.mapM meaning with
        | none => rfl
        | some xs => exact congrArg (fun xs => some (xs, rest)) (by simp)
      | object ms =>
        refine makes_atNext_object fun _ => ?_
        rw [if_neg (by decide)]
        exact toOption_mismatch _ _
    · cases h with
      | scalar => rfl
      | object => rfl
      | array hts => exact mapM_congr hts fun _ _ => hsame
  convert v v' hv := by
    cases hv with
    | refl => rfl
    | object => rfl
    | @array vs vs' hvs =>
      show (vs.mapM item.convert).toOption = (vs'.mapM item.convert).toOption
      rw [toOption_mapM, toOption_mapM]
      exact mapM_congr hvs fun _ _ hv => h.convert hv

end Decoder

/-! ## Whole texts

A decoder is run on all of a text, with the length of the text as its bound. Behind the value there
may be blanks and nothing else. -/

theorem skipSpace_blank {blanks : List Char} (h : Blank blanks) : skipSpace blanks = [] := by
  rw [← List.append_nil blanks, skipSpace_append h]
  rfl

/-- What is read from a whole text of a tree is what is made of the tree. -/
theorem toOption_readText {read : List Char → Except Failure (α × List Char)} {t : Tree}
    {x : Option α} (h : Makes read t x) {text : List Char} (ht : t.IsText text) :
    (readText read text).toOption = x := by
  obtain ⟨before, core, after, hbefore, hcore, hafter, rfl⟩ := ht
  have hmade := h ⟨before, core, hbefore, hcore, rfl⟩ hafter.ends
  have hend : endOfText after = .ok () := by rw [endOfText, skipSpace_blank hafter]
  rw [readText]
  cases hread : read (before ++ core ++ after) with
  | error failure =>
    rw [hread] at hmade
    cases x with
    | none => rfl
    | some x => cases hmade
  | ok r =>
    rw [hread] at hmade
    cases x with
    | none => cases hmade
    | some x =>
      cases hmade
      show (Except.mapError _ (endOfText after >>= _)).toOption = _
      rw [hend]
      rfl

/-- Nothing but blanks follows what has been read. -/
theorem isText_of_readText {read : List Char → Except Failure (α × List Char)}
    {text : List Char} {x : α}
    (hread : ∀ {rest}, read text = .ok (x, rest) → ∃ t : Tree, t.Leads text rest)
    (h : readText read text = .ok x) : ∃ t : Tree, t.IsText text := by
  obtain ⟨rest, hrest⟩ := exists_of_readText h
  rw [readText] at h
  cases hend : endOfText rest with
  | error failure =>
    simp only [hrest, hend, bind, Except.bind] at h
    cases h
  | ok _ =>
    have hskip : skipSpace rest = [] := by
      rw [endOfText] at hend
      split at hend
      · assumption
      · cases hend
    obtain ⟨blanks, hblanks, rfl⟩ := exists_blank_of_skipSpace hskip
    obtain ⟨t, before, core, hbefore, hcore, hcs⟩ := hread hrest
    rw [List.append_nil] at hcs
    exact ⟨t, before, core, blanks, hbefore, hcore, hblanks, hcs⟩

/-- A text has at least as many characters as its tree has brackets inside one another, so the
reader of a whole text has no limit. -/
theorem Tree.IsText.nesting_le {t : Tree} {text : List Char} (h : t.IsText text) :
    t.nesting ≤ text.length := by
  obtain ⟨before, core, after, hbefore, hcore, -, rfl⟩ := h
  exact Tree.Leads.nesting_le ⟨before, core, hbefore, hcore, rfl⟩

/-- **Texts of a tree and of a rearrangement are read alike.** -/
theorem Decoder.Orderless.toOption_readText {decoder : Decoder α} (h : decoder.Orderless)
    {t t' : Tree} (ht : t.Rearranges t') {text text' : List Char} (htext : t.IsText text)
    (htext' : t'.IsText text') :
    (readText (decoder.read text.length) text).toOption
      = (readText (decoder.read text'.length) text').toOption := by
  obtain ⟨meaning, hmeaning, hsame⟩ := h.read
  rw [Json.toOption_readText (hmeaning htext.nesting_le) htext,
    Json.toOption_readText (hmeaning htext'.nesting_le) htext', hsame ht]

end ArithScript.Json
