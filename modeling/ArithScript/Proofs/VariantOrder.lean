import ArithScript.Proofs.DecodingOrder

/-!
# Variants and the order of members

In a variant the tag may stand anywhere. The tag and the other members are gathered independently
(`foldlM_gatherStep`), and the other members keep their order among themselves, so what is left
without the tag is rearranged as the whole is (`takeApart_rearranges`). Reading a variant from text
comes to the same as reading all of it into memory, except that a tag in a text has to be a text
itself.
-/

set_option autoImplicit false

namespace ArithScript.Json

variable {α : Type}

/-! ## Taking variants apart

What counts as a tag differs between texts and memory, where numbers are tags too. So the fold over
members is stated for any function that turns a value into the conversion of a case (`tag?`). It
splits into two: one over the members that are named as the tag, and a filter that leaves the others
in their order. -/

theorem filter_sameName {ν : Type} {R : α → α → Prop} {ms ms' : List (ν × α)}
    (h : List.Forall₂ (SameName R) ms ms') (p : ν → Bool) :
    List.Forall₂ (SameName R) (ms.filter (p ·.1)) (ms'.filter (p ·.1)) := by
  induction h with
  | nil => exact .nil
  | cons hm _ ih =>
    obtain ⟨h⟩ := hm
    rw [List.filter_cons, List.filter_cons]
    split
    · exact .cons (.mk h) ih
    · exact ih

namespace Variants

/-- What a member does while a variant is taken apart, for a reader of tags. -/
def gatherStep (tag? : Value → Option (Value → Except Cause α)) (state : Gathered α)
    (m : String × Value) :
    Option (Gathered α) :=
  if m.1 = tagName then
    if state.1.isSome then none else (tag? m.2).map (some ·, state.2)
  else some (state.1, m :: state.2)

/-- What a member does that holds a tag. -/
def tagStep (tag? : Value → Option (Value → Except Cause α)) (tag : Option (Value → Except Cause α))
    (m : String × Value) : Option (Option (Value → Except Cause α)) :=
  if tag.isSome then none else (tag? m.2).map some

/-- The conversion that the tag of a variant stands for, and what is left without the tag. -/
def takeApart (tag? : Value → Option (Value → Except Cause α)) :
    Value → Option ((Value → Except Cause α) × Value)
  | .array (tag :: items) => (tag? tag).map (·, .array items)
  | .object ms => (ms.foldlM (gatherStep tag?) (none, [])).bind fun state =>
      state.1.map (·, .object state.2.reverse)
  | _ => none

/-- The conversion of a variant, for a reader of tags. -/
def convertBy (tag? : Value → Option (Value → Except Cause α)) (v : Value) : Option α :=
  (takeApart tag? v).bind fun p => (p.1 p.2).toOption

section Gathering

variable {tag? : Value → Option (Value → Except Cause α)}

/-- The tag and the other members are gathered independently. -/
theorem foldlM_gatherStep (ms : List (String × Value)) (state : Gathered α) :
    ms.foldlM (gatherStep tag?) state
      = ((ms.filter (·.1 = tagName)).foldlM (tagStep tag?) state.1).map
          (·, (ms.filter (·.1 ≠ tagName)).reverse ++ state.2) := by
  induction ms generalizing state with
  | nil => rfl
  | cons m ms ih =>
    rw [List.foldlM_cons, gatherStep]
    by_cases hm : m.1 = tagName
    · have htags : (m :: ms).filter (·.1 = tagName) = m :: ms.filter (·.1 = tagName) :=
        List.filter_cons_of_pos (decide_eq_true hm)
      have hothers : (m :: ms).filter (·.1 ≠ tagName) = ms.filter (·.1 ≠ tagName) :=
        List.filter_cons_of_neg (by simpa using hm)
      rw [if_pos hm, htags, hothers, List.foldlM_cons, tagStep]
      split
      · rfl
      · cases tag? m.2 with
        | none => rfl
        | some convert => exact ih _
    · have htags : (m :: ms).filter (·.1 = tagName) = ms.filter (·.1 = tagName) :=
        List.filter_cons_of_neg (by simpa using hm)
      have hothers : (m :: ms).filter (·.1 ≠ tagName) = m :: ms.filter (·.1 ≠ tagName) :=
        List.filter_cons_of_pos (by simpa using hm)
      rw [if_neg hm, htags, hothers, List.reverse_cons, List.append_assoc]
      exact ih _

/-- Two tags are refused in either order, and members that are no tags do nothing. -/
theorem tagStep_comm (tag : Option (Value → Except Cause α)) (m m' : String × Value) :
    (tagStep tag? tag m).bind (tagStep tag? · m')
      = (tagStep tag? tag m').bind (tagStep tag? · m) := by
  have hnone (m m' : String × Value) : (tagStep tag? tag m).bind (tagStep tag? · m') = none := by
    refine Option.bind_eq_none_iff.mpr fun tag' htag' => ?_
    rw [tagStep] at htag'
    split at htag'
    · cases htag'
    · obtain ⟨convert, -, rfl⟩ := Option.map_eq_some_iff.mp htag'
      rfl
  rw [hnone, hnone]

theorem exists_of_foldlM_tagStep {ms : List (String × Value)} {convert : Value → Except Cause α}
    (h : ms.foldlM (tagStep tag?) none = some (some convert)) : ∃ v, tag? v = some convert := by
  cases ms with
  | nil => cases h
  | cons m ms =>
    have hstep : tagStep tag? none m = (tag? m.2).map some := rfl
    rw [List.foldlM_cons, hstep] at h
    cases htag : tag? m.2 with
    | none =>
      rw [htag] at h
      cases h
    | some first =>
      rw [htag] at h
      cases ms with
      | nil =>
        cases h
        exact ⟨m.2, htag⟩
      | cons m' ms => cases h

theorem exists_of_takeApart {v : Value} {p : (Value → Except Cause α) × Value}
    (h : takeApart tag? v = some p) : ∃ tag, tag? tag = some p.1 := by
  cases v with
  | array vs =>
    cases vs with
    | nil => cases h
    | cons tag items =>
      obtain ⟨convert, hconvert, rfl⟩ := Option.map_eq_some_iff.mp h
      exact ⟨tag, hconvert⟩
  | object ms =>
    rw [takeApart, foldlM_gatherStep, Option.bind_map] at h
    obtain ⟨tag, htag, h⟩ := Option.bind_eq_some_iff.mp h
    obtain ⟨convert, rfl, rfl⟩ := Option.map_eq_some_iff.mp h
    exact exists_of_foldlM_tagStep htag
  | null | boolean _ | integer _ | real _ | string _ => cases h

/-- **The tag may stand anywhere**, and the other members in any order. -/
theorem takeApart_rearranges (htag : ∀ v v', v.Rearranges v' → tag? v = tag? v') {v v' : Value}
    (h : v.Rearranges v') :
    Option.Rel (fun p p' => p.1 = p'.1 ∧ p.2.Rearranges p'.2) (takeApart tag? v)
    (takeApart tag? v') := by
  cases h with
  | refl =>
    cases takeApart tag? v with
    | none => exact .none
    | some p => exact .some ⟨rfl, .refl _⟩
  | array hvs =>
    cases hvs with
    | nil => exact .none
    | @cons tag tag' items items' hfirst hitems =>
      rw [takeApart, takeApart, htag _ _ hfirst]
      cases tag? tag' with
      | none => exact .none
      | some convert => exact .some ⟨rfl, .array hitems⟩
  | @object ms same ms' hms hperm =>
    -- the tag members and the others are gathered apart, and neither list depends on the order
    have htags : (ms.filter (·.1 = tagName)).foldlM (tagStep tag?) none
        = (ms'.filter (·.1 = tagName)).foldlM (tagStep tag?) none := by
      refine foldlM_reordered tagStep_comm (fun tag m m' hm => ?_)
        (filter_sameName hms (· = tagName)) (hperm.filter _) none
      obtain ⟨hv⟩ := hm
      rw [tagStep, tagStep, htag _ _ hv]
    have hothers : (Value.object (ms.filter (·.1 ≠ tagName))).Rearranges
        (.object (ms'.filter (·.1 ≠ tagName))) :=
      .object (filter_sameName hms (· ≠ tagName)) (hperm.filter _)
    rw [takeApart, takeApart, foldlM_gatherStep, foldlM_gatherStep, htags, List.append_nil,
      List.append_nil]
    cases (ms'.filter (·.1 = tagName)).foldlM (tagStep tag?) none with
    | none => exact .none
    | some tag =>
      cases tag with
      | none => exact .none
      | some convert => exact .some ⟨rfl, by simpa using hothers⟩

/-- Rearranging changes neither the tag nor, up to rearranging, the content; and the conversion of
the tag takes no notice of the order in the content. -/
theorem convertBy_eq (htag : ∀ v v', v.Rearranges v' → tag? v = tag? v')
    (hconvert : ∀ v, ∀ convert ∈ tag? v, ConvertsAlike convert) {v v' : Value}
    (h : v.Rearranges v') :
    convertBy tag? v = convertBy tag? v' := by
  have hrel := takeApart_rearranges htag h
  rw [convertBy, convertBy]
  generalize hfound : takeApart tag? v = x at hrel
  generalize takeApart tag? v' = x' at hrel
  cases hrel with
  | none => rfl
  | @some p p' hp =>
    obtain ⟨tag, hcase⟩ := exists_of_takeApart hfound
    rw [Option.bind_some, Option.bind_some, ← hp.1]
    exact hconvert tag p.1 hcase hp.2

end Gathering

/-- A type whose variants are converted alike in whichever order their members are. -/
def Orderless (variants : Variants α) : Prop := ∀ c ∈ variants.cases, ConvertsAlike c.2

section Converting

variable {variants : Variants α}

/-- The conversion for a tag that is a text. -/
def textTag (variants : Variants α) (v : Value) : Option (Value → Except Cause α) :=
  v.text?.bind fun tag => (variants.ofTag tag).toOption

theorem Orderless.ofTag (h : variants.Orderless) {tag : String} {convert : Value → Except Cause α}
    (hfound : variants.ofTag tag = .ok convert) : ConvertsAlike convert := by
  rw [Variants.ofTag] at hfound
  split at hfound
  · next c hfind =>
    cases hfound
    exact h _ (List.mem_of_find?_eq_some hfind)
  · cases hfound

theorem Orderless.convertTag (h : variants.Orderless) {v : Value} {convert : Value → Except Cause α}
    (hfound : variants.convertTag v = .ok convert) : ConvertsAlike convert := by
  cases v with
  | string tag => exact h.ofTag hfound
  | integer n =>
    rw [Variants.convertTag] at hfound
    split at hfound
    · cases hfound
    · split at hfound
      · next hget =>
        cases hfound
        exact h _ (List.mem_of_getElem? hget)
      · cases hfound
  | null | boolean _ | real _ | array _ | object _ => cases hfound

/-- In memory the members are gathered by a fold, as they are in a text. -/
theorem toOption_splitTag (ms : List (String × Value)) (state : Gathered α) :
    (variants.splitTag ms state).toOption
      = ms.foldlM (gatherStep fun v => (variants.convertTag v).toOption) state := by
  induction ms generalizing state with
  | nil => rfl
  | cons m ms ih =>
    rw [splitTag, List.foldlM_cons, gatherStep]
    split
    · split
      · rfl
      · rw [toOption_bind]
        simp only [ih]
        cases variants.convertTag m.2 <;> rfl
    · exact ih _

theorem toOption_convert (v : Value) :
    (variants.convert v).toOption = convertBy (fun v => (variants.convertTag v).toOption) v := by
  cases v with
  | array vs =>
    cases vs with
    | nil => rfl
    | cons tag items =>
      rw [Variants.convert, toOption_bind, convertBy, takeApart, Option.bind_map]
      rfl
  | object ms =>
    rw [Variants.convert, toOption_bind, toOption_splitTag, convertBy, takeApart, Option.bind_assoc]
    refine congrArg _ (funext fun state => ?_)
    obtain ⟨tag, found⟩ := state
    cases tag <;> rfl
  | null | boolean _ | integer _ | real _ | string _ => rfl

theorem Orderless.converts (h : variants.Orderless) : ConvertsAlike variants.convert := by
  intro v v' hv
  rw [toOption_convert, toOption_convert]
  refine convertBy_eq (fun v v' hv => ?_) (fun v convert hfound => ?_) hv
  · cases hv <;> rfl
  · exact h.convertTag (eq_ok_of_toOption hfound)

end Converting

section Reading

variable {variants : Variants α} {n : Nat} {t : Tree}

/-- The conversion for a tag that has been read. -/
def ofReadTag (variants : Variants α) (r : String × List Char) :
    Except Failure ((Value → Except Cause α) × List Char) :=
  match variants.ofTag r.1 with
  | .ok convert => .ok (convert, r.2)
  | .error cause => failHere cause r.2

theorem makes_readTag (variants : Variants α) (t : Tree) :
    Makes variants.readTag t (t.value?.bind variants.textTag) := by
  have hnext (tag : String) (rest : List Char) :
      (variants.ofReadTag (tag, rest)).toOption = (variants.ofTag tag).toOption.map (·, rest) := by
    rw [ofReadTag]
    cases variants.ofTag tag <;> rfl
  have htag := (makes_text (Nat.le_refl t.nesting) .tag).bind hnext
  rw [Option.bind_assoc] at htag
  refine htag.congr fun cs => ?_
  rw [readTag, toOption_bind]
  cases hskip : skipSpace cs with
  | nil =>
    rw [atNext, atNext, hskip]
    rfl
  | cons c after =>
    rw [atNext_eq hskip, atNext_eq hskip]
    split
    · cases string after <;> rfl
    · rw [toOption_mismatch, toOption_mismatch]
      rfl

/-- A member is taken as the tag if it has the name of the tag, and otherwise it is read into
memory. -/
theorem makesMember_gatherMember (hn : t.nesting ≤ n) (state : Gathered α) (name : String) :
    MakesMember (variants.gatherMember n state name) t
      (t.value?.bind fun v => gatherStep variants.textTag state (name, v)) := by
  by_cases hname : name = tagName
  · by_cases hsome : state.1.isSome = true
    · -- A second tag is refused before it is read.
      have hnone : (t.value?.bind fun v => gatherStep variants.textTag state (name, v)) = none :=
        Option.bind_eq_none_iff.mpr fun v _ => by rw [gatherStep, if_pos hname, if_pos hsome]
      intro behind cs rest _ _ _
      rw [hnone, gatherMember, if_pos hname, if_pos hsome]
      rfl
    · -- the first tag picks the conversion; nothing is added to the members
      have htag : (t.value?.bind fun v => gatherStep variants.textTag state (name, v))
          = (t.value?.bind variants.textTag).bind fun convert => some (some convert, state.2) := by
        rw [Option.bind_assoc]
        refine congrArg _ (funext fun v => ?_)
        rw [gatherStep, if_pos hname, if_neg hsome, Option.map_eq_bind]
        rfl
      intro behind cs rest hbehind ht hrest
      rw [htag, gatherMember, if_pos hname, if_neg hsome]
      exact makesMember_colon ((makes_readTag variants t).bind fun _ _ => rfl) hbehind ht hrest
  · have hother : (t.value?.bind fun v => gatherStep variants.textTag state (name, v))
        = t.value?.bind fun v => some (state.1, (name, v) :: state.2) := by
      refine congrArg _ (funext fun v => ?_)
      rw [gatherStep, if_neg hname]
    intro behind cs rest hbehind ht hrest
    rw [hother, gatherMember, if_neg hname]
    exact makesMember_colon ((makes_value hn).bind fun _ _ => rfl) hbehind ht hrest

/-- In an array the tag is the first item, and the content is the array of the others. -/
theorem makes_gather_array {tag : Tree} {ts : List Tree}
    (hn : (Tree.array (tag :: ts)).nesting ≤ n) :
    Makes (variants.gather n) (.array (tag :: ts))
      ((tag.value?.bind variants.textTag).bind fun convert =>
        (Tree.itemValues? ts).map fun vs => (convert, .array vs)) := by
  refine makes_atNext_array fun {cs rest} hts => ?_
  obtain ⟨n, rfl, hitems⟩ := Tree.exists_of_array_nesting_le hn
  cases hts with
  | @cons _ _ _ _ _ after _ hfront htag hts =>
    cases hfront
    -- behind the tag the elements are taken as values, for the conversion that the tag picks
    have hread : (elements (push (value n)) after false [] after).toOption
        = ((Tree.itemValues? ts).map List.reverse).map (·, rest) := by
      have hstep (t : Tree) (ht : t ∈ ts) :=
        makes_push (makes_value (hitems t (List.mem_cons_of_mem _ ht)))
      rw [elements_sequence hts hstep (hts.length_lt Tree.Leads.length_lt), foldlM_push,
        ← Tree.itemValues?_eq_mapM]
      simp only [List.append_nil]
    rw [if_pos rfl]
    dsimp only
    rw [nextElement_separated (.first cs) htag]
    show (variants.readTag (skipSpace cs) >>= _).toOption = _
    rw [toOption_bind, makes_readTag variants tag htag.fronts.leads (hts.ends (.inl rfl)),
      Option.bind_map, Option.map_bind]
    refine congrArg _ (funext fun convert => ?_)
    simp only [Function.comp, toOption_bind, hread]
    cases Tree.itemValues? ts with
    | none => rfl
    | some vs =>
      exact congrArg (fun vs => some ((convert, Value.array vs), rest)) (List.reverse_reverse vs)

/-- In an object the tag is found among the members, and the content is the object of the others. -/
theorem makes_gather_object {ms : List (List Char × Tree)} (hn : (Tree.object ms).nesting ≤ n) :
    Makes (variants.gather n) (.object ms)
      (((ms.mapM Tree.memberValue?).bind fun found =>
        found.foldlM (gatherStep variants.textTag) (none, [])).bind fun state =>
          state.1.map fun convert => (convert, .object state.2.reverse)) := by
  refine makes_atNext_object fun {cs rest} hms => ?_
  obtain ⟨n, rfl, hfound⟩ := Tree.exists_of_object_nesting_le hn
  have hread := members_sequence
    (fun s name t => t.value?.bind fun v => gatherStep variants.textTag s (name, v)) hms
    (fun m hm s name => makesMember_gatherMember (hfound m hm) s name)
    (hms.length_lt Tree.MemberLeads.length_lt) (none, [])
  rw [if_neg (by decide), if_pos rfl]
  dsimp only
  -- name and value are read as one member, in the order the text has them
  have hstep (s : Gathered α) (m : List Char × Tree) :
      ((text? m.1).bind fun name => m.2.value?.bind
        fun v => gatherStep variants.textTag s (name, v))
        = (Tree.memberValue? m).bind (gatherStep variants.textTag s) := by
    rw [Tree.memberValue?, Option.bind_assoc]
    refine congrArg _ (funext fun name => ?_)
    rw [Option.bind_map]
    rfl
  simp only [hstep, foldlM_bind] at hread
  rw [toOption_bind, hread, Option.bind_map, Option.map_bind]
  refine congrArg _ (funext fun state => ?_)
  obtain ⟨tag, found⟩ := state
  cases tag <;> rfl

/-- Reading the tag and then the elements comes to the same as taking apart what has been read as a
whole. -/
theorem bind_takeApart_array (tag : Tree) (ts : List Tree) :
    (Tree.array (tag :: ts)).value?.bind (takeApart variants.textTag)
      = (tag.value?.bind variants.textTag).bind fun convert =>
          (Tree.itemValues? ts).map fun vs => (convert, .array vs) := by
  rw [Tree.value?, Tree.itemValues?]
  cases tag.value? with
  | none => rfl
  | some v =>
    cases Tree.itemValues? ts with
    | none => simp
    | some vs => exact Option.map_eq_bind

theorem bind_takeApart_object (ms : List (List Char × Tree)) :
    (Tree.object ms).value?.bind (takeApart variants.textTag)
      = ((ms.mapM Tree.memberValue?).bind fun found =>
          found.foldlM (gatherStep variants.textTag) (none, [])).bind fun state =>
            state.1.map fun convert => (convert, .object state.2.reverse) := by
  rw [Tree.value?, Tree.memberValues?_eq_mapM, Option.bind_map, Option.bind_assoc]
  rfl

/-- **Reading a variant takes it apart** as it would be taken apart in memory. -/
theorem makes_gather (hn : t.nesting ≤ n) :
    Makes (variants.gather n) t (t.value?.bind (takeApart variants.textTag)) := by
  cases t with
  | scalar token =>
    -- a scalar has no tag, in the text and as a value
    have hnone : (Tree.scalar token).value?.bind (takeApart variants.textTag) = none := by
      refine Option.bind_eq_none_iff.mpr fun v hv => ?_
      obtain ⟨⟨v, rest⟩, hscan, rfl⟩ := Option.map_eq_some_iff.mp hv
      cases readsScalar_of_scalar (eq_ok_of_toOption hscan) with
      | null | isTrue | isFalse | string => rfl
      | @negative _ _ m | @positive _ _ m => cases m <;> rfl
    rw [hnone]
    refine makes_atNext_scalar fun c cs hbracket hbrace => ?_
    rw [if_neg hbracket, if_neg hbrace]
    exact toOption_mismatch _ _
  | array ts =>
    cases ts with
    | nil =>
      refine makes_atNext_array fun {cs rest} hts => ?_
      obtain ⟨n, rfl, -⟩ := Tree.exists_of_array_nesting_le hn
      cases hts with
      | nil hblanks =>
        rw [if_pos rfl]
        dsimp only
        rw [nextElement_done hblanks]
        rfl
    | cons tag ts =>
      rw [bind_takeApart_array]
      exact makes_gather_array hn
  | object ms =>
    rw [bind_takeApart_object]
    exact makes_gather_object hn

theorem makes_read (hn : t.nesting ≤ n) :
    Makes (variants.read n) t (t.value?.bind (convertBy variants.textTag)) := by
  have hread : Makes (variants.read n) t
      ((t.value?.bind (takeApart variants.textTag)).bind fun p => (p.1 p.2).toOption) := by
    refine (makes_gather hn).bind fun p rest => ?_
    dsimp only
    cases p.1 p.2 <;> rfl
  rw [Option.bind_assoc] at hread
  exact hread

/-- Variants are read without regard to order if their cases are converted so. -/
theorem Orderless.decoder (h : variants.Orderless) : variants.decoder.Orderless where
  read := by
    refine readsAlike_of_value (convertBy variants.textTag) makes_read fun v v' hv => ?_
    refine convertBy_eq (fun v v' hv => ?_) (fun v convert hfound => ?_) hv
    · cases hv <;> rfl
    · obtain ⟨tag, -, htag⟩ := Option.bind_eq_some_iff.mp hfound
      exact h.ofTag (eq_ok_of_toOption htag)
  convert := h.converts

end Reading

end Variants

/-! ## Tags by themselves

An operator is a variant without content. It is written as its tag, or as an object whose only
member has the tag for a name. -/

/-- A tag by itself may be written as an object with one member. More members are refused, so there
is nothing to rearrange. -/
theorem convertTagOnly_object {tags : List (String × α)} {ms : List (String × Value)}
    (h : 2 ≤ ms.length) :
    convertTagOnly tags (.object ms) = .error (.invalidValue .map .singleMember) := by
  cases ms with
  | nil => cases h
  | cons m ms =>
    cases ms with
    | nil => exact absurd h (Nat.not_succ_le_self 1)
    | cons m' ms => rfl

/-- An object with a tag for its only member cannot be rearranged, and what it holds is nothing. -/
theorem convertsAlike_convertTagOnly (tags : List (String × α)) :
    ConvertsAlike (convertTagOnly tags) := by
  intro v v' hv
  cases hv with
  | refl => rfl
  | array => rfl
  | @object ms same ms' hms hperm =>
    have hlength : ms.length = ms'.length := hms.length_eq.trans hperm.length_eq
    cases hms with
    | nil =>
      obtain rfl := List.nil_perm.mp hperm
      rfl
    | cons hm hms =>
      cases hms with
      | nil =>
        -- a single member stands first in every order, with its own content rearranged
        obtain rfl := List.singleton_perm.mp hperm
        obtain ⟨hv⟩ := hm
        cases hv with
        | refl => rfl
        | array => rfl
        | @object ms same ms' hms hperm =>
          cases hms with
          | nil =>
            obtain rfl := List.nil_perm.mp hperm
            rfl
          | cons =>
            cases ms' with
            | nil => exact absurd hperm.length_eq (Nat.succ_ne_zero _)
            | cons => rfl
      | cons =>
        -- and several members are refused in every order
        have hmany : 2 ≤ ms'.length := by
          rw [← hlength]
          exact Nat.le_add_left 2 _
        rw [convertTagOnly_object hmany]
        rfl

end ArithScript.Json
