import ArithScript.Proofs.JsonTokens

/-!
# What is read is JSON

A reader that succeeds has taken a text of some tree from the front of what it was given
(`Tree.Leads`), whatever it has made of it. `leads_of_value` says so of values, and
`leads_of_skipValue` of members that nobody asks for.

Arrays and objects are read by loops with a step of the caller's choice, and so are the lemmas about
them: `sequence_of_elements` and `sequence_of_members` take what the step does with each part, as a
relation between a tree and the states before and after it, and give a run of that relation over the
parts. The round that reads the first part differs from the others only in what stands in front of
the part (`Separated`), so one induction serves for both.
-/

set_option autoImplicit false

namespace ArithScript.Json

/-! ## Trees at the front of a text

A reader returns what it has not read. So that a tree was read is said of two texts, the one before
and the one after: `t.Leads cs rest`. In the same way `Sequence` speaks of items up to a closing
bracket, without their opening one, because a loop may be asked to go on in the middle. -/

namespace Tree

/-- A tree stands at the front of a text, behind blanks, and the rest follows. -/
def Leads (t : Tree) (cs rest : List Char) : Prop :=
  ∃ before text, Blank before ∧ t.Spells text ∧ cs = before ++ text ++ rest

/-- A member stands at the front of a text. -/
def MemberLeads (m : List Char × Tree) (cs rest : List Char) : Prop :=
  ∃ before behind value, Blank before ∧ Quoted m.1 ∧ Blank behind
    ∧ cs = before ++ quote m.1 ++ behind ++ ':' :: value ∧ m.2.Leads value rest

theorem Leads.blank {t : Tree} {cs rest : List Char} (h : t.Leads cs rest) {blanks : List Char}
    (hblanks : Blank blanks) : t.Leads (blanks ++ cs) rest := by
  obtain ⟨before, text, hbefore, htext, rfl⟩ := h
  exact ⟨blanks ++ before, text, hblanks.append hbefore, htext, by simp⟩

theorem MemberLeads.blank {m : List Char × Tree} {cs rest : List Char} (h : MemberLeads m cs rest)
    {blanks : List Char} (hblanks : Blank blanks) : MemberLeads m (blanks ++ cs) rest := by
  obtain ⟨before, behind, value, hbefore, hname, hbehind, rfl, hvalue⟩ := h
  exact ⟨blanks ++ before, behind, value, hblanks.append hbefore, hname, hbehind, by simp, hvalue⟩

theorem leads_of_spells {t : Tree} {text : List Char} (h : t.Spells text) (rest : List Char) :
    t.Leads (text ++ rest) rest :=
  ⟨[], text, blank_nil, h, rfl⟩

end Tree

section Sequences

variable {ι : Type}

/-- What stands in front of an item: nothing in front of the first one, a comma in front of each of
the others. -/
inductive Separated : Bool → List Char → List Char → Prop where
  | first (cs : List Char) : Separated true cs cs
  | later {blanks : List Char} (h : Blank blanks) (cs : List Char) :
      Separated false (blanks ++ ',' :: cs) cs

/-- Items up to a closing bracket, from behind the opening one on or from behind another item. -/
inductive Sequence (close : Char) (Item : ι → List Char → List Char → Prop) :
    Bool → List ι → List Char → List Char → Prop where
  | nil {first : Bool} {blanks rest : List Char} (h : Blank blanks) :
      Sequence close Item first [] (blanks ++ close :: rest) rest
  | cons {first : Bool} {i : ι} {is : List ι} {cs inner after rest : List Char}
      (hfront : Separated first cs inner) (hitem : Item i inner after)
      (hitems : Sequence close Item false is after rest) :
      Sequence close Item first (i :: is) cs rest

/-- A relation that leads over some items from one state to another. -/
inductive Run {σ : Type} (R : ι → σ → σ → Prop) : List ι → σ → σ → Prop where
  | nil (s : σ) : Run R [] s s
  | cons {i : ι} {is : List ι} {s₁ s₂ s₃ : σ} (hitem : R i s₁ s₂) (hitems : Run R is s₂ s₃) :
      Run R (i :: is) s₁ s₃

end Sequences

namespace Tree

/-- The blanks in front of a comma belong to the item before it. -/
theorem itemsSpell_of_sequence {ts : List Tree} {cs rest : List Char}
    (h : Sequence ']' Leads false ts cs rest) :
    ∃ blanks texts, Blank blanks ∧ ItemsSpell ts texts
      ∧ cs = blanks ++ (texts.flatMap (',' :: ·) ++ ']' :: rest) := by
  generalize hfalse : false = first at h
  induction h with
  | nil h => exact ⟨_, [], h, .nil, rfl⟩
  | cons hfront hitem _ ih =>
    cases hfront with
    | first => cases hfalse
    | later hblanks =>
      obtain ⟨before, text, hbefore, htext, rfl⟩ := hitem
      obtain ⟨after, texts, hafter, htexts, rfl⟩ := ih rfl
      exact ⟨_, _, hblanks, .cons hbefore htext hafter htexts, by simp⟩

/-- The same for members, whose names and colons have blanks of their own around them. -/
theorem membersSpell_of_sequence {ms : List (List Char × Tree)} {cs rest : List Char}
    (h : Sequence '\x7d' MemberLeads false ms cs rest) :
    ∃ blanks texts, Blank blanks ∧ MembersSpell ms texts
      ∧ cs = blanks ++ (texts.flatMap (',' :: ·) ++ '\x7d' :: rest) := by
  generalize hfalse : false = first at h
  induction h with
  | nil h => exact ⟨_, [], h, .nil, rfl⟩
  | cons hfront hitem _ ih =>
    cases hfront with
    | first => cases hfalse
    | later hblanks =>
      obtain ⟨before, behind, _, hbefore, hname, hbehind, rfl, hvalue⟩ := hitem
      obtain ⟨inFront, text, hinFront, htext, rfl⟩ := hvalue
      obtain ⟨after, texts, hafter, htexts, rfl⟩ := ih rfl
      exact ⟨_, _, hblanks, .cons hbefore hname hbehind hinFront htext hafter htexts, by simp⟩

/-- Items from behind a bracket on make an array, if there is one in front of them. -/
theorem leads_array {ts : List Tree} {cs rest : List Char}
    (h : Sequence ']' Leads true ts cs rest) : (Tree.array ts).Leads ('[' :: cs) rest := by
  cases h with
  | nil h => exact ⟨[], _, blank_nil, .emptyArray h, by simp⟩
  | cons hfront hitem hitems =>
    cases hfront
    obtain ⟨before, text, hbefore, htext, rfl⟩ := hitem
    -- The blanks behind the first item are those in front of the next comma, or of the bracket.
    obtain ⟨after, texts, hafter, htexts, rfl⟩ := itemsSpell_of_sequence hitems
    refine ⟨[], _, blank_nil, .array (.cons hbefore htext hafter htexts), ?_⟩
    rw [List.nil_append, bracketed_append, intercalate_comma]
    simp

theorem leads_object {ms : List (List Char × Tree)} {cs rest : List Char}
    (h : Sequence '\x7d' MemberLeads true ms cs rest) :
    (Tree.object ms).Leads ('\x7b' :: cs) rest := by
  cases h with
  | nil h => exact ⟨[], _, blank_nil, .emptyObject h, by simp⟩
  | cons hfront hitem hitems =>
    cases hfront
    obtain ⟨before, behind, _, hbefore, hname, hbehind, rfl, hvalue⟩ := hitem
    obtain ⟨inFront, text, hinFront, htext, rfl⟩ := hvalue
    obtain ⟨after, texts, hafter, htexts, rfl⟩ := membersSpell_of_sequence hitems
    refine ⟨[], _, blank_nil, .object (.cons hbefore hname hbehind hinFront htext hafter htexts),
      ?_⟩
    rw [List.nil_append, bracketed_append, intercalate_comma]
    simp

end Tree

/-! ## Loops

Both loops first look for the next item, and take it only if there is one. What stands in front of
an item depends on whether it is the first, and this is all that the two kinds of rounds differ in.
The induction is on the bound of the loop, which is never reached by a loop that succeeds. -/

section Elements

/-- Where the next element starts, and what has been passed over to get there. -/
theorem separated_of_nextElement {first : Bool} {cs rest : List Char}
    (h : nextElement first cs = .ok (.element rest)) :
    ∃ blanks, Blank blanks ∧ Separated first cs (blanks ++ rest) := by
  rw [nextElement] at h
  split at h
  · cases h
  · next c after hskip =>
    obtain ⟨blanks, hblanks, rfl⟩ := exists_blank_of_skipSpace hskip
    split at h
    · cases h
    cases first with
    | true =>
      cases h
      exact ⟨blanks, hblanks, .first _⟩
    | false =>
      simp only [Bool.false_eq_true, if_false] at h
      split at h
      · next hcomma =>
        subst hcomma
        split at h
        · cases h
        · next d left hskip =>
          obtain ⟨inFront, hinFront, rfl⟩ := exists_blank_of_skipSpace hskip
          split at h
          · cases h
          · cases h
            exact ⟨inFront, hinFront, .later hblanks _⟩
      · cases h

/-- The elements are at an end at the bracket only, never at a comma. -/
theorem blank_of_nextElement_done {first : Bool} {cs rest : List Char}
    (h : nextElement first cs = .ok (.done rest)) :
    ∃ blanks, Blank blanks ∧ cs = blanks ++ ']' :: rest := by
  rw [nextElement] at h
  split at h
  · cases h
  · next c after hskip =>
    split at h
    · next hclose =>
      cases h
      subst hclose
      exact exists_blank_of_skipSpace hskip
    · cases first with
      | true => cases h
      | false =>
        simp only [Bool.false_eq_true, if_false] at h
        split at h
        · split at h
          · cases h
          · split at h <;> cases h
        · cases h

variable {σ : Type} {step : σ → List Char → Except Failure (σ × List Char)}
  {R : Tree → σ → σ → Prop}
  (hstep : ∀ s cs s' rest, step s cs = .ok (s', rest) → ∃ t : Tree, t.Leads cs rest ∧ R t s s')
include hstep

/-- **What a loop has read is a sequence of trees**, the elements of an array. -/
theorem sequence_of_elements {bound : List Char} {first : Bool} {s s' : σ} {cs rest : List Char}
    (h : elements step bound first s cs = .ok (s', rest)) :
    ∃ ts, Sequence ']' Tree.Leads first ts cs rest ∧ Run R ts s s' := by
  induction bound generalizing first s cs with
  | nil => cases h
  | cons b bound ih =>
    obtain ⟨next, hnext, hround⟩ := exists_of_bind_eq_ok h
    cases next with
    | done after =>
      cases hround
      obtain ⟨blanks, hblanks, rfl⟩ := blank_of_nextElement_done hnext
      exact ⟨[], .nil hblanks, .nil _⟩
    | element after =>
      obtain ⟨blanks, hblanks, hfront⟩ := separated_of_nextElement hnext
      obtain ⟨⟨s₂, left⟩, hitem, hitems⟩ := exists_of_bind_eq_ok hround
      obtain ⟨t, ht, hR⟩ := hstep _ _ _ _ hitem
      obtain ⟨ts, hts, hrun⟩ := ih hitems
      exact ⟨t :: ts, .cons hfront (ht.blank hblanks) hts, .cons hR hrun⟩

end Elements

section Members

theorem blank_of_colon {cs rest : List Char} (h : colon cs = .ok rest) :
    ∃ blanks, Blank blanks ∧ cs = blanks ++ ':' :: rest := by
  rw [colon] at h
  split at h
  · cases h
  · next c after hskip =>
    split at h
    · next hcolon =>
      cases h
      subst hcolon
      exact exists_blank_of_skipSpace hskip
    · cases h

/-- The name of a member is read as a string is, and a string that is read could have been passed
over; so it is quoted. -/
theorem quoted_of_memberName {name : String} {cs rest : List Char}
    (h : memberName cs = .ok (.member name rest)) : ∃ raw, Quoted raw ∧ cs = quote raw ++ rest := by
  cases cs with
  | nil => cases h
  | cons c after =>
    rw [memberName] at h
    split at h
    · next hquote =>
      subst hquote
      obtain ⟨r, hread, heq⟩ := exists_of_map_eq_ok h
      cases heq
      obtain ⟨raw, rfl, hraw⟩ := quoted_of_skipString (skipString_of_string hread) rfl
      exact ⟨raw, hraw, by simp [quote]⟩
    · cases h

theorem memberName_ne_done {cs rest : List Char} : memberName cs ≠ .ok (.done rest) := by
  intro h
  cases cs with
  | nil => cases h
  | cons c after =>
    rw [memberName] at h
    split at h
    · obtain ⟨r, -, heq⟩ := exists_of_map_eq_ok h
      cases heq
    · cases h

/-- Where the next member starts, with its name. -/
theorem separated_of_nextMember {first : Bool} {name : String} {cs rest : List Char}
    (h : nextMember first cs = .ok (.member name rest)) :
    ∃ blanks raw, Blank blanks ∧ Quoted raw
      ∧ Separated first cs (blanks ++ (quote raw ++ rest)) := by
  rw [nextMember] at h
  split at h
  · cases h
  · next c after hskip =>
    obtain ⟨blanks, hblanks, rfl⟩ := exists_blank_of_skipSpace hskip
    split at h
    · cases h
    -- the first member stands behind blanks only, a later one behind a comma as well
    cases first with
    | true =>
      rw [if_pos rfl] at h
      obtain ⟨raw, hraw, hname⟩ := quoted_of_memberName h
      rw [hname]
      exact ⟨blanks, raw, hblanks, hraw, .first _⟩
    | false =>
      simp only [Bool.false_eq_true, if_false] at h
      split at h
      · next hcomma =>
        subst hcomma
        split at h
        · cases h
        · next d left hskip =>
          obtain ⟨inFront, hinFront, rfl⟩ := exists_blank_of_skipSpace hskip
          split at h
          · cases h
          · obtain ⟨raw, hraw, hname⟩ := quoted_of_memberName h
            rw [hname]
            exact ⟨inFront, raw, hinFront, hraw, .later hblanks _⟩
      · cases h

theorem blank_of_nextMember_done {first : Bool} {cs rest : List Char}
    (h : nextMember first cs = .ok (.done rest)) :
    ∃ blanks, Blank blanks ∧ cs = blanks ++ '\x7d' :: rest := by
  rw [nextMember] at h
  split at h
  · cases h
  · next c after hskip =>
    split at h
    · next hclose =>
      cases h
      subst hclose
      exact exists_blank_of_skipSpace hskip
    · cases first with
      | true =>
        rw [if_pos rfl] at h
        exact absurd h memberName_ne_done
      | false =>
        simp only [Bool.false_eq_true, if_false] at h
        split at h
        · split at h
          · cases h
          · split at h
            · cases h
            · exact absurd h memberName_ne_done
        · cases h

variable {σ : Type} {step : σ → String → List Char → Except Failure (σ × List Char)}
  {R : List Char × Tree → σ → σ → Prop}
  (hstep : ∀ s name cs s' rest raw, step s name cs = .ok (s', rest) →
    ∃ value, colon cs = .ok value ∧ ∃ t : Tree, t.Leads value rest ∧ R (raw, t) s s')
include hstep

/-- A step over a member starts at the colon. With the name in front of it, a whole member has been
read. -/
theorem memberLeads_of_step {s s' : σ} {name : String} {raw cs rest : List Char} (hraw : Quoted raw)
    (h : step s name cs = .ok (s', rest)) :
    ∃ t, Tree.MemberLeads (raw, t) (quote raw ++ cs) rest ∧ R (raw, t) s s' := by
  obtain ⟨value, hcolon, t, ht, hR⟩ := hstep s name cs s' rest raw h
  obtain ⟨blanks, hblanks, rfl⟩ := blank_of_colon hcolon
  exact ⟨t, ⟨[], blanks, value, blank_nil, hraw, hblanks, by simp, ht⟩, hR⟩

/-- **What a loop has read is a sequence of members**, those of an object. -/
theorem sequence_of_members {bound : List Char} {first : Bool} {s s' : σ} {cs rest : List Char}
    (h : members step bound first s cs = .ok (s', rest)) :
    ∃ ms, Sequence '\x7d' Tree.MemberLeads first ms cs rest ∧ Run R ms s s' := by
  induction bound generalizing first s cs with
  | nil => cases h
  | cons b bound ih =>
    obtain ⟨next, hnext, hround⟩ := exists_of_bind_eq_ok h
    cases next with
    | done after =>
      cases hround
      obtain ⟨blanks, hblanks, rfl⟩ := blank_of_nextMember_done hnext
      exact ⟨[], .nil hblanks, .nil _⟩
    | member name after =>
      obtain ⟨blanks, raw, hblanks, hraw, hfront⟩ := separated_of_nextMember hnext
      obtain ⟨⟨s₂, left⟩, hitem, hitems⟩ := exists_of_bind_eq_ok hround
      obtain ⟨t, ht, hR⟩ := memberLeads_of_step hstep hraw hitem
      obtain ⟨ms, hms, hrun⟩ := ih hitems
      exact ⟨(raw, t) :: ms, .cons hfront (ht.blank hblanks) hms, .cons hR hrun⟩

end Members

/-! ## Values

A value is a scalar or is read by one of the loops, with the reader itself as the step and one
bracket less to open. `ReadsValue` says so without the case distinctions of the reader, and
`leads_of_value` follows by induction on the brackets that may be opened. -/

section Push

variable {α : Type} {read : List Char → Except Failure (α × List Char)} {M : Tree → α → Prop}

/-- What is made of a tree is put in front of what has been read. -/
def Pushes (M : Tree → α → Prop) (t : Tree) (items items' : List α) : Prop :=
  ∃ x, items' = x :: items ∧ M t x

/-- What is made of a member is put in front of what has been read, with a name. -/
def PushesMember (M : Tree → α → Prop) (m : List Char × Tree) (found found' : List (String × α)) :
    Prop :=
  ∃ name x, found' = (name, x) :: found ∧ M m.2 x

/-- What a reader is used for does not change what it has taken from the text. -/
theorem leads_of_push (hread : ∀ cs x rest, read cs = .ok (x, rest) →
    ∃ t : Tree, t.Leads cs rest ∧ M t x) (items : List α) (cs : List Char) (items' : List α)
    (rest : List Char) (h : push read items cs = .ok (items', rest)) :
    ∃ t : Tree, t.Leads cs rest ∧ Pushes M t items items' := by
  obtain ⟨⟨x, after⟩, hx, heq⟩ := exists_of_bind_eq_ok h
  cases heq
  obtain ⟨t, ht, hM⟩ := hread _ _ _ hx
  exact ⟨t, ht, x, rfl, hM⟩

theorem leads_of_pushMember
    (hread : ∀ cs x rest, read cs = .ok (x, rest) → ∃ t : Tree, t.Leads cs rest ∧ M t x)
    (found : List (String × α)) (name : String) (cs : List Char) (found' : List (String × α))
    (rest raw : List Char) (h : pushMember read found name cs = .ok (found', rest)) :
    ∃ value, colon cs = .ok value
      ∧ ∃ t : Tree, t.Leads value rest ∧ PushesMember M (raw, t) found found' := by
  obtain ⟨value, hcolon, hvalue⟩ := exists_of_bind_eq_ok h
  obtain ⟨⟨x, after⟩, hx, heq⟩ := exists_of_bind_eq_ok hvalue
  cases heq
  obtain ⟨t, ht, hM⟩ := hread _ _ _ hx
  exact ⟨value, hcolon, t, ht, name, x, rfl, hM⟩

/-- A loop that puts what it reads in front of the rest has in the end one result for each tree, in
reverse. -/
theorem forall₂_of_run_pushes {ts : List Tree} {items items' : List α}
    (h : Run (Pushes M) ts items items') :
    ∃ xs, items' = xs.reverse ++ items ∧ List.Forall₂ M ts xs := by
  induction h with
  | nil items => exact ⟨[], rfl, .nil⟩
  | cons hitem _ ih =>
    obtain ⟨x, rfl, hM⟩ := hitem
    obtain ⟨xs, rfl, hall⟩ := ih
    exact ⟨x :: xs, by simp, .cons hM hall⟩

theorem forall₂_of_run_pushesMember {ms : List (List Char × Tree)}
    {found found' : List (String × α)} (h : Run (PushesMember M) ms found found') :
    ∃ xs, found' = xs.reverse ++ found ∧ List.Forall₂ (fun m x => M m.2 x.2) ms xs := by
  induction h with
  | nil found => exact ⟨[], rfl, .nil⟩
  | cons hitem _ ih =>
    obtain ⟨name, x, rfl, hM⟩ := hitem
    obtain ⟨xs, rfl, hall⟩ := ih
    exact ⟨(name, x) :: xs, by simp, .cons hM hall⟩

end Push

/-- `null`, `true` and `false` are recognised by their first letter and read to their last. -/
theorem leads_of_word {c : Char} {letters cs rest : List Char}
    (h : word letters cs = .ok ((), rest))
    (hword : c :: letters ∈ ["null".toList, "true".toList, "false".toList]) :
    ∃ token, (Tree.scalar token).Leads (c :: cs) rest := by
  rw [eq_append_of_word h]
  exact ⟨_, Tree.leads_of_spells (.scalar (.word hword)) rest⟩

/-- The minus of a number has been taken before the rest is read. -/
theorem leads_of_number {negative : Bool} {cs rest : List Char} {n : Number}
    (h : number negative cs = .ok (n, rest)) :
    ∃ token, (Tree.scalar token).Leads (if negative then '-' :: cs else cs) rest := by
  obtain ⟨numeral, hnumeral, rfl⟩ := isNumeral_of_skipNumber (skipNumber_of_number h)
  cases negative with
  | true => exact ⟨_, Tree.leads_of_spells (.scalar (.negative hnumeral)) rest⟩
  | false => exact ⟨_, Tree.leads_of_spells (.scalar (.positive hnumeral)) rest⟩

theorem leads_of_string {cs rest : List Char} {s : String} (h : string cs = .ok (s, rest)) :
    ∃ token, (Tree.scalar token).Leads ('"' :: cs) rest := by
  obtain ⟨raw, rfl, hraw⟩ := quoted_of_skipString (skipString_of_string h) rfl
  refine ⟨quote raw, [], quote raw, blank_nil, .scalar (.string hraw), ?_⟩
  simp [quote]

/-- How a scalar is read. -/
inductive ReadsScalar : List Char → Value → List Char → Prop where
  | null {cs rest : List Char} (h : word ['u', 'l', 'l'] cs = .ok ((), rest)) :
      ReadsScalar ('n' :: cs) .null rest
  | isTrue {cs rest : List Char} (h : word ['r', 'u', 'e'] cs = .ok ((), rest)) :
      ReadsScalar ('t' :: cs) (.boolean true) rest
  | isFalse {cs rest : List Char} (h : word ['a', 'l', 's', 'e'] cs = .ok ((), rest)) :
      ReadsScalar ('f' :: cs) (.boolean false) rest
  | negative {cs rest : List Char} {n : Number} (h : number true cs = .ok (n, rest)) :
      ReadsScalar ('-' :: cs) n.toValue rest
  | positive {cs rest : List Char} {n : Number} (h : number false cs = .ok (n, rest)) :
      ReadsScalar cs n.toValue rest
  | string {cs rest : List Char} {s : String} (h : Json.string cs = .ok (s, rest)) :
      ReadsScalar ('"' :: cs) (.string s) rest

/-- The six ways are told apart by the first character, in the order of the reader. -/
theorem readsScalar_of_scalar {cs rest : List Char} {v : Value} (h : scalar cs = .ok (v, rest)) :
    ReadsScalar cs v rest := by
  cases cs with
  | nil => cases h
  | cons c after =>
    rw [scalar] at h
    split_ifs at h with hn ht hf hminus hdigit hquote
    · obtain ⟨⟨⟨⟩, left⟩, hread, heq⟩ := exists_of_map_eq_ok h
      cases heq
      exact hn ▸ .null hread
    · obtain ⟨⟨⟨⟩, left⟩, hread, heq⟩ := exists_of_map_eq_ok h
      cases heq
      exact ht ▸ .isTrue hread
    · obtain ⟨⟨⟨⟩, left⟩, hread, heq⟩ := exists_of_map_eq_ok h
      cases heq
      exact hf ▸ .isFalse hread
    · obtain ⟨⟨n, left⟩, hread, heq⟩ := exists_of_map_eq_ok h
      cases heq
      exact hminus ▸ .negative hread
    · obtain ⟨⟨n, left⟩, hread, heq⟩ := exists_of_map_eq_ok h
      cases heq
      exact .positive hread
    · obtain ⟨⟨s, left⟩, hread, heq⟩ := exists_of_map_eq_ok h
      cases heq
      exact hquote ▸ .string hread
    · cases h

theorem leads_of_scalar {cs rest : List Char} {v : Value} (h : scalar cs = .ok (v, rest)) :
    ∃ token, (Tree.scalar token).Leads cs rest := by
  cases readsScalar_of_scalar h with
  | null h => exact leads_of_word h List.mem_cons_self
  | isTrue h => exact leads_of_word h (List.mem_cons_of_mem _ List.mem_cons_self)
  | isFalse h =>
    exact leads_of_word h (List.mem_cons_of_mem _ (List.mem_cons_of_mem _ List.mem_cons_self))
  | negative h => exact leads_of_number h
  | positive h => exact leads_of_number h
  | string h => exact leads_of_string h

theorem nesting_of_scalar {cs rest : List Char} {v : Value} (h : scalar cs = .ok (v, rest)) :
    v.nesting = 0 := by
  have hnumber (n : Number) : n.toValue.nesting = 0 := by cases n <;> rfl
  cases readsScalar_of_scalar h with
  | null | isTrue | isFalse | string => rfl
  | negative | positive => exact hnumber _

/-- **How a value is read**: a scalar, or an array or object by a loop whose step reads one level
less deeply. -/
inductive ReadsValue : Nat → List Char → Value → List Char → Prop where
  | scalar {depth : Nat} {blanks cs rest : List Char} {v : Value} (hblanks : Blank blanks)
      (h : Json.scalar cs = .ok (v, rest)) : ReadsValue depth (blanks ++ cs) v rest
  | array {depth : Nat} {blanks cs rest : List Char} {items : List Value} (hblanks : Blank blanks)
      (h : elements (push (value depth)) cs true [] cs = .ok (items, rest)) :
      ReadsValue (depth + 1) (blanks ++ '[' :: cs) (.array items.reverse) rest
  | object {depth : Nat} {blanks cs rest : List Char} {found : List (String × Value)}
      (hblanks : Blank blanks)
      (h : members (pushMember (value depth)) cs true [] cs = .ok (found, rest)) :
      ReadsValue (depth + 1) (blanks ++ '\x7b' :: cs) (.object found.reverse) rest

/-- With no bracket left to open, arrays and objects are refused; otherwise there is one less for
what is in them. -/
theorem readsValue_of_value {depth : Nat} {cs rest : List Char} {v : Value}
    (h : value depth cs = .ok (v, rest)) : ReadsValue depth cs v rest := by
  unfold value at h
  split at h
  · cases h
  · next c after hskip =>
    -- behind the blanks the first character tells array, object and scalar apart
    obtain ⟨blanks, hblanks, rfl⟩ := exists_blank_of_skipSpace hskip
    split at h
    · next hbracket =>
      subst hbracket
      cases depth with
      | zero => cases h
      | succ depth =>
        obtain ⟨⟨items, left⟩, hitems, heq⟩ := exists_of_bind_eq_ok h
        cases heq
        exact .array hblanks hitems
    split at h
    · next hbrace =>
      subst hbrace
      cases depth with
      | zero => cases h
      | succ depth =>
        obtain ⟨⟨found, left⟩, hfound, heq⟩ := exists_of_bind_eq_ok h
        cases heq
        exact .object hblanks hfound
    · exact .scalar hblanks h

theorem greatest_eq_of_forall₂ {ι κ : Type} {measure : ι → Nat} {measure' : κ → Nat} {is : List ι}
    {js : List κ} (h : List.Forall₂ (fun i j => measure i = measure' j) is js) :
    greatest measure is = greatest measure' js := by
  induction h with
  | nil => rfl
  | cons hitem _ ih => rw [greatest, greatest, hitem, ih]

/-! The nesting of parts is the greatest one, of values in memory as of trees. -/

theorem itemsNesting_eq_greatest (vs : List Value) :
    itemsNesting vs = greatest Value.nesting vs := by
  induction vs with
  | nil => rfl
  | cons v vs ih => rw [itemsNesting, greatest, ih]

theorem membersNesting_eq_greatest (ms : List (String × Value)) :
    membersNesting ms = greatest (·.2.nesting) ms := by
  induction ms with
  | nil => rfl
  | cons m ms ih => rw [membersNesting, greatest, ih]

theorem Tree.itemsNesting_eq_greatest (ts : List Tree) :
    itemsNesting ts = greatest Tree.nesting ts := by
  induction ts with
  | nil => rfl
  | cons t ts ih => rw [itemsNesting, greatest, ih]

theorem Tree.membersNesting_eq_greatest (ms : List (List Char × Tree)) :
    membersNesting ms = greatest (·.2.nesting) ms := by
  induction ms with
  | nil => rfl
  | cons m ms ih => rw [membersNesting, greatest, ih]

/-- **A value is read from a text of a tree with the same nesting.** -/
theorem leads_of_value {depth : Nat} {cs rest : List Char} {v : Value}
    (h : value depth cs = .ok (v, rest)) : ∃ t : Tree, t.Leads cs rest ∧ t.nesting = v.nesting := by
  -- Both loops run with one bracket less, and their step is the reader itself.
  induction depth using Nat.strongRecOn generalizing cs rest v with
  | ind depth ih =>
    cases readsValue_of_value h with
    | scalar hblanks h =>
      obtain ⟨token, htoken⟩ := leads_of_scalar h
      exact ⟨_, htoken.blank hblanks, (nesting_of_scalar h).symm⟩
    | @array depth _ _ _ _ hblanks h =>
      obtain ⟨ts, hts, hrun⟩ :=
        sequence_of_elements (leads_of_push fun _ _ _ => ih depth (by omega)) h
      obtain ⟨vs, rfl, hall⟩ := forall₂_of_run_pushes hrun
      refine ⟨_, (Tree.leads_array hts).blank hblanks, ?_⟩
      rw [Tree.nesting, Value.nesting, Tree.itemsNesting_eq_greatest, itemsNesting_eq_greatest,
        greatest_eq_of_forall₂ hall]
      simp
    | @object depth _ _ _ _ hblanks h =>
      obtain ⟨ms, hms, hrun⟩ := sequence_of_members
        (leads_of_pushMember fun _ _ _ => ih depth (by omega)) h
      obtain ⟨vs, rfl, hall⟩ := forall₂_of_run_pushesMember hrun
      refine ⟨_, (Tree.leads_object hms).blank hblanks, ?_⟩
      rw [Tree.nesting, Value.nesting, Tree.membersNesting_eq_greatest, membersNesting_eq_greatest,
        greatest_eq_of_forall₂ hall]
      simp

/-! ## Values that are passed over

A member that nobody asks for is passed over without being read into memory. The loop is another
one, since it collects nothing and has causes of its own, but it stops at the same places. -/

/-- Passing over a name takes its blanks, the name, more blanks and the colon. -/
theorem quoted_of_skipName {cs value : List Char} (h : skipName cs = .ok value) :
    ∃ before raw behind, Blank before ∧ Quoted raw ∧ Blank behind
      ∧ cs = before ++ quote raw ++ behind ++ ':' :: value := by
  rw [skipName] at h
  split at h
  · cases h
  · next c after hskip =>
    obtain ⟨before, hbefore, rfl⟩ := exists_blank_of_skipSpace hskip
    split at h
    · next hquote =>
      subst hquote
      obtain ⟨left, hname, hcolon⟩ := exists_of_bind_eq_ok h
      obtain ⟨raw, rfl, hraw⟩ := quoted_of_skipString hname rfl
      split at hcolon
      · cases hcolon
      · next hskip =>
        cases hcolon
        obtain ⟨behind, hbehind, rfl⟩ := exists_blank_of_skipSpace hskip
        exact ⟨before, raw, behind, hbefore, hraw, hbehind, by simp [quote]⟩
      · cases hcolon
    · cases h

section SkipItems

variable {ι : Type} {close : Char} {unclosed ended : Cause}
  {item : List Char → Except Failure (List Char)} {Item : ι → List Char → List Char → Prop}
  (hitem : ∀ cs rest, item cs = .ok rest → ∃ i, Item i cs rest)
  (hblank : ∀ i blanks cs rest, Blank blanks → Item i cs rest → Item i (blanks ++ cs) rest)
include hitem hblank

/-- Whatever the brackets, and whatever the causes of refusal, a loop that passes over items has
passed over a sequence of them. -/
theorem sequence_of_skipItems {bound : List Char} {first : Bool} {cs rest : List Char}
    (h : skipItems close unclosed ended item bound first cs = .ok rest) :
    ∃ is, Sequence close Item first is cs rest := by
  induction bound generalizing first cs with
  | nil => cases h
  | cons b bound ih =>
    rw [skipItems] at h
    split at h
    · cases h
    · next c after hskip =>
      obtain ⟨blanks, hblanks, rfl⟩ := exists_blank_of_skipSpace hskip
      split at h
      · next hclose =>
        cases h
        subst hclose
        exact ⟨[], .nil hblanks⟩
      -- The blanks in front of the first item are its own, the others are in front of a comma.
      cases first with
      | true =>
        obtain ⟨left, hfirst, hitems⟩ := exists_of_bind_eq_ok h
        obtain ⟨i, hi⟩ := hitem _ _ hfirst
        obtain ⟨is, his⟩ := ih hitems
        exact ⟨i :: is, .cons (.first _) (hblank _ _ _ _ hblanks hi) his⟩
      | false =>
        simp only [Bool.false_eq_true, if_false] at h
        split at h
        · next hcomma =>
          subst hcomma
          obtain ⟨left, hfirst, hitems⟩ := exists_of_bind_eq_ok h
          obtain ⟨i, hi⟩ := hitem _ _ hfirst
          obtain ⟨is, his⟩ := ih hitems
          exact ⟨i :: is, .cons (.later hblanks _) hi his⟩
        · cases h

end SkipItems

/-- **What is passed over is JSON.** -/
theorem leads_of_skipValue {depth : Nat} {cs rest : List Char} (h : skipValue depth cs = .ok rest) :
    ∃ t : Tree, t.Leads cs rest := by
  induction depth using Nat.strongRecOn generalizing cs rest with
  | ind depth ih =>
    unfold skipValue at h
    split at h
    · cases h
    · next c after hskip =>
      obtain ⟨blanks, hblanks, rfl⟩ := exists_blank_of_skipSpace hskip
      split at h
      · next hbracket =>
        subst hbracket
        cases depth with
        | zero => cases h
        | succ depth =>
          have hitem : ∀ cs rest, skipValue depth cs = .ok rest → ∃ t : Tree, t.Leads cs rest :=
            fun _ _ => ih depth (by omega)
          obtain ⟨ts, hts⟩ := sequence_of_skipItems hitem (fun _ _ _ _ hb ht => ht.blank hb) h
          exact ⟨_, (Tree.leads_array hts).blank hblanks⟩
      split at h
      · next hbrace =>
        subst hbrace
        cases depth with
        | zero => cases h
        | succ depth =>
          -- The step of this loop passes over a name and its colon before the value.
          have hmember : ∀ cs rest, (do skipValue depth (← skipName cs)) = .ok rest →
              ∃ m, Tree.MemberLeads m cs rest := by
            intro cs rest h
            obtain ⟨value, hname, hvalue⟩ := exists_of_bind_eq_ok h
            obtain ⟨before, raw, behind, hbefore, hraw, hbehind, rfl⟩ := quoted_of_skipName hname
            obtain ⟨t, ht⟩ := ih depth (by omega) hvalue
            exact ⟨(raw, t), before, behind, value, hbefore, hraw, hbehind, rfl, ht⟩
          obtain ⟨ms, hms⟩ := sequence_of_skipItems hmember (fun _ _ _ _ hb hm => hm.blank hb) h
          exact ⟨_, (Tree.leads_object hms).blank hblanks⟩
      · obtain ⟨token, htoken, hcs⟩ := isScalar_of_skipScalar h
        rw [hcs]
        exact ⟨_, (Tree.leads_of_spells (.scalar htoken) rest).blank hblanks⟩

end ArithScript.Json
