import ArithScript.Proofs.DecodingDepth
import ArithScript.Proofs.JsonText
import ArithScript.Proofs.TokenEnds

/-!
# Reading the texts of a tree

What a reader makes of a tree is the same in all texts of the tree: blanks are passed over, and
nothing behind the tree has an influence on it. `Makes` says so, of success and of failure. The
loops over elements and members are folds over the trees of these (`elements_sequence`,
`members_sequence`), the value that is read into memory is `Tree.value?`, and a tree that nobody
asks for can always be passed over (`skipValue_leads`).
-/

set_option autoImplicit false

namespace ArithScript.Json

variable {α β σ ι : Type}

/-! ## Texts of trees from the front

`Leads` says that there is a text of the tree behind some blanks. Readers go by the first character,
so they need to know which form the text has: `Fronts` tells scalars, arrays and objects apart, each
with its parts as a `Sequence`. -/

theorem skipSpace_append {blanks : List Char} (h : Blank blanks) (cs : List Char) :
    skipSpace (blanks ++ cs) = skipSpace cs :=
  List.dropWhile_append_of_pos h

/-- A scalar starts like a value, and like no array and no object. -/
theorem IsScalar.exists_cons {token : List Char} (h : IsScalar token) :
    ∃ c cs, token = c :: cs ∧ opensValue c = true ∧ c ≠ '[' ∧ c ≠ '\x7b' := by
  cases h with
  | word h =>
    simp only [List.mem_cons, List.not_mem_nil, or_false] at h
    rcases h with rfl | rfl | rfl
    all_goals exact ⟨_, _, rfl, by decide⟩
  | positive h =>
    obtain ⟨c, cs, rfl, hc⟩ := h.exists_cons
    exact ⟨c, cs, rfl, by simp [opensValue, hc], ne_of_digit hc rfl, ne_of_digit hc rfl⟩
  | negative h => exact ⟨_, _, rfl, by decide⟩
  | string h => exact ⟨_, _, rfl, by decide⟩

/-- A scalar begins with a character that is neither a blank nor a closing bracket. -/
theorem IsScalar.opening {token : List Char} (h : IsScalar token) : Opening token := by
  obtain ⟨c, cs, rfl, hopens, -⟩ := h.exists_cons
  exact ⟨c, cs, rfl, hopens⟩

namespace Tree

variable {t : Tree} {m : List Char × Tree} {cs rest : List Char}

/-- A tree stands at the front of a text, without blanks before it. -/
inductive Fronts : Tree → List Char → List Char → Prop where
  | scalar {token rest : List Char} (h : IsScalar token) :
      Fronts (.scalar token) (token ++ rest) rest
  | array {ts : List Tree} {cs rest : List Char} (h : Sequence ']' Leads true ts cs rest) :
      Fronts (.array ts) ('[' :: cs) rest
  | object {ms : List (List Char × Tree)} {cs rest : List Char}
      (h : Sequence '\x7d' MemberLeads true ms cs rest) : Fronts (.object ms) ('\x7b' :: cs) rest

theorem Fronts.opening (h : t.Fronts cs rest) : Opening cs := by
  cases h with
  | scalar h => exact h.opening.append _
  | array => exact ⟨_, _, rfl, by decide⟩
  | object => exact ⟨_, _, rfl, by decide⟩

theorem Fronts.leads (h : t.Fronts cs rest) : t.Leads cs rest := by
  cases h with
  | scalar h => exact leads_of_spells (.scalar h) rest
  | array h => exact leads_array h
  | object h => exact leads_object h

/-- The blanks behind an item stand in front of the comma or the bracket that follows. -/
theorem sequence_of_itemsSpell {ts : List Tree} {texts : List (List Char)} (h : ItemsSpell ts texts)
    {blanks : List Char} (hblanks : Blank blanks) :
    Sequence ']' Leads false ts (blanks ++ (texts.flatMap (',' :: ·) ++ ']' :: rest)) rest := by
  induction texts generalizing ts blanks with
  | nil =>
    cases h
    exact .nil hblanks
  | cons text texts ih =>
    cases h with
    | @cons item items before text after _ hbefore hitem hafter hitems =>
      refine .cons (.later hblanks _) ⟨before, text, hbefore, hitem, ?_⟩ (ih hitems hafter)
      simp [List.flatMap_def]

theorem sequence_of_membersSpell {ms : List (List Char × Tree)} {texts : List (List Char)}
    (h : MembersSpell ms texts) {blanks : List Char} (hblanks : Blank blanks) :
    Sequence '\x7d' MemberLeads false ms
      (blanks ++ (texts.flatMap (',' :: ·) ++ '\x7d' :: rest)) rest := by
  induction texts generalizing ms blanks with
  | nil =>
    cases h
    exact .nil hblanks
  | cons text texts ih =>
    cases h with
    | @cons name item found before behind inFront text after _ hbefore hname hbehind hinFront hitem
        hafter hfound =>
      refine .cons (.later hblanks _) ⟨before, behind, _, hbefore, hname, hbehind, ?_,
        inFront, text, hinFront, hitem, rfl⟩ (ih hfound hafter)
      simp [List.flatMap_def]

theorem fronts_of_spells {text : List Char} (h : t.Spells text) (rest : List Char) :
    t.Fronts (text ++ rest) rest := by
  cases h with
  | scalar h => exact .scalar h
  | @emptyArray blanks h =>
    have htext : '[' :: (blanks ++ [']']) ++ rest = '[' :: (blanks ++ ']' :: rest) := by simp
    exact htext ▸ .array (.nil h)
  | array h =>
    cases h with
    | @cons item items before text after texts hbefore hitem hafter hitems =>
      rw [bracketed_append, intercalate_comma, List.append_assoc, List.append_assoc]
      exact .array (.cons (.first _) ⟨before, text, hbefore, hitem, rfl⟩
        (sequence_of_itemsSpell hitems hafter))
  | @emptyObject blanks h =>
    have htext : '\x7b' :: (blanks ++ ['\x7d']) ++ rest = '\x7b' :: (blanks ++ '\x7d' :: rest) := by
      simp
    exact htext ▸ .object (.nil h)
  | object h =>
    cases h with
    | @cons name item found before behind inFront text after texts hbefore hname hbehind hinFront
        hitem hafter hfound =>
      -- the same text with the first member taken out of the brackets
      have htext : bracketed '\x7b' '\x7d'
            ((before ++ quote name ++ behind ++ ':' :: (inFront ++ text ++ after)) :: texts) ++ rest
          = '\x7b' :: (before ++ quote name ++ behind ++ ':' :: (inFront ++ text
              ++ (after ++ (texts.flatMap (',' :: ·) ++ '\x7d' :: rest)))) := by
        rw [bracketed_append, intercalate_comma]
        simp
      rw [htext]
      exact .object (.cons (.first _) ⟨before, behind, _, hbefore, hname, hbehind, rfl,
        inFront, text, hinFront, hitem, rfl⟩ (sequence_of_membersSpell hfound hafter))

/-- Behind its blanks a text that a tree leads is fronted by it. -/
theorem Leads.fronts (h : t.Leads cs rest) : t.Fronts (skipSpace cs) rest := by
  obtain ⟨before, text, hbefore, htext, rfl⟩ := h
  have hfronts := fronts_of_spells htext rest
  rw [List.append_assoc, skipSpace_append hbefore, hfronts.opening.skipSpace]
  exact hfronts

/-- Reading a tree makes a text shorter, so no loop over trees can go on for ever. -/
theorem Leads.length_lt (h : t.Leads cs rest) : rest.length < cs.length := by
  obtain ⟨before, text, -, htext, rfl⟩ := h
  have hopening := (fronts_of_spells htext []).opening
  rw [List.append_nil] at hopening
  obtain ⟨c, tail, rfl, -⟩ := hopening
  simp only [List.length_append, List.length_cons]
  omega

theorem MemberLeads.length_lt (h : MemberLeads m cs rest) : rest.length < cs.length := by
  obtain ⟨before, behind, value, -, -, -, rfl, hvalue⟩ := h
  have hlength := hvalue.length_lt
  simp only [List.length_append, List.length_cons]
  omega

end Tree

section Sequences

variable {close : Char} {Item : ι → List Char → List Char → Prop} {is : List ι}
  {cs rest : List Char}

/-- What follows an item ends it. -/
theorem Sequence.ends (h : Sequence close Item false is cs rest)
    (hclose : close = ']' ∨ close = '\x7d') : Ends cs := by
  cases h with
  | nil h => exact h.ends_append (ends_cons (.inr (.inr hclose)) _)
  | cons hfront =>
    cases hfront with
    | later hblanks => exact hblanks.ends_append (ends_cons (.inr (.inl rfl)) _)

/-- Each item takes a character, and the closing bracket is left for the round that finds it. -/
theorem Sequence.length_lt {first : Bool} (h : Sequence close Item first is cs rest)
    (hitem : ∀ {i cs rest}, Item i cs rest → rest.length < cs.length) :
    is.length < cs.length := by
  induction h with
  | nil =>
    rw [List.length_append, List.length_cons, List.length_nil]
    omega
  | cons hfront hi _ ih =>
    have hi := hitem hi
    cases hfront with
    | first =>
      rw [List.length_cons]
      omega
    | later hblanks =>
      rw [List.length_append, List.length_cons, List.length_cons]
      omega

end Sequences

/-! ## What readers make of trees

`Makes read t x` says what the reader makes of a tree, or that it refuses it. The text behind the
tree has to end tokens (`Ends`), and is left as it is. -/

/-- **A reader makes something of a tree**, or fails on it, in all texts of the tree alike. -/
def Makes (read : List Char → Except Failure (α × List Char)) (t : Tree) (x : Option α) : Prop :=
  ∀ ⦃cs rest : List Char⦄, t.Leads cs rest → Ends rest → (read cs).toOption = x.map (·, rest)

/-- The same for a reader of a member from the colon on. -/
def MakesMember (read : List Char → Except Failure (α × List Char)) (t : Tree)
    (x : Option α) : Prop :=
  ∀ ⦃behind cs rest : List Char⦄, Blank behind → t.Leads cs rest → Ends rest →
    (read (behind ++ ':' :: cs)).toOption = x.map (·, rest)

section Makes

variable {read : List Char → Except Failure (α × List Char)} {t : Tree} {x : Option α}

/-- Only successes are compared. Two readers that refuse the same texts for different causes make
the same of a tree. -/
theorem Makes.congr {read' : List Char → Except Failure (α × List Char)} (h : Makes read t x)
    (heq : ∀ cs, (read' cs).toOption = (read cs).toOption) : Makes read' t x := by
  intro cs rest ht hrest
  rw [heq cs]
  exact h ht hrest

/-- What is made of a result afterwards is made of the tree. -/
theorem Makes.bind {next : α × List Char → Except Failure (β × List Char)} {f : α → Option β}
    (h : Makes read t x) (hnext : ∀ a rest, (next (a, rest)).toOption = (f a).map (·, rest)) :
    Makes (fun cs => read cs >>= next) t (x.bind f) := by
  intro cs rest ht hrest
  rw [toOption_bind, h ht hrest, Option.bind_map, Option.map_bind]
  exact congrArg x.bind (funext fun a => hnext a rest)

theorem Makes.map (h : Makes read t x) (f : α → β) :
    Makes (fun cs => (read cs).map fun r => (f r.1, r.2)) t (x.map f) := by
  intro cs rest ht hrest
  rw [toOption_map, h ht hrest, Option.map_map, Option.map_map]
  rfl

/-- A reader of what is in a member, behind the colon. -/
theorem makesMember_colon (h : Makes read t x) : MakesMember (fun cs => colon cs >>= read) t x := by
  intro behind cs rest hbehind ht hrest
  have hcolon : colon (behind ++ ':' :: cs) = .ok cs := by
    rw [← colon_cons cs, colon, colon, skipSpace_append hbehind]
  rw [toOption_bind, hcolon]
  exact h ht hrest

end Makes

/-! ## Loops

Both loops are folds over the trees in them. The induction is on the sequence: each round finds the
next item, makes what its step makes of it, and goes on behind it. If a step fails, the fold and the
loop fail with it. -/

section Elements

variable {step : σ → List Char → Except Failure (σ × List Char)} {make : σ → Tree → Option σ}
  {bound cs rest : List Char}

/-- In front of a tree the next element is found, behind its comma and blanks. -/
theorem nextElement_separated {t : Tree} {first : Bool} {inner : List Char}
    (hfront : Separated first cs inner) (ht : t.Leads inner rest) :
    nextElement first cs = .ok (.element (skipSpace inner)) := by
  have hskip := ht.fronts.opening.skipSpace
  cases hfront with
  | first => rw [← nextElement_first ht.fronts.opening, nextElement, nextElement, hskip]
  | later hblanks =>
    rw [← nextElement_comma ht.fronts.opening, nextElement, nextElement, skipSpace_append hblanks,
      skipSpace_cons (by decide), skipSpace_cons (by decide)]
    simp only [hskip]
    rfl

theorem nextElement_done {blanks : List Char} (hblanks : Blank blanks) (first : Bool)
    (rest : List Char) :
    nextElement first (blanks ++ ']' :: rest) = .ok (.done rest) := by
  rw [← nextElement_close first rest, nextElement, nextElement, skipSpace_append hblanks]

/-- One round of the loop. -/
theorem elements_round {first : Bool} {after : List Char} {x : Option σ} {s : σ} {b : Char}
    (hnext : nextElement first cs = .ok (.element after))
    (hstep : (step s after).toOption = x.map (·, rest)) :
    (elements step (b :: bound) first s cs).toOption
      = x.bind fun s => (elements step bound false s rest).toOption := by
  have hround : elements step (b :: bound) first s cs
      = step s after >>= fun r => elements step bound false r.1 r.2 := by
    rw [elements, hnext]
    rfl
  rw [hround, toOption_bind, hstep, Option.bind_map]
  rfl

/-- **A loop over the elements of an array** is a fold over their trees. -/
theorem elements_sequence {ts : List Tree} {first : Bool}
    (h : Sequence ']' Tree.Leads first ts cs rest)
    (hstep : ∀ t ∈ ts, ∀ s, Makes (step s) t (make s t))
    (hbound : ts.length < bound.length) (s : σ) :
    (elements step bound first s cs).toOption = (ts.foldlM make s).map (·, rest) := by
  induction h generalizing bound s with
  | nil hblanks =>
    obtain ⟨b, bound, rfl⟩ := List.exists_cons_of_length_pos hbound
    rw [elements, nextElement_done hblanks]
    rfl
  | cons hfront ht hts ih =>
    obtain ⟨b, bound, rfl⟩ := List.exists_cons_of_length_pos (Nat.zero_lt_of_lt hbound)
    obtain ⟨hfirst, hothers⟩ := List.forall_mem_cons.mp hstep
    rw [elements_round (nextElement_separated hfront ht)
      (hfirst s ht.fronts.leads (hts.ends (.inl rfl))), List.foldlM_cons]
    simp only [ih hothers (Nat.lt_of_succ_lt_succ hbound)]
    exact Option.map_bind.symm

end Elements

section Members

variable {step : σ → String → List Char → Except Failure (σ × List Char)}
    {bound cs rest : List Char}

/-- The text that stands between quotation marks, if it can be read. -/
def text? (raw : List Char) : Option String := (string (raw ++ ['"'])).toOption.map Prod.fst

/-- What a quoted string stands for does not depend on what is behind it. `text?` is what it stands
for by itself. -/
theorem string_quoted {raw : List Char} (h : Quoted raw) (rest : List Char) :
    (string (raw ++ '"' :: rest)).toOption = (text? raw).map (·, rest) :=
  (settled_string h).toOption_eq trivial trivial

theorem memberName_quoted {raw : List Char} (h : Quoted raw) (rest : List Char) :
    (memberName ('"' :: (raw ++ '"' :: rest))).toOption
      = (text? raw).map (NextMember.member · rest) := by
  rw [memberName, if_pos rfl, toOption_map, string_quoted h, Option.map_map]
  rfl

theorem nextMember_done {blanks : List Char} (hblanks : Blank blanks) (first : Bool)
    (rest : List Char) :
    nextMember first (blanks ++ '\x7d' :: rest) = .ok (.done rest) := by
  rw [← nextMember_close first rest, nextMember, nextMember, skipSpace_append hblanks]

/-- What is in front of a member, and how it goes on. -/
theorem Tree.MemberLeads.exists_skipSpace {m : List Char × Tree} (h : Tree.MemberLeads m cs rest) :
    ∃ behind value, Quoted m.1 ∧ Blank behind ∧ m.2.Leads value rest
      ∧ skipSpace cs = '"' :: (m.1 ++ '"' :: (behind ++ ':' :: value)) := by
  obtain ⟨before, behind, value, hbefore, hname, hbehind, rfl, hvalue⟩ := h
  refine ⟨behind, value, hname, hbehind, hvalue, ?_⟩
  rw [List.append_assoc, List.append_assoc, skipSpace_append hbefore, quote, List.cons_append,
    skipSpace_cons (by decide)]
  simp

/-- One round of the loop. -/
theorem members_round {first : Bool} {after : List Char} {x : Option String}
    {y : String → Option σ} {s : σ} {b : Char}
    (hnext : (nextMember first cs).toOption = x.map (NextMember.member · after))
    (hstep : ∀ name, (step s name after).toOption = (y name).map (·, rest)) :
    (members step (b :: bound) first s cs).toOption
      = (x.bind y).bind fun s => (members step bound false s rest).toOption := by
  have hround (name : String) :
      (step s name after >>= fun r => members step bound false r.1 r.2).toOption
      = (y name).bind fun s => (members step bound false s rest).toOption := by
    rw [toOption_bind, hstep, Option.bind_map]
    rfl
  rw [members, toOption_bind, hnext, Option.bind_map, Option.bind_assoc]
  exact congrArg x.bind (funext hround)

/-- The next member, by its name and what follows that. -/
theorem nextMember_separated {m : List Char × Tree} {first : Bool} {inner : List Char}
    (hfront : Separated first cs inner) (hm : Tree.MemberLeads m inner rest) :
    ∃ behind value, Blank behind ∧ m.2.Leads value rest
      ∧ (nextMember first cs).toOption
        = (text? m.1).map (NextMember.member · (behind ++ ':' :: value)) := by
  obtain ⟨behind, value, hname, hbehind, hvalue, hskip⟩ := hm.exists_skipSpace
  refine ⟨behind, value, hbehind, hvalue, ?_⟩
  rw [← memberName_quoted hname, nextMember]
  cases hfront with
  | first =>
    simp only [hskip]
    rfl
  | later hblanks =>
    rw [skipSpace_append hblanks, skipSpace_cons (by decide)]
    simp only [hskip]
    rfl

/-- **A loop over the members of an object** is a fold over their names and trees. -/
theorem members_sequence (make : σ → String → Tree → Option σ) {ms : List (List Char × Tree)}
    {first : Bool} (h : Sequence '\x7d' Tree.MemberLeads first ms cs rest)
    (hstep : ∀ m ∈ ms, ∀ s name, MakesMember (step s name) m.2 (make s name m.2))
    (hbound : ms.length < bound.length) (s : σ) :
    (members step bound first s cs).toOption
      = (ms.foldlM (fun s m => (text? m.1).bind fun name => make s name m.2) s).map (·, rest) := by
  induction h generalizing bound s with
  | nil hblanks =>
    obtain ⟨b, bound, rfl⟩ := List.exists_cons_of_length_pos hbound
    rw [members, nextMember_done hblanks]
    rfl
  | cons hfront hm hms ih =>
    obtain ⟨b, bound, rfl⟩ := List.exists_cons_of_length_pos (Nat.zero_lt_of_lt hbound)
    obtain ⟨hfirst, hothers⟩ := List.forall_mem_cons.mp hstep
    obtain ⟨behind, value, hbehind, hvalue, hnext⟩ := nextMember_separated hfront hm
    rw [members_round hnext fun name => hfirst s name hbehind hvalue (hms.ends (.inr rfl)),
      List.foldlM_cons]
    simp only [ih hothers (Nat.lt_of_succ_lt_succ hbound)]
    exact Option.map_bind.symm

end Members

/-! ## Values

Into memory every tree is read as it is, if its strings and numbers denote something. `Tree.value?`
says what it is read as, without a reader. -/

namespace Tree

/-- Whoever may open all brackets of an array may open one, and then all of its elements. -/
theorem exists_of_array_nesting_le {ts : List Tree} {n : Nat} (h : (array ts).nesting ≤ n) :
    ∃ k, n = k + 1 ∧ ∀ t ∈ ts, t.nesting ≤ k := by
  rw [nesting] at h
  obtain ⟨k, rfl⟩ := Nat.exists_eq_add_of_le' (Nat.le_trans (Nat.le_add_right 1 _) h)
  exact ⟨k, rfl, itemsNesting_le_iff.mp (by omega)⟩

theorem exists_of_object_nesting_le {ms : List (List Char × Tree)} {n : Nat}
    (h : (object ms).nesting ≤ n) :
    ∃ k, n = k + 1 ∧ ∀ m ∈ ms, m.2.nesting ≤ k := by
  rw [nesting] at h
  obtain ⟨k, rfl⟩ := Nat.exists_eq_add_of_le' (Nat.le_trans (Nat.le_add_right 1 _) h)
  exact ⟨k, rfl, membersNesting_le_iff.mp (by omega)⟩

mutual

/-- **The value of a tree**, if all its numbers and texts can be read. -/
def value? : Tree → Option Value
  | .scalar token => (Json.scalar token).toOption.map Prod.fst
  | .array ts => (itemValues? ts).map .array
  | .object ms => (memberValues? ms).map .object

/-- The values of the elements of an array. -/
def itemValues? : List Tree → Option (List Value)
  | [] => some []
  | t :: ts => t.value?.bind fun v => (itemValues? ts).map (v :: ·)

/-- The values of the members of an object, with their names. -/
def memberValues? : List (List Char × Tree) → Option (List (String × Value))
  | [] => some []
  | (raw, t) :: ms =>
    ((text? raw).bind fun name => t.value?.map (name, ·)).bind
      fun m => (memberValues? ms).map (m :: ·)

end

/-- The name and the value of a member. -/
def memberValue? (m : List Char × Tree) : Option (String × Value) :=
  (text? m.1).bind fun name => m.2.value?.map (name, ·)

end Tree

section Push

variable {read : List Char → Except Failure (α × List Char)} {t : Tree} {x : Option α}
    (h : Makes read t x)
include h

theorem makes_push (items : List α) : Makes (push read items) t (x.map (· :: items)) := by
  rw [Option.map_eq_bind]
  exact h.bind fun a rest => rfl

theorem makesMember_pushMember (found : List (String × α)) (name : String) :
    MakesMember (pushMember read found name) t (x.map fun v => (name, v) :: found) := by
  rw [Option.map_eq_bind]
  exact makesMember_colon (h.bind fun a rest => rfl)

end Push

/-- Elements are pushed in front of one another. -/
theorem foldlM_push {make : ι → Option α} (is : List ι) (items : List α) :
    is.foldlM (fun items i => (make i).map (· :: items)) items
      = (is.mapM make).map (·.reverse ++ items) := by
  induction is generalizing items with
  | nil => rfl
  | cons i is ih =>
    rw [List.foldlM_cons, List.mapM_cons]
    cases make i with
    | none => rfl
    | some x =>
      show List.foldlM _ (x :: items) is = _
      rw [ih]
      cases is.mapM make with
      | none => rfl
      | some xs => simp

/-- Collecting members one after the other comes to reading all of them, with their names. -/
theorem Tree.foldlM_pushMember (ms : List (List Char × Tree)) (found : List (String × Value)) :
    ms.foldlM (fun found m => (text? m.1).bind fun name => m.2.value?.map
      fun v => (name, v) :: found) found
      = (ms.mapM memberValue?).map (·.reverse ++ found) := by
  rw [← foldlM_push]
  simp only [memberValue?, Option.map_bind, Function.comp_def, Option.map_map]

theorem Tree.itemValues?_eq_mapM (ts : List Tree) : itemValues? ts = ts.mapM value? := by
  induction ts with
  | nil => rfl
  | cons t ts ih =>
    rw [itemValues?, ih, List.mapM_cons]
    simp only [Option.map_eq_bind]
    rfl

theorem Tree.memberValues?_eq_mapM (ms : List (List Char × Tree)) :
    memberValues? ms = ms.mapM memberValue? := by
  induction ms with
  | nil => rfl
  | cons m ms ih =>
    rw [memberValues?, ih, List.mapM_cons]
    show (memberValue? m).bind (fun v => (ms.mapM memberValue?).map (v :: ·)) = _
    simp only [Option.map_eq_bind]
    rfl

theorem value_skipSpace {cs : List Char} (h : Opening (skipSpace cs)) (n : Nat) :
    value n cs = value n (skipSpace cs) := by
  rw [value, value, h.skipSpace]

/-- At a scalar the reader of values is the reader of scalars, with any bound. -/
theorem value_scalar {token : List Char} (h : IsScalar token) (n : Nat) (rest : List Char) :
    value n (token ++ rest) = scalar (token ++ rest) := by
  have hskip := (h.opening.append rest).skipSpace
  obtain ⟨c, cs, rfl, -, hbracket, hbrace⟩ := h.exists_cons
  rw [value, hskip]
  simp only [List.cons_append, hbracket, hbrace, if_false]

/-- A scalar has one meaning in front of whatever may follow it. -/
theorem scalar_append {token rest : List Char} (h : IsScalar token) (hrest : Ends rest) :
    (scalar (token ++ rest)).toOption = (Tree.scalar token).value?.map (·, rest) := by
  have hsettled := (settled_scalar h).toOption_eq ends_nil hrest
  rw [List.append_nil] at hsettled
  exact hsettled

/-- **The value that is read into memory** is the value of the tree. -/
theorem makes_value {n : Nat} {t : Tree} (hn : t.nesting ≤ n) : Makes (value n) t t.value? := by
  -- Both loops run with one bracket less, and their step is the reader itself.
  induction n using Nat.strongRecOn generalizing t with
  | ind n ih =>
    intro cs rest ht hrest
    have hfronts := ht.fronts
    rw [value_skipSpace hfronts.opening]
    generalize skipSpace cs = front at hfronts
    cases hfronts with
    | scalar h =>
      rw [value_scalar h]
      exact scalar_append h hrest
    | @array ts cs _ h =>
      obtain ⟨n, rfl, hts⟩ := Tree.exists_of_array_nesting_le hn
      have hstep (t : Tree) (ht : t ∈ ts) := makes_push (ih n (Nat.lt_succ_self n) (hts t ht))
      rw [value_array, toOption_bind,
        elements_sequence h hstep (h.length_lt Tree.Leads.length_lt), foldlM_push, Tree.value?,
        Tree.itemValues?_eq_mapM]
      cases ts.mapM Tree.value? with
      | none => rfl
      | some vs => exact congrArg (fun vs => some (Value.array vs, rest)) (by simp)
    | @object ms cs _ h =>
      obtain ⟨n, rfl, hms⟩ := Tree.exists_of_object_nesting_le hn
      have hstep (m : List Char × Tree) (hm : m ∈ ms) :=
        makesMember_pushMember (ih n (Nat.lt_succ_self n) (hms m hm))
      rw [value_object, toOption_bind, members_sequence
        (fun found name t => t.value?.map fun v => (name, v) :: found) h hstep
          (h.length_lt Tree.MemberLeads.length_lt), Tree.foldlM_pushMember, Tree.value?,
        Tree.memberValues?_eq_mapM]
      cases ms.mapM Tree.memberValue? with
      | none => rfl
      | some vs => exact congrArg (fun vs => some (Value.object vs, rest)) (by simp)

/-! ## Values that are passed over

Here nothing is asked of strings and numbers, so passing over a tree never fails, as long as it may
open the brackets of the tree. -/

section Skip

variable {close : Char} {Item : ι → List Char → List Char → Prop} {is : List ι}
  {item : List Char → Except Failure (List Char)} {unclosed ended : Cause}
  {bound cs rest : List Char}

/-- Items are passed over up to the closing bracket if each of them is. -/
theorem skipItems_sequence {first : Bool} (h : Sequence close Item first is cs rest)
    (hclose : close = ']' ∨ close = '\x7d')
    (hskips : ∀ {i cs rest}, Item i cs rest →
      ∃ c tail, skipSpace cs = c :: tail ∧ c ≠ close ∧ Item i (c :: tail) rest)
    (hitem : ∀ i ∈ is, ∀ cs rest, Item i cs rest → Ends rest → item cs = .ok rest)
    (hbound : is.length < bound.length) :
    skipItems close unclosed ended item bound first cs = .ok rest := by
  have hspace : isSpace close = false := by rcases hclose with rfl | rfl <;> decide
  have hcomma : ',' ≠ close := by rcases hclose with rfl | rfl <;> decide
  -- the bound loses an element with each item, and is longer than their list
  induction h generalizing bound with
  | nil hblanks =>
    obtain ⟨b, bound, rfl⟩ := List.exists_cons_of_length_pos hbound
    rw [skipItems, skipSpace_append hblanks, skipSpace_cons hspace]
    exact if_pos rfl
  | cons hfront hi his ih =>
    obtain ⟨b, bound, rfl⟩ := List.exists_cons_of_length_pos (Nat.zero_lt_of_lt hbound)
    obtain ⟨hfirst, hothers⟩ := List.forall_mem_cons.mp hitem
    have hrest := ih hothers (Nat.lt_of_succ_lt_succ hbound)
    cases hfront with
    | first =>
      obtain ⟨c, tail, hskip, hc, hi⟩ := hskips hi
      rw [skipItems, hskip]
      simp only [hc, if_false, if_true, hfirst _ _ hi (his.ends hclose)]
      exact hrest
    | later hblanks =>
      rw [skipItems, skipSpace_append hblanks, skipSpace_cons (by decide)]
      simp only [hcomma, Bool.false_eq_true, if_false, if_true, hfirst _ _ hi (his.ends hclose)]
      exact hrest

end Skip

theorem skipName_memberLeads {m : List Char × Tree} {cs rest : List Char}
    (h : Tree.MemberLeads m cs rest) :
    ∃ value, skipName cs = .ok value ∧ m.2.Leads value rest := by
  obtain ⟨behind, value, hname, hbehind, hvalue, hskip⟩ := h.exists_skipSpace
  refine ⟨value, ?_, hvalue⟩
  have hcolon : skipSpace (behind ++ ':' :: value) = ':' :: value := by
    rw [skipSpace_append hbehind, skipSpace_cons (by decide)]
  rw [skipName, hskip]
  simp only [if_true, skipString_append hname, bind, Except.bind, hcolon]

/-- **A tree can be passed over** by whoever may open enough brackets. -/
theorem skipValue_leads {n : Nat} {t : Tree} (hn : t.nesting ≤ n) {cs rest : List Char}
    (ht : t.Leads cs rest) (hrest : Ends rest) : skipValue n cs = .ok rest := by
  -- the bound goes down by one for each bracket, which is the nesting of the tree
  induction n using Nat.strongRecOn generalizing t cs rest with
  | ind n ih =>
    have hfronts := ht.fronts
    unfold skipValue
    generalize skipSpace cs = front at hfronts
    cases hfronts with
    | @scalar token _ h =>
      have hscalar := skipScalar_append h hrest
      obtain ⟨c, cs, rfl, -, hbracket, hbrace⟩ := h.exists_cons
      simp only [List.cons_append, hbracket, hbrace, if_false]
      exact hscalar
    | @array ts cs _ h =>
      obtain ⟨n, rfl, hts⟩ := Tree.exists_of_array_nesting_le hn
      refine skipItems_sequence h (.inl rfl) ?_
        (fun t ht _ _ => ih n (Nat.lt_succ_self n) (hts t ht)) (h.length_lt Tree.Leads.length_lt)
      intro t cs rest ht
      obtain ⟨c, tail, hskip, hopens⟩ := ht.fronts.opening
      refine ⟨c, tail, hskip, ?_, hskip ▸ ht.fronts.leads⟩
      rintro rfl
      cases hopens
    | @object ms cs _ h =>
      obtain ⟨n, rfl, hms⟩ := Tree.exists_of_object_nesting_le hn
      refine skipItems_sequence h (.inr rfl) ?_ ?_ (h.length_lt Tree.MemberLeads.length_lt)
      · intro m cs rest hm
        obtain ⟨behind, value, hname, hbehind, hvalue, hskip⟩ := hm.exists_skipSpace
        refine ⟨_, _, hskip, by decide, [], behind, value, blank_nil, hname, hbehind, ?_, hvalue⟩
        simp [quote]
      · intro m hm cs rest hleads hends
        obtain ⟨value, hname, hvalue⟩ := skipName_memberLeads hleads
        simp only [hname, bind, Except.bind]
        exact ih n (Nat.lt_succ_self n) (hms m hm) hvalue hends

/-- A text has no more brackets than characters. -/
theorem Tree.Leads.nesting_le {t : Tree} {cs rest : List Char} (h : t.Leads cs rest) :
    t.nesting ≤ cs.length := by
  have hwithin : Within cs.length 0 cs := ⟨Nat.zero_le _, nestingWithin_of_length_le (by omega)⟩
  have hnesting := (hwithin.leads h).1
  omega

/-- Passing over a value is not bounded by a limit of the user's: the length of the text is
enough. -/
theorem skip_leads {t : Tree} {cs rest : List Char} (ht : t.Leads cs rest) (hrest : Ends rest) :
    skip cs = .ok rest :=
  skipValue_leads ht.nesting_le ht hrest

end ArithScript.Json
