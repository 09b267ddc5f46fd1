import ArithScript.Proofs.CountedBrackets

/-!
# Decoders and nesting

What a decoder makes of JSON is bounded by the nesting of that JSON, in whichever form it comes.
`Decoder.Bounded` says so for a bound of the user's choice, together with the fact that the brackets
the decoder may open make no difference once they have been counted. There is one lemma for each way
to put a decoder together.

Records need an invariant of their slots. It is part of `Shape.Bounded` and hidden in it, so that
the rule for `<*>` says nothing about slots. Members and elements lead from one state to another,
each by a text of a tree that is not nested more deeply than the whole, and what is passed over has
no influence on the state.
-/

set_option autoImplicit false

namespace ArithScript.Json

variable {α β : Type}

/-! ## Bounds by nesting

A bound `P n x` is about something `x` that was made of JSON whose nesting is at most `n`. Bounds
that hold inside a bracket are stated with `Inside`, and loops over elements and members keep them
(`Keeps`): each step is over a tree, and the trees of a list are at most as deep as the list. -/

/-- A bound for what lies inside one more bracket. -/
def Inside (P : Nat → α → Prop) (n : Nat) (x : α) : Prop := ∃ k, n = k + 1 ∧ P k x

/-- Inside a bracket that leaves room for `m` further ones holds what holds with any room from `m`
on. -/
theorem Inside.of_le {P : Nat → α → Prop} {m n : Nat} {x : α} (h : 1 + m ≤ n)
    (hx : ∀ k, m ≤ k → P k x) :
    Inside P n x :=
  ⟨n - 1, by omega, hx (n - 1) (by omega)⟩

/-- The nesting of a list is the greatest nesting in it, so to bound it is to bound every item. The
same holds of members, and of trees. -/
theorem itemsNesting_le_iff {vs : List Value} {n : Nat} :
    itemsNesting vs ≤ n ↔ ∀ v ∈ vs, v.nesting ≤ n := by
  rw [itemsNesting_eq_greatest, greatest_le_iff]

theorem membersNesting_le_iff {ms : List (String × Value)} {n : Nat} :
    membersNesting ms ≤ n ↔ ∀ m ∈ ms, m.2.nesting ≤ n := by
  rw [membersNesting_eq_greatest, greatest_le_iff]

theorem Tree.itemsNesting_le_iff {ts : List Tree} {n : Nat} :
    itemsNesting ts ≤ n ↔ ∀ t ∈ ts, t.nesting ≤ n := by
  rw [itemsNesting_eq_greatest, greatest_le_iff]

theorem Tree.membersNesting_le_iff {ms : List (List Char × Tree)} {n : Nat} :
    membersNesting ms ≤ n ↔ ∀ m ∈ ms, m.2.nesting ≤ n := by
  rw [membersNesting_eq_greatest, greatest_le_iff]

/-- A step over something of a given nesting keeps every bound that is not below it. -/
def Keeps {σ : Type} (Inv : Nat → σ → Prop) (nesting : Nat) (s s' : σ) : Prop :=
  ∀ n, nesting ≤ n → Inv n s → Inv n s'

/-- A step over a member keeps every bound that is not below the nesting of its value. -/
def KeepsMember {σ : Type} (Inv : Nat → σ → Prop) (m : List Char × Tree) : σ → σ → Prop :=
  Keeps Inv m.2.nesting

/-- A run keeps a bound if every step over an item of the run does, and no item goes beyond it. -/
theorem Run.keeps {ι σ : Type} {nesting : ι → Nat} {Inv : Nat → σ → Prop} {is : List ι} {s s' : σ}
    (h : Run (fun i => Keeps Inv (nesting i)) is s s') {n : Nat} (hn : ∀ i ∈ is, nesting i ≤ n)
    (hs : Inv n s) : Inv n s' := by
  induction h with
  | nil s => exact hs
  | cons hitem _ ih =>
    obtain ⟨hi, his⟩ := List.forall_mem_cons.mp hn
    exact ih his (hitem n hi hs)

/-- An item that is read joins the items before it, so all of them stay within a bound that is not
below the nesting of its text. -/
theorem keeps_of_push {read : List Char → Except Failure (α × List Char)} {P : Nat → α → Prop}
    (hread : ∀ cs x rest, read cs = .ok (x, rest) →
      ∃ t : Tree, t.Leads cs rest ∧ ∀ n, t.nesting ≤ n → P n x)
    (items : List α) (cs : List Char) (items' : List α) (rest : List Char)
    (h : push read items cs = .ok (items', rest)) :
    ∃ t : Tree, t.Leads cs rest
      ∧ Keeps (fun n items => ∀ x ∈ items, P n x) t.nesting items items' := by
  obtain ⟨t, ht, x, rfl, hx⟩ := leads_of_push hread items cs items' rest h
  exact ⟨t, ht, fun n hn hitems => List.forall_mem_cons.mpr ⟨hx n hn, hitems⟩⟩

theorem leads_of_value_le {bound : Nat} (cs : List Char) (v : Value) (rest : List Char)
    (h : value bound cs = .ok (v, rest)) :
    ∃ t : Tree, t.Leads cs rest ∧ ∀ n, t.nesting ≤ n → v.nesting ≤ n := by
  obtain ⟨t, ht, hnesting⟩ := leads_of_value h
  exact ⟨t, ht, fun n hn => hnesting ▸ hn⟩

/-- Whatever a conversion makes of a value is bounded by the nesting of the value. -/
def Converts (P : Nat → α → Prop) (convert : Value → Except Cause α) : Prop :=
  ∀ v x, convert v = .ok x → ∀ n, v.nesting ≤ n → P n x

/-- Whatever a decoder makes of JSON is bounded by its nesting, and reading does not depend on the
brackets that may be opened as long as all that have been counted may. -/
structure Decoder.Bounded (item : Decoder α) (P : Nat → α → Prop) : Prop where
  read : ∀ {bound : Nat} {cs : List Char} {x : α}
      {rest : List Char}, item.read bound cs = .ok (x, rest) →
    ∃ t : Tree, t.Leads cs rest ∧ ∀ n, t.nesting ≤ n → P n x
  convert : Converts P item.convert
  steady : ∀ {limit depth bound bound' : Nat} {cs : List Char}, Within limit depth cs →
    limit ≤ depth + bound → limit ≤ depth + bound' → item.read bound cs = item.read bound' cs

theorem Converts.mono {P Q : Nat → α → Prop} {convert : Value → Except Cause α}
    (h : Converts P convert) (hPQ : ∀ n x, P n x → Q n x) : Converts Q convert :=
  fun v x hx n hn => hPQ n x (h v x hx n hn)

theorem Decoder.Bounded.mono {P Q : Nat → α → Prop} {item : Decoder α} (h : item.Bounded P)
    (hPQ : ∀ n x, P n x → Q n x) : item.Bounded Q where
  read hread := by
    obtain ⟨t, ht, hP⟩ := h.read hread
    exact ⟨t, ht, fun n hn => hPQ n _ (hP n hn)⟩
  convert := h.convert.mono hPQ
  steady := h.steady

/-! ### Scalars

Scalars have no nesting, so their decoders are bounded by anything that holds of all results. They
are the leaves from which bounds of records are put together. -/

/-- To report a mismatch the reader may have to read a scalar first, but it never succeeds. -/
theorem mismatch_ne_ok {expected : Expected} {cs : List Char} {x : α} :
    mismatch expected cs ≠ .ok x := by
  intro h
  unfold mismatch at h
  split at h
  · cases h
  · cases h
  · obtain ⟨r, -, hfail⟩ := exists_of_bind_eq_ok h
    cases hfail

/-- Reading at the next character passes over blanks and goes on with what is behind them. -/
theorem exists_of_atNext {read : Char → List Char → Except Failure α} {cs : List Char} {x : α}
    (h : atNext cs read = .ok x) :
    ∃ blanks c rest, Blank blanks ∧ cs = blanks ++ c :: rest ∧ read c rest = .ok x := by
  rw [atNext] at h
  split at h
  · cases h
  · next c rest hskip =>
    obtain ⟨blanks, hblanks, hcs⟩ := exists_blank_of_skipSpace hskip
    exact ⟨blanks, c, rest, hblanks, hcs, h⟩

namespace Decoder

/-- A string can hold no brackets that count, so there is nothing to bound: what is left to say is
that a scalar has been read. -/
theorem bounded_string : string.Bounded fun _ _ => True where
  read h := by
    obtain ⟨blanks, c, after, hblanks, rfl, hread⟩ := exists_of_atNext h
    split at hread
    · next hquote =>
      subst hquote
      obtain ⟨token, htoken⟩ := leads_of_string hread
      exact ⟨_, htoken.blank hblanks, fun _ _ => trivial⟩
    · exact absurd hread mismatch_ne_ok
  convert _ _ _ _ _ := trivial
  steady _ _ _ := rfl

/-- A number that has been read, as a natural number of the given width. -/
def checkRead (width : Width) (r : Number × List Char) : Except Failure (Nat × List Char) :=
  match checkNatural width r.1 with
  | .ok n => .ok (n, r.2)
  | .error cause => failHere cause r.2

theorem rest_of_checkRead {width : Width} {m : Number} {left rest : List Char} {n : Nat}
    (h : checkRead width (m, left) = .ok (n, rest)) : left = rest := by
  cases hcheck : checkNatural width m with
  | error cause => simp only [checkRead, hcheck, failHere, reduceCtorEq] at h
  | ok y =>
    simp only [checkRead, hcheck, Except.ok.injEq, Prod.mk.injEq] at h
    exact h.2

/-- The check of the width comes after the number has been read, and takes nothing from the text. -/
theorem bounded_natural (width : Width) : (natural width).Bounded fun _ _ => True where
  read h := by
    obtain ⟨blanks, c, after, hblanks, rfl, hread⟩ := exists_of_atNext h
    split at hread
    · by_cases hneg : c = '-'
      · subst hneg
        obtain ⟨⟨m, left⟩, hnumber, hcheck⟩ := exists_of_bind_eq_ok hread
        obtain ⟨token, htoken⟩ := leads_of_number hnumber
        obtain rfl := rest_of_checkRead hcheck
        exact ⟨_, htoken.blank hblanks, fun _ _ => trivial⟩
      · simp only [hneg, if_false] at hread
        obtain ⟨⟨m, left⟩, hnumber, hcheck⟩ := exists_of_bind_eq_ok hread
        obtain ⟨token, htoken⟩ := leads_of_number hnumber
        obtain rfl := rest_of_checkRead hcheck
        exact ⟨_, htoken.blank hblanks, fun _ _ => trivial⟩
    · exact absurd hread mismatch_ne_ok
  convert _ _ _ _ _ := trivial
  steady _ _ _ := rfl

/-- What is read into memory is as deep as its text, and what is made of it there is bounded by
that. -/
theorem bounded_buffered {convert : Value → Except Cause α} {P : Nat → α → Prop}
    (h : Converts P convert) :
    (buffered convert).Bounded P where
  read hread := by
    obtain ⟨⟨v, after⟩, hv, hconvert⟩ := exists_of_bind_eq_ok hread
    obtain ⟨t, ht, hnesting⟩ := leads_of_value hv
    cases hx : convert v with
    | error cause => simp only [hx, failHere, reduceCtorEq] at hconvert
    | ok x =>
      simp only [hx, Except.ok.injEq, Prod.mk.injEq] at hconvert
      obtain ⟨rfl, rfl⟩ := hconvert
      exact ⟨t, ht, fun n hn => h v x hx n (hnesting ▸ hn)⟩
  convert := h
  steady hwithin hbound hbound' :=
    bind_congr_of_ok (value_congr hwithin hbound hbound') fun _ _ => rfl

theorem bounded_buffered_any (convert : Value → Except Cause α) :
    (buffered convert).Bounded fun _ _ => True :=
  bounded_buffered fun _ _ _ _ _ => trivial

/-! ### Options and lists

Neither needs an invariant. An option is bounded as what is in it, and a list is bounded by its
items, which lie one bracket further in. -/

/-- `null` is looked for behind the blanks, and the decoder itself starts there too if there is
none. -/
theorem Bounded.nullable {item : Decoder α} {P : Nat → α → Prop} (h : item.Bounded P) :
    item.nullable.Bounded fun n o => ∀ x ∈ o, P n x where
  read := by
    intro bound cs o rest hread
    unfold Decoder.nullable at hread
    simp only at hread
    split at hread
    · next after hskip =>
      obtain ⟨⟨⟨⟩, left⟩, hword, heq⟩ := exists_of_map_eq_ok hread
      cases heq
      obtain ⟨token, htoken⟩ := leads_of_word hword List.mem_cons_self
      obtain ⟨blanks, hblanks, rfl⟩ := exists_blank_of_skipSpace hskip
      exact ⟨_, htoken.blank hblanks, nofun⟩
    · -- anything but `null` goes to the item, which is told to start behind the blanks
      obtain ⟨⟨x, left⟩, hx, heq⟩ := exists_of_map_eq_ok hread
      cases heq
      obtain ⟨t, ht, hP⟩ := h.read hx
      obtain ⟨blanks, hblanks, hcs⟩ := @exists_blank_of_skipSpace cs _ rfl
      rw [hcs]
      refine ⟨t, ht.blank hblanks, fun n hn y hy => ?_⟩
      cases hy
      exact hP n hn
  convert := by
    intro v o hconvert n hn x hx
    unfold Decoder.nullable at hconvert
    simp only at hconvert
    split at hconvert
    · cases hconvert
      cases hx
    · obtain ⟨y, hy, rfl⟩ := exists_of_map_eq_ok hconvert
      cases hx
      exact h.convert _ _ hy n hn
  steady := by
    intro limit depth bound bound' cs hwithin hbound hbound'
    unfold Decoder.nullable
    simp only
    split
    · rfl
    · rw [h.steady hwithin.skipSpace hbound hbound']

theorem exists_of_mem_mapM {convert : Value → Except Cause α} {vs : List Value} {xs : List α}
    (h : vs.mapM convert = .ok xs) {x : α} (hx : x ∈ xs) : ∃ v ∈ vs, convert v = .ok x := by
  induction vs generalizing xs with
  | nil =>
    cases h
    cases hx
  | cons v vs ih =>
    rw [List.mapM_cons] at h
    obtain ⟨y, hy, htail⟩ := exists_of_bind_eq_ok h
    obtain ⟨ys, hys, heq⟩ := exists_of_bind_eq_ok htail
    cases heq
    rcases List.mem_cons.mp hx with rfl | hx
    · exact ⟨v, List.mem_cons_self, hy⟩
    · obtain ⟨w, hw, hx⟩ := ih hys hx
      exact ⟨w, List.mem_cons_of_mem v hw, hx⟩

/-- The elements of a list lie inside one more bracket. Reading goes on in a loop over elements; in
memory they are converted one by one. -/
theorem Bounded.list {item : Decoder α} {P : Nat → α → Prop} (h : item.Bounded P) :
    item.list.Bounded fun n xs => ∀ x ∈ xs, Inside P n x where
  read {bound _ _ _} hread := by
    obtain ⟨blanks, c, after, hblanks, rfl, hitems⟩ := exists_of_atNext hread
    split at hitems
    · next hbracket =>
      subst hbracket
      cases bound with
      | zero => cases hitems
      | succ bound =>
        obtain ⟨⟨items, left⟩, hitems, heq⟩ := exists_of_bind_eq_ok hitems
        cases heq
        obtain ⟨ts, hts, hrun⟩ := sequence_of_elements (keeps_of_push fun _ _ _ => h.read) hitems
        refine ⟨_, (Tree.leads_array hts).blank hblanks,
          fun n hn x hx => Inside.of_le hn fun k hk => ?_⟩
        exact hrun.keeps (Tree.itemsNesting_le_iff.mp hk) nofun x (List.mem_reverse.mp hx)
    · exact absurd hitems mismatch_ne_ok
  convert v xs hconvert n hn x hx := by
    unfold Decoder.list at hconvert
    simp only at hconvert
    split at hconvert
    · obtain ⟨v, hv, hx⟩ := exists_of_mem_mapM hconvert hx
      exact Inside.of_le hn fun k hk => h.convert v x hx k (itemsNesting_le_iff.mp hk v hv)
    · cases hconvert
  steady {limit depth bound bound' cs} hwithin hbound hbound' := by
    refine atNext_congr (fun c rest hc => ?_) hwithin
    by_cases hbracket : c = '['
    · -- the scan has counted this bracket, so both bounds have a level left for the items
      obtain ⟨hinner, ⟨k, rfl, hk⟩, k', rfl, hk'⟩ :=
        hc.levels_of_opening (.inl hbracket) hbound hbound'
      simp only [hbracket, if_true]
      exact bind_congr_of_ok (elements_congr (leads_of_push fun _ _ _ => h.read)
        (fun s cs h' => push_congr (h.steady h' hk hk') s) hinner) fun _ _ => rfl
    · simp only [hbracket, if_false]

end Decoder

/-! ### Records

A record is read member by member into slots, and something is made of the slots at the end. The
invariant that carries the bound through is found along with the shape: for a single field it says
that the slot is empty or within the bound, for two shapes side by side it is the conjunction of
theirs. -/

/-- Reading a field keeps an invariant of the state, for every bound that is not below the nesting
of what is read. -/
structure Field.Bounded {σ : Type} (field : Field σ) (Inv : Nat → σ → Prop) : Prop where
  read : ∀ {bound : Nat} {cs : List Char} {s s' : σ} {rest : List Char},
    field.read bound s cs = .ok (s', rest) → ∃ t : Tree, t.Leads cs rest ∧ Keeps Inv t.nesting s s'
  convert : ∀ {v : Value} {s s' : σ}, field.convert v s = .ok s' → Keeps Inv v.nesting s s'
  steady : ∀ {limit depth bound bound' : Nat} {cs : List Char} (s : σ), Within limit depth cs →
    limit ≤ depth + bound → limit ≤ depth + bound' → field.read bound s cs = field.read bound' s cs

/-- A field of a part is a field of the whole, with every invariant of the whole that comes down to
one of the part. -/
theorem Field.Bounded.within {σ τ : Type} {field : Field σ} {Inv : Nat → σ → Prop}
    (h : field.Bounded Inv) {get : τ → σ} {set : τ → σ → τ} {Whole : Nat → τ → Prop}
    (hget : ∀ n s, Whole n s → Inv n (get s))
    (hset : ∀ n s part, Whole n s → Inv n part → Whole n (set s part)) :
    (field.within get set).Bounded Whole where
  read hread := by
    obtain ⟨⟨part, after⟩, hpart, heq⟩ := exists_of_map_eq_ok hread
    cases heq
    obtain ⟨t, ht, hkeeps⟩ := h.read hpart
    exact ⟨t, ht, fun n hn hs => hset n _ _ hs (hkeeps n hn (hget n _ hs))⟩
  convert hconvert := by
    obtain ⟨part, hpart, rfl⟩ := exists_of_map_eq_ok hconvert
    exact fun n hn hs => hset n _ _ hs (h.convert hpart n hn (hget n _ hs))
  steady s hwithin hbound hbound' :=
    congrArg (Except.map _) (h.steady (get s) hwithin hbound hbound')

namespace Shape

/-- Whatever is made of the slots of a record is bounded, if every slot is: there is an invariant of
the slots that says so. -/
def Bounded (shape : Shape α) (P : Nat → α → Prop) : Prop :=
  ∃ Inv : Nat → shape.Slots → Prop, (∀ n, Inv n shape.blank)
    ∧ (∀ field ∈ shape.fields, field.Bounded Inv)
    ∧ ∀ n slots x, shape.build slots = .ok x → Inv n slots → P n x

section Forms

variable {P : Nat → α → Prop} {Q : Nat → β → Prop}

theorem bounded_single {item : Decoder α} (h : item.Bounded P) {absent : Except String α}
    (habsent : ∀ n x, absent = .ok x → P n x) (name : String) :
    (single name item absent).Bounded P := by
  -- A slot that is not filled yet is within every bound.
  refine ⟨fun n (slot : Option α) => ∀ x ∈ slot, P n x, nofun, ?_, ?_⟩
  · intro field hfield
    rw [List.mem_singleton.mp hfield]
    refine ⟨?_, ?_, ?_⟩
    · intro bound cs s s' rest hread
      obtain ⟨⟨x, after⟩, hx, heq⟩ := exists_of_map_eq_ok hread
      cases heq
      obtain ⟨t, ht, hP⟩ := h.read hx
      refine ⟨t, ht, fun n hn _ y hy => ?_⟩
      cases hy
      exact hP n hn
    · intro v s s' hconvert n hn _ y hy
      obtain ⟨x, hx, rfl⟩ := exists_of_map_eq_ok hconvert
      cases hy
      exact h.convert v _ hx n hn
    · intro limit depth bound bound' cs s hwithin hbound hbound'
      exact congrArg (Except.map _) (h.steady hwithin hbound hbound')
  · intro n slot x hbuild hslot
    cases slot with
    | none => exact habsent n x hbuild
    | some y =>
      cases hbuild
      exact hslot _ rfl

theorem bounded_required {item : Decoder α} (h : item.Bounded P) (name : String) :
    (required name item).Bounded P :=
  bounded_single h (by intro _ _ heq; cases heq) name

theorem bounded_optional {item : Decoder α} (h : item.Bounded P) {fallback : α}
    (hfallback : ∀ n, P n fallback) (name : String) : (optional name item fallback).Bounded P :=
  bounded_single h (fun n _ heq => Except.ok.inj heq ▸ hfallback n) name

theorem bounded_optional_list {item : Decoder α} (h : item.Bounded P) (name : String) :
    (optional name item.list []).Bounded fun n xs => ∀ x ∈ xs, Inside P n x :=
  bounded_optional h.list (fun _ _ hx => absurd hx List.not_mem_nil) name

theorem bounded_nullable {item : Decoder α} (h : item.Bounded P) (name : String) :
    (nullable name item).Bounded fun n o => ∀ x ∈ o, P n x :=
  bounded_optional h.nullable (fun _ _ hx => absurd hx (Option.not_mem_none _)) name

/-- What is made of the slots in the end does not touch their invariant. -/
theorem Bounded.map {shape : Shape α} (h : shape.Bounded P) {f : α → β}
    (hf : ∀ n x, P n x → Q n (f x)) :
    (f <$> shape).Bounded Q := by
  obtain ⟨Inv, hblank, hfields, hbuild⟩ := h
  refine ⟨Inv, hblank, hfields, fun n slots y hy hslots => ?_⟩
  obtain ⟨x, hx, rfl⟩ := exists_of_map_eq_ok hy
  exact hf n x (hbuild n slots x hx hslots)

/-- The fields of both forms keep the invariants of both. -/
theorem Bounded.seq {shape : Shape (α → β)} {next : Shape α}
    (h : shape.Bounded fun n f => ∀ x, P n x → Q n (f x)) (hnext : next.Bounded P) :
    (shape <*> next).Bounded Q := by
  obtain ⟨Inv, hblank, hfields, hbuild⟩ := h
  obtain ⟨InvNext, hblankNext, hfieldsNext, hbuildNext⟩ := hnext
  refine ⟨fun n slots => Inv n slots.1 ∧ InvNext n slots.2,
    fun n => ⟨hblank n, hblankNext n⟩, ?_, ?_⟩
  · intro field hfield
    rcases List.mem_append.mp hfield with hfield | hfield
    · obtain ⟨part, hpart, rfl⟩ := List.mem_map.mp hfield
      exact (hfields part hpart).within (fun _ _ => And.left) fun _ _ _ hs hpart => ⟨hpart, hs.2⟩
    · obtain ⟨part, hpart, rfl⟩ := List.mem_map.mp hfield
      exact (hfieldsNext part hpart).within (fun _ _ => And.right)
        fun _ _ _ hs hpart => ⟨hs.1, hpart⟩
  · intro n slots y hy hslots
    obtain ⟨f, hf, hy⟩ := exists_of_bind_eq_ok hy
    obtain ⟨x, hx, heq⟩ := exists_of_bind_eq_ok hy
    cases heq
    exact hbuild n _ f hf hslots.1 x (hbuildNext n _ x hx hslots.2)

end Forms

section Records

variable {σ : Type} {Inv : Nat → σ → Prop} {fields : List (Field σ)}

/-- Behind the last field of a record that is written as an array there is nothing but the
bracket. -/
theorem blank_of_endArray {cs rest : List Char} (h : endArray cs = .ok rest) :
    ∃ blanks, Blank blanks ∧ cs = blanks ++ ']' :: rest := by
  rw [endArray] at h
  split at h
  · cases h
  · next c after hskip =>
    split at h
    · next hclose =>
      cases h
      subst hclose
      exact exists_blank_of_skipSpace hskip
    · split at h
      · split at h <;> cases h
      · cases h

/-- The elements of a record fill its fields one after the other, and there are not more of them. -/
theorem sequence_of_readElements (hfields : ∀ field ∈ fields, field.Bounded Inv) {bound : Nat}
    {first : Bool} {s s' : σ} {cs rest : List Char}
    (h : readElements bound fields first s cs = .ok (s', rest)) :
    ∃ ts, Sequence ']' Tree.Leads first ts cs rest
      ∧ Run (fun t => Keeps Inv t.nesting) ts s s' := by
  induction fields generalizing first s cs with
  | nil =>
    obtain ⟨after, hend, heq⟩ := exists_of_bind_eq_ok h
    cases heq
    obtain ⟨blanks, hblanks, rfl⟩ := blank_of_endArray hend
    exact ⟨[], .nil hblanks, .nil _⟩
  | cons field fields ih =>
    obtain ⟨hfield, hfields⟩ := List.forall_mem_cons.mp hfields
    obtain ⟨next, hnext, hround⟩ := exists_of_bind_eq_ok h
    cases next with
    | done after =>
      cases hround
      obtain ⟨blanks, hblanks, rfl⟩ := blank_of_nextElement_done hnext
      exact ⟨[], .nil hblanks, .nil _⟩
    | element after =>
      obtain ⟨blanks, hblanks, hfront⟩ := separated_of_nextElement hnext
      obtain ⟨⟨s₂, left⟩, hitem, hitems⟩ := exists_of_bind_eq_ok hround
      obtain ⟨t, ht, hkeeps⟩ := hfield.read hitem
      obtain ⟨ts, hts, hrun⟩ := ih hfields hitems
      exact ⟨t :: ts, .cons hfront (ht.blank hblanks) hts, .cons hkeeps hrun⟩

/-- Every field is read at the depth of the record, so it makes no difference by how many brackets
the limit goes beyond what has been counted. -/
theorem readElements_congr (hfields : ∀ field ∈ fields, field.Bounded Inv)
    {limit depth bound bound' : Nat} {first : Bool} {s : σ} {cs : List Char}
    (h : Within limit depth cs) (hbound : limit ≤ depth + bound)
    (hbound' : limit ≤ depth + bound') :
    readElements bound fields first s cs = readElements bound' fields first s cs := by
  induction fields generalizing first s cs with
  | nil => rfl
  | cons field fields ih =>
    obtain ⟨hfield, hfields⟩ := List.forall_mem_cons.mp hfields
    refine bind_congr_of_ok rfl fun next hnext => ?_
    cases next with
    | done rest => rfl
    | element rest =>
      have hrest := h.nextElement hnext
      refine bind_congr_of_ok (hfield.steady s hrest hbound hbound') fun r hr => ?_
      obtain ⟨t, ht, -⟩ := hfield.read hr
      exact ih hfields (hrest.leads ht).2

/-- A member that is no field is passed over, whatever its nesting, and the state stays as it is. -/
theorem keeps_of_readMember (hfields : ∀ field ∈ fields, field.Bounded Inv) {bound : Nat} (s : σ)
    (name : String) (cs : List Char) (s' : σ) (rest raw : List Char)
    (h : readMember bound fields s name cs = .ok (s', rest)) :
    ∃ value, colon cs = .ok value ∧ ∃ t : Tree, t.Leads value rest
      ∧ KeepsMember Inv (raw, t) s s' := by
  rw [readMember] at h
  split at h
  · next field hfind =>
    split at h
    · cases h
    · obtain ⟨value, hcolon, hread⟩ := exists_of_bind_eq_ok h
      exact ⟨value, hcolon, (hfields field (List.mem_of_find?_eq_some hfind)).read hread⟩
  · obtain ⟨value, hcolon, hskip⟩ := exists_of_bind_eq_ok h
    obtain ⟨after, hskip, heq⟩ := exists_of_bind_eq_ok hskip
    cases heq
    -- The tree is there for the text behind it, and its nesting does not matter.
    obtain ⟨t, ht⟩ := leads_of_skipValue hskip
    exact ⟨value, hcolon, t, ht, fun _ _ hs => hs⟩

theorem readMember_congr (hfields : ∀ field ∈ fields, field.Bounded Inv)
    {limit depth bound bound' : Nat} (hbound : limit ≤ depth + bound)
    (hbound' : limit ≤ depth + bound') (s : σ) (name : String) (cs : List Char)
    (h : Within limit depth cs) :
    readMember bound fields s name cs = readMember bound' fields s name cs := by
  rw [readMember, readMember]
  split
  · next field hfind =>
    split
    · rfl
    · refine bind_congr_of_ok rfl fun value hcolon => ?_
      exact (hfields field (List.mem_of_find?_eq_some hfind)).steady s
        (h.colon hcolon) hbound hbound'
  · rfl

theorem keeps_of_convertElements (hfields : ∀ field ∈ fields, field.Bounded Inv)
    {vs : List Value} {s s' : σ} (h : convertElements fields vs s = .ok s') :
    Keeps Inv (itemsNesting vs) s s' := by
  intro n hn hs
  fun_induction convertElements fields vs s with
  | case1 field fields v vs s ih =>
    obtain ⟨hfield, hfields⟩ := List.forall_mem_cons.mp hfields
    obtain ⟨s₂, hv, hvs⟩ := exists_of_bind_eq_ok h
    obtain ⟨hvn, hvsn⟩ := Nat.max_le.mp hn
    exact ih s₂ hfields hvs hvsn (hfield.convert hv n hvn hs)
  | case2 =>
    cases h
    exact hs

/-- In memory too a member that no field takes is dropped, and the state with it stays the same. -/
theorem keeps_of_convertMembers (hfields : ∀ field ∈ fields, field.Bounded Inv)
    {ms : List (String × Value)} {s s' : σ} (h : convertMembers fields ms s = .ok s') :
    Keeps Inv (membersNesting ms) s s' := by
  intro n hn hs
  fun_induction convertMembers fields ms s with
  | case1 s =>
    cases h
    exact hs
  | case2 => cases h
  | case3 s name v ms field hfind _ ih =>
    obtain ⟨s₂, hv, hms⟩ := exists_of_bind_eq_ok h
    obtain ⟨hvn, hmsn⟩ := Nat.max_le.mp hn
    exact ih s₂ hms hmsn ((hfields field (List.mem_of_find?_eq_some hfind)).convert hv n hvn hs)
  | case4 s name v ms _ ih => exact ih h (Nat.max_le.mp hn).2 hs

end Records

section Decoder

variable {shape : Shape α} {P : Nat → α → Prop} (h : shape.Bounded P)
include h

/-- A record is written as an array or as an object. In both forms its parts keep the invariant of
the slots, and the parts are one bracket further in than the record. -/
theorem Bounded.leads_of_read {name : String} {bound : Nat} {cs : List Char} {x : α}
    {rest : List Char} (hread : shape.read name bound cs = .ok (x, rest)) :
    ∃ t : Tree, t.Leads cs rest ∧ ∀ n, t.nesting ≤ n → Inside P n x := by
  obtain ⟨Inv, hblank, hfields, hbuild⟩ := h
  obtain ⟨blanks, c, after, hblanks, rfl, hrecord⟩ := exists_of_atNext hread
  split at hrecord
  · next hbracket =>
    subst hbracket
    cases bound with
    | zero => cases hrecord
    | succ bound =>
      obtain ⟨⟨slots, left⟩, hslots, hx⟩ := exists_of_bind_eq_ok hrecord
      obtain ⟨ts, hts, hrun⟩ := sequence_of_readElements hfields hslots
      cases hb : shape.build slots with
      | error field => simp only [hb, failHere, reduceCtorEq] at hx
      | ok y =>
        simp only [hb] at hx
        cases hx
        refine ⟨_, (Tree.leads_array hts).blank hblanks, fun n hn => Inside.of_le hn fun k hk => ?_⟩
        exact hbuild k slots x hb (hrun.keeps (Tree.itemsNesting_le_iff.mp hk) (hblank k))
  split at hrecord
  · next hbrace =>
    subst hbrace
    cases bound with
    | zero => cases hrecord
    | succ bound =>
      obtain ⟨⟨slots, left⟩, hslots, hx⟩ := exists_of_bind_eq_ok hrecord
      obtain ⟨ms, hms, hrun⟩ := sequence_of_members (keeps_of_readMember hfields) hslots
      cases hb : shape.build slots with
      | error field => simp only [hb, failHere, reduceCtorEq] at hx
      | ok y =>
        simp only [hb] at hx
        cases hx
        refine ⟨_, (Tree.leads_object hms).blank hblanks,
          fun n hn => Inside.of_le hn fun k hk => ?_⟩
        exact hbuild k slots x hb (hrun.keeps (Tree.membersNesting_le_iff.mp hk) (hblank k))
  · exact absurd hrecord mismatch_ne_ok

/-- The same for a record that is in memory, in either form. -/
theorem Bounded.converts (name : String) : Converts (Inside P) (shape.convert name) := by
  obtain ⟨Inv, hblank, hfields, hbuild⟩ := h
  intro v x hconvert n hn
  rw [Shape.convert.eq_def] at hconvert
  split at hconvert
  · obtain ⟨slots, hslots, hx⟩ := exists_of_bind_eq_ok hconvert
    cases hb : shape.build slots with
    | error field => simp only [hb] at hx; cases hx
    | ok y =>
      simp only [hb] at hx
      split at hx
      · cases hx
        exact Inside.of_le hn fun k hk =>
          hbuild k slots x hb (keeps_of_convertElements hfields hslots k hk (hblank k))
      · cases hx
  · obtain ⟨slots, hslots, hx⟩ := exists_of_bind_eq_ok hconvert
    cases hb : shape.build slots with
    | error field => simp only [hb] at hx; cases hx
    | ok y =>
      simp only [hb] at hx
      cases hx
      exact Inside.of_le hn fun k hk =>
        hbuild k slots x hb (keeps_of_convertMembers hfields hslots k hk (hblank k))
  · cases hconvert

/-- Both forms open one bracket, which has been counted; inside it the limit has one bracket less to
give. -/
theorem Bounded.read_congr {name : String} {limit depth bound bound' : Nat} {cs : List Char}
    (hwithin : Within limit depth cs) (hbound : limit ≤ depth + bound)
    (hbound' : limit ≤ depth + bound') :
    shape.read name bound cs = shape.read name bound' cs := by
  obtain ⟨Inv, -, hfields, -⟩ := h
  refine atNext_congr (fun c rest hc => ?_) hwithin
  by_cases hbracket : c = '['
  · obtain ⟨hinner, ⟨k, rfl, hk⟩, k', rfl, hk'⟩ :=
      hc.levels_of_opening (.inl hbracket) hbound hbound'
    simp only [hbracket, if_true]
    exact bind_congr_of_ok (readElements_congr hfields hinner hk hk') fun _ _ => rfl
  by_cases hbrace : c = '\x7b'
  · obtain ⟨hinner, ⟨k, rfl, hk⟩, k', rfl, hk'⟩ :=
      hc.levels_of_opening (.inr hbrace) hbound hbound'
    simp only [hbrace, if_true]
    exact bind_congr_of_ok (members_congr (keeps_of_readMember hfields)
      (readMember_congr hfields hk hk') hinner) fun _ _ => rfl
  · simp only [hbracket, hbrace, if_false]

/-- **Records are bounded by their slots**, one bracket further in. -/
theorem Bounded.decoder (name : String) : (shape.decoder name).Bounded (Inside P) where
  read := h.leads_of_read
  convert := h.converts name
  steady := h.read_congr

end Decoder

end Shape

/-! ### Variants

A variant is read in two steps. Its tag and its content are gathered first, the content into memory;
then the case of the tag converts the content. So all that has to be bounded is the nesting of the
content, which is what is left of the variant without its tag. -/

namespace Variants

/-- Whatever is made of the content of a variant is bounded by the nesting of the content. -/
def Bounded (variants : Variants α) (P : Nat → α → Prop) : Prop :=
  ∀ tagged ∈ variants.cases, Converts P tagged.2

/-- The tag and the members read so far are bounded. -/
def GatheredWithin (P : Nat → α → Prop) (n : Nat) (state : Gathered α) : Prop :=
  (∀ convert ∈ state.1, Converts P convert) ∧ ∀ m ∈ state.2, m.2.nesting ≤ n

variable {variants : Variants α} {P : Nat → α → Prop} (h : variants.Bounded P)
include h

theorem Bounded.ofTag {tag : String} {convert : Value → Except Cause α}
    (htag : variants.ofTag tag = .ok convert) : Converts P convert := by
  rw [Variants.ofTag] at htag
  split at htag
  · next hfind =>
    cases htag
    exact h _ (List.mem_of_find?_eq_some hfind)
  · cases htag

theorem Bounded.readTag {cs rest : List Char} {convert : Value → Except Cause α}
    (htag : variants.readTag cs = .ok (convert, rest)) :
    (∃ token, (Tree.scalar token).Leads cs rest) ∧ Converts P convert := by
  obtain ⟨blanks, c, after, hblanks, rfl, hread⟩ := exists_of_atNext htag
  split at hread
  · next hquote =>
    subst hquote
    obtain ⟨⟨tag, left⟩, hstring, hconvert⟩ := exists_of_bind_eq_ok hread
    cases hfound : variants.ofTag tag with
    | error cause => simp only [hfound, failHere, reduceCtorEq] at hconvert
    | ok found =>
      simp only [hfound] at hconvert
      cases hconvert
      obtain ⟨token, htoken⟩ := leads_of_string hstring
      exact ⟨⟨token, htoken.blank hblanks⟩, h.ofTag hfound⟩
  · exact absurd hread mismatch_ne_ok

/-- The first member that is named as the tag is read as the tag, and all others are read into
memory as they are. -/
theorem Bounded.keeps_of_gatherMember {bound : Nat} (state : Gathered α) (name : String)
    (cs : List Char) (state' : Gathered α) (rest raw : List Char)
    (hmember : variants.gatherMember bound state name cs = .ok (state', rest)) :
    ∃ value, colon cs = .ok value ∧ ∃ t : Tree, t.Leads value rest
      ∧ KeepsMember (GatheredWithin P) (raw, t) state state' := by
  rw [gatherMember] at hmember
  split at hmember
  · split at hmember
    · cases hmember
    · obtain ⟨value, hcolon, hmember⟩ := exists_of_bind_eq_ok hmember
      obtain ⟨⟨convert, left⟩, htag, heq⟩ := exists_of_bind_eq_ok hmember
      cases heq
      obtain ⟨⟨token, htoken⟩, hconvert⟩ := h.readTag htag
      refine ⟨value, hcolon, _, htoken, fun n _ hstate => ⟨fun found hfound => ?_, hstate.2⟩⟩
      cases hfound
      exact hconvert
  · obtain ⟨value, hcolon, hmember⟩ := exists_of_bind_eq_ok hmember
    obtain ⟨⟨v, left⟩, hv, heq⟩ := exists_of_bind_eq_ok hmember
    cases heq
    obtain ⟨t, ht, hnesting⟩ := leads_of_value hv
    exact ⟨value, hcolon, t, ht, fun n hn hstate =>
      ⟨hstate.1, List.forall_mem_cons.mpr ⟨hnesting ▸ hn, hstate.2⟩⟩⟩

omit h in
theorem gatherMember_congr {limit depth bound bound' : Nat} (hbound : limit ≤ depth + bound)
    (hbound' : limit ≤ depth + bound') (state : Gathered α) (name : String) (cs : List Char)
    (hwithin : Within limit depth cs) :
    variants.gatherMember bound state name cs = variants.gatherMember bound' state name cs := by
  rw [gatherMember, gatherMember]
  split
  · rfl
  · refine bind_congr_of_ok rfl fun value hcolon => ?_
    rw [value_congr (hwithin.colon hcolon) hbound hbound']

/-- The content that is left of a variant is not nested more deeply than the variant. -/
theorem Bounded.leads_of_gather {bound : Nat} {cs rest : List Char}
    {convert : Value → Except Cause α} {content : Value}
    (hgather : variants.gather bound cs = .ok ((convert, content), rest)) :
    ∃ t : Tree, t.Leads cs rest ∧ content.nesting ≤ t.nesting ∧ Converts P convert := by
  obtain ⟨blanks, c, after, hblanks, rfl, hvariant⟩ := exists_of_atNext hgather
  split at hvariant
  · next hbracket =>
    subst hbracket
    cases bound with
    | zero => cases hvariant
    | succ bound =>
      obtain ⟨next, hnext, hround⟩ := exists_of_bind_eq_ok hvariant
      cases next with
      | done after => cases hround
      | element after =>
        obtain ⟨⟨found, left⟩, htag, hrest⟩ := exists_of_bind_eq_ok hround
        obtain ⟨⟨items, behind⟩, hitems, heq⟩ := exists_of_bind_eq_ok hrest
        cases heq
        obtain ⟨inFront, hinFront, hfront⟩ := separated_of_nextElement hnext
        -- The tag is the first item of the tree and no item of the content.
        obtain ⟨⟨token, htoken⟩, hconvert⟩ := h.readTag htag
        obtain ⟨ts, hts, hrun⟩ := sequence_of_elements (keeps_of_push leads_of_value_le) hitems
        -- The array of the text has one item more than the content.
        have harray := Tree.leads_array (.cons hfront (htoken.blank hinFront) hts)
        refine ⟨_, harray.blank hblanks, ?_, hconvert⟩
        have hkept := hrun.keeps (Tree.itemsNesting_le_iff.mp (Nat.le_refl _)) nofun
        have hnesting : itemsNesting items.reverse ≤ Tree.itemsNesting ts :=
          itemsNesting_le_iff.mpr fun v hv => hkept v (List.mem_reverse.mp hv)
        simp only [Value.nesting, Tree.nesting, Tree.itemsNesting]
        omega
  split at hvariant
  · next hbrace =>
    subst hbrace
    cases bound with
    | zero => cases hvariant
    | succ bound =>
      obtain ⟨⟨⟨tag, found⟩, left⟩, hfound, hround⟩ := exists_of_bind_eq_ok hvariant
      obtain ⟨ms, hms, hrun⟩ := sequence_of_members h.keeps_of_gatherMember hfound
      cases tag with
      | none => cases hround
      | some convert =>
        cases hround
        have hkept := hrun.keeps (Tree.membersNesting_le_iff.mp (Nat.le_refl _)) ⟨nofun, nofun⟩
        have hnesting : membersNesting found.reverse ≤ Tree.membersNesting ms :=
          membersNesting_le_iff.mpr fun m hm => hkept.2 m (List.mem_reverse.mp hm)
        refine ⟨_, (Tree.leads_object hms).blank hblanks, ?_, hkept.1 _ rfl⟩
        simp only [Value.nesting, Tree.nesting]
        omega
  · exact absurd hvariant mismatch_ne_ok

/-- Reading a variant opens a bracket for the variant, and then reads a tag and values. -/
theorem Bounded.gather_congr {limit depth bound bound' : Nat} {cs : List Char}
    (hwithin : Within limit depth cs) (hbound : limit ≤ depth + bound)
    (hbound' : limit ≤ depth + bound') :
    variants.gather bound cs = variants.gather bound' cs := by
  refine atNext_congr (fun c rest hc => ?_) hwithin
  by_cases hbracket : c = '['
  · obtain ⟨hinner, ⟨k, rfl, hk⟩, k', rfl, hk'⟩ :=
      hc.levels_of_opening (.inl hbracket) hbound hbound'
    simp only [hbracket, if_true]
    refine bind_congr_of_ok rfl fun next hnext => ?_
    cases next with
    | done after => rfl
    | element after =>
      refine bind_congr_of_ok rfl fun tagged htag => ?_
      -- the tag is a token of its own, so the scan is still within the limit behind it
      obtain ⟨⟨token, htoken⟩, -⟩ := h.readTag htag
      have hitems := ((hinner.nextElement hnext).leads htoken).2
      exact bind_congr_of_ok (elements_congr (keeps_of_push leads_of_value_le)
        (fun s cs h' => push_congr (value_congr h' hk hk') s) hitems) fun _ _ => rfl
  by_cases hbrace : c = '\x7b'
  · obtain ⟨hinner, ⟨k, rfl, hk⟩, k', rfl, hk'⟩ :=
      hc.levels_of_opening (.inr hbrace) hbound hbound'
    simp only [hbrace, if_true]
    exact bind_congr_of_ok (members_congr h.keeps_of_gatherMember
      (gatherMember_congr hk hk') hinner) fun _ _ => rfl
  · simp only [hbracket, hbrace, if_false]

/-! A tag in memory may also be a number, and the members of an object are in memory already. -/

/-- A number stands for the case of that number, if there is one. -/
theorem Bounded.convertTag {v : Value} {convert : Value → Except Cause α}
    (htag : variants.convertTag v = .ok convert) : Converts P convert := by
  cases v with
  | string tag => exact h.ofTag htag
  | integer n =>
    rw [Variants.convertTag] at htag
    split at htag
    · cases htag
    · split at htag
      · next hget =>
        cases htag
        exact h _ (List.mem_of_getElem? hget)
      · cases htag
  | null | boolean _ | real _ | array _ | object _ => cases htag

/-- In memory the tag is split off from the members as it is when they are read. -/
theorem Bounded.keeps_of_splitTag {ms : List (String × Value)} {state state' : Gathered α}
    (hsplit : variants.splitTag ms state = .ok state') :
    Keeps (GatheredWithin P) (membersNesting ms) state state' := by
  intro n hn hstate
  fun_induction splitTag variants ms state with
  | case1 state =>
    cases hsplit
    exact hstate
  | case2 => cases hsplit
  | case3 state v ms _ ih =>
    obtain ⟨convert, htag, hms⟩ := exists_of_bind_eq_ok hsplit
    refine ih convert hms (Nat.max_le.mp hn).2 ⟨fun found hfound => ?_, hstate.2⟩
    cases hfound
    exact h.convertTag htag
  | case4 state name v ms _ ih =>
    obtain ⟨hvn, hmsn⟩ := Nat.max_le.mp hn
    exact ih hsplit hmsn ⟨hstate.1, List.forall_mem_cons.mpr ⟨hvn, hstate.2⟩⟩

/-- What is left of a value when its tag is taken away is not nested more deeply than the value. -/
theorem Bounded.converts : Converts P variants.convert := by
  intro v x hconvert n hn
  rw [Variants.convert.eq_def] at hconvert
  split at hconvert
  · cases hconvert
  · next tag items =>
    obtain ⟨convert, htag, hx⟩ := exists_of_bind_eq_ok hconvert
    refine h.convertTag htag _ x hx n ?_
    simp only [Value.nesting, itemsNesting] at hn ⊢
    omega
  · next ms =>
    obtain ⟨⟨tag, found⟩, hsplit, hx⟩ := exists_of_bind_eq_ok hconvert
    cases tag with
    | none => cases hx
    | some convert =>
      have hkept := h.keeps_of_splitTag hsplit _ (Nat.le_refl _) ⟨nofun, nofun⟩
      have hnesting : membersNesting found.reverse ≤ membersNesting ms :=
        membersNesting_le_iff.mpr fun m hm => hkept.2 m (List.mem_reverse.mp hm)
      refine hkept.1 convert rfl _ x hx n ?_
      simp only [Value.nesting] at hn ⊢
      omega
  · cases hconvert

/-- **Variants are bounded by their contents.** -/
theorem Bounded.decoder : variants.decoder.Bounded P where
  read hread := by
    obtain ⟨⟨⟨convert, content⟩, after⟩, hgather, hx⟩ := exists_of_bind_eq_ok hread
    obtain ⟨t, ht, hnesting, hconvert⟩ := h.leads_of_gather hgather
    cases hc : convert content with
    | error cause => simp only [hc, failHere, reduceCtorEq] at hx
    | ok y =>
      simp only [hc] at hx
      cases hx
      exact ⟨t, ht, fun n hn => hconvert content _ hc n (Nat.le_trans hnesting hn)⟩
  convert := h.converts
  steady hwithin hbound hbound' :=
    bind_congr_of_ok (h.gather_congr hwithin hbound hbound') fun _ _ => rfl

end Variants

end ArithScript.Json
