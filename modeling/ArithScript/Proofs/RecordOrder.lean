import ArithScript.Proofs.DecodingOrder
import Mathlib.Data.List.Pairwise

/-!
# Records and the order of members

In a record each field fills a slot of its own (`Slot`). Two members fill their slots in either
order with the same result, because the slots are apart, and two members for one slot are refused in
either order (`Slot.step_comm`). What is missing is found out when all members have been taken, and
members that nobody asks for leave no trace. A record that is written as an array has no members to
rearrange but those of its elements.
-/

set_option autoImplicit false

namespace ArithScript.Json

variable {α β σ τ : Type}

/-! ## Slots

`put` is what filling a slot does to the state, and `ofTree` and `ofValue` say with what, if with
anything: a field that refuses a tree has no content for it. The two agree with what the field does
when it reads and when it converts (`reads`, `converts`). The laws about rearranging are asked of
the contents only, so that a slot can be built from any decoder that takes no notice of order. -/

/-- **A field that fills a slot of its own**, with the same content for all rearrangements of a tree
or of a value. -/
structure Slot (σ : Type) where
  field : Field σ
  Content : Type
  put : Content → σ → σ
  ofTree : Tree → Option Content
  ofValue : Value → Option Content
  reads : ∀ {n t}, t.nesting ≤ n → ∀ s, Makes (field.read n s) t ((ofTree t).map (put · s))
  converts : ∀ v s, (field.convert v s).toOption = (ofValue v).map (put · s)
  filled_put : ∀ x s, field.filled (put x s) = true
  ofTree_eq : ∀ {t t' : Tree}, t.Rearranges t' → ofTree t = ofTree t'
  ofValue_eq : ∀ {v v' : Value}, v.Rearranges v' → ofValue v = ofValue v'

namespace Slot

/-- Two slots that are filled independently of one another. -/
structure Apart (a b : Slot σ) : Prop where
  put_comm : ∀ x y s, a.put x (b.put y s) = b.put y (a.put x s)
  filled_left : ∀ y s, a.field.filled (b.put y s) = a.field.filled s
  filled_right : ∀ x s, b.field.filled (a.put x s) = b.field.filled s

instance : Std.Symm (Apart (σ := σ)) where
  symm _ _ h := ⟨fun x y s => (h.put_comm y x s).symm, h.filled_right, h.filled_left⟩

/-- A slot of a part of the state. -/
def within (get : τ → σ) (set : τ → σ → τ) (hget : ∀ s x, get (set s x) = x) (a : Slot σ) :
    Slot τ where
  field := a.field.within get set
  Content := a.Content
  put x s := set s (a.put x (get s))
  ofTree := a.ofTree
  ofValue := a.ofValue
  reads {n t} hn s := by
    have hmap := (a.reads hn (get s)).map (set s)
    rw [Option.map_map] at hmap
    exact hmap
  converts v s := by
    show ((a.field.convert v (get s)).map (set s)).toOption = _
    rw [toOption_map, a.converts, Option.map_map]
    rfl
  filled_put x s := by
    show a.field.filled (get (set s (a.put x (get s)))) = true
    rw [hget, a.filled_put]
  ofTree_eq := a.ofTree_eq
  ofValue_eq := a.ofValue_eq

theorem Apart.within {get : τ → σ} {set : τ → σ → τ} {hget : ∀ s x, get (set s x) = x}
    (hset : ∀ s x y, set (set s x) y = set s y) {a b : Slot σ} (h : a.Apart b) :
    (a.within get set hget).Apart (b.within get set hget) where
  put_comm (x : a.Content) (y : b.Content) s := by
    show set (set s _) (a.put x (get (set s _))) = set (set s _) (b.put y (get (set s _)))
    rw [hset, hset, hget, hget, h.put_comm]
  filled_left (y : b.Content) s := by
    show a.field.filled (get (set s _)) = a.field.filled (get s)
    rw [hget, h.filled_left]
  filled_right (x : a.Content) s := by
    show b.field.filled (get (set s _)) = b.field.filled (get s)
    rw [hget, h.filled_right]

/-- A slot of the first of two parts. -/
def left (a : Slot σ) : Slot (σ × τ) := a.within Prod.fst (fun s part => (part, s.2)) fun _ _ => rfl

/-- A slot of the second of two parts. -/
def right (b : Slot τ) : Slot (σ × τ) :=
  b.within Prod.snd (fun s part => (s.1, part)) fun _ _ => rfl

theorem Apart.left {a b : Slot σ} (h : a.Apart b) : (a.left (τ := τ)).Apart b.left := by
  refine Apart.within ?_ h
  exact fun _ _ _ => rfl

theorem Apart.right {a b : Slot τ} (h : a.Apart b) : (a.right (σ := σ)).Apart b.right := by
  refine Apart.within ?_ h
  exact fun _ _ _ => rfl

theorem apart_left_right (a : Slot σ) (b : Slot τ) : a.left.Apart b.right :=
  ⟨fun _ _ _ => rfl, fun _ _ => rfl, fun _ _ => rfl⟩

/-- A slot can be filled once. -/
def fill (a : Slot σ) (x : Option a.Content) (s : σ) : Option σ :=
  if a.field.filled s then none else x.map (a.put · s)

/-- Two members for one slot are refused, in whichever order and whatever is in them. -/
theorem fill_fill (a : Slot σ) (x y : Option a.Content) (s : σ) :
    (a.fill x s).bind (a.fill y) = none := by
  refine Option.bind_eq_none_iff.mpr fun s' hs' => ?_
  rw [fill] at hs'
  split at hs'
  · cases hs'
  · obtain ⟨content, -, rfl⟩ := Option.map_eq_some_iff.mp hs'
    rw [fill, if_pos (a.filled_put content s)]

/-- Slots that are apart may be filled in either order. If one of them is filled already, or has no
content to be filled with, the outcome is a refusal in both orders. -/
theorem Apart.fill_comm {a b : Slot σ} (h : a.Apart b) (x : Option a.Content)
    (y : Option b.Content) (s : σ) :
    (a.fill x s).bind (b.fill y) = (b.fill y s).bind (a.fill x) := by
  by_cases ha : a.field.filled s = true <;> by_cases hb : b.field.filled s = true
    <;> cases x <;> cases y
  all_goals simp [fill, ha, hb, h.filled_left, h.filled_right, h.put_comm]

/-- **What a member does to a record**: it fills the slot of its name, if there is one. -/
def step (slots : List (Slot σ)) (name : String) (content : ∀ a : Slot σ, Option a.Content)
    (s : σ) : Option σ :=
  match slots.find? (·.field.name = name) with
  | some a => a.fill (content a) s
  | none => some s

section Step

variable {slots : List (Slot σ)} {name : String}

theorem step_unknown (h : slots.find? (·.field.name = name) = none)
    (content : ∀ a : Slot σ, Option a.Content) : step slots name content = some := by
  funext s
  rw [step, h]

theorem step_known {a : Slot σ} (h : slots.find? (·.field.name = name) = some a)
    (content : ∀ a : Slot σ, Option a.Content) : step slots name content = a.fill (content a) := by
  funext s
  rw [step, h]

/-- **Members may be exchanged.** -/
theorem step_comm (hapart : slots.Pairwise Apart) (name : String)
    (content : ∀ a : Slot σ, Option a.Content) (name' : String)
    (content' : ∀ a : Slot σ, Option a.Content) (s : σ) :
    (step slots name content s).bind (step slots name' content')
      = (step slots name' content' s).bind (step slots name content) := by
  cases hfind : slots.find? (·.field.name = name) with
  | none =>
    rw [step_unknown hfind, Option.bind_fun_some]
    rfl
  | some a =>
    cases hfind' : slots.find? (·.field.name = name') with
    | none =>
      rw [step_unknown hfind', Option.bind_fun_some]
      rfl
    | some b =>
      rw [step_known hfind, step_known hfind']
      -- Two names may be of one slot, which then is filled twice.
      by_cases hab : a = b
      · subst hab
        rw [fill_fill, fill_fill]
      · have hapart := hapart.forall (List.mem_of_find?_eq_some hfind)
          (List.mem_of_find?_eq_some hfind') hab
        exact hapart.fill_comm (content a) (content' b) s

end Step

/-- What elements do to a record: they fill the slots in order, and there may be fewer of them. -/
def takeElements : List (Slot σ) → List Tree → σ → Option σ
  | a :: slots, t :: ts, s => ((a.ofTree t).map (a.put · s)).bind (takeElements slots ts)
  | [], _ :: _, _ => none
  | _, [], s => some s

section Reading

variable {slots : List (Slot σ)} {n : Nat}

/-- What reading a member does to the state is the step of its name and tree. A member without a
slot is passed over, and that never fails on a text of a tree. -/
theorem makesMember_readMember {t : Tree} (hn : t.nesting ≤ n) (s : σ) (name : String) :
    MakesMember (Shape.readMember n (slots.map Slot.field) s name) t
      (step slots name (fun a => a.ofTree t) s) := by
  have hfind : (slots.map Slot.field).find? (·.name = name)
      = (slots.find? (·.field.name = name)).map Slot.field := List.find?_map
  cases hslot : slots.find? (·.field.name = name) with
  | none =>
    rw [step_unknown hslot]
    intro behind cs rest hbehind ht hrest
    rw [Shape.readMember, hfind, hslot]
    refine makesMember_colon (x := some s) (fun cs rest ht hrest => ?_) hbehind ht hrest
    show (skip cs >>= fun rest => pure (s, rest)).toOption = _
    rw [skip_leads ht hrest]
    rfl
  | some a =>
    rw [step_known hslot, fill]
    intro behind cs rest hbehind ht hrest
    rw [Shape.readMember, hfind, hslot]
    dsimp only [Option.map]
    split
    · rfl
    · exact makesMember_colon (a.reads hn s) hbehind ht hrest

theorem takeElements_nil (slots : List (Slot σ)) (s : σ) : takeElements slots [] s = some s := by
  cases slots <;> rfl

theorem readElements_done {first : Bool} {blanks : List Char} (hblanks : Blank blanks)
    (rest : List Char) (s : σ) :
    Shape.readElements n (slots.map Slot.field) first s (blanks ++ ']' :: rest)
      = .ok (s, rest) := by
  cases slots with
  | nil =>
    have hend : endArray (blanks ++ ']' :: rest) = .ok rest := by
      rw [endArray, skipSpace_append hblanks, skipSpace_cons (by decide)]
      exact if_pos rfl
    rw [List.map_nil, Shape.readElements, hend]
    rfl
  | cons a slots =>
    rw [List.map_cons, Shape.readElements, nextElement_done hblanks]
    rfl

/-- One element fills one slot. -/
theorem readElements_round {a : Slot σ} {t : Tree} (hn : t.nesting ≤ n) {first : Bool}
    {cs after rest : List Char} (hnext : nextElement first cs = .ok (.element after))
    (ht : t.Leads after rest) (hrest : Ends rest) (s : σ) :
    (Shape.readElements n (a.field :: slots.map Slot.field) first s cs).toOption
      = ((a.ofTree t).map (a.put · s)).bind fun s =>
          (Shape.readElements n (slots.map Slot.field) false s rest).toOption := by
  have hround : Shape.readElements n (a.field :: slots.map Slot.field) first s cs
      = a.field.read n s after >>= fun r =>
        Shape.readElements n (slots.map Slot.field) false r.1 r.2 := by
    rw [Shape.readElements, hnext]
    rfl
  rw [hround, toOption_bind, a.reads hn s ht hrest, Option.bind_map]
  rfl

/-- An element too many is refused, the first one at once and another at the comma in front of
it. -/
theorem endArray_separated {t : Tree} {first : Bool} {cs inner after : List Char}
    (hfront : Separated first cs inner) (ht : t.Leads inner after) :
    (endArray cs).toOption = none := by
  cases hfront with
  | first =>
    obtain ⟨c, tail, hskip, hopens⟩ := ht.fronts.opening
    have hne (d : Char) (hd : opensValue d = false) : c ≠ d := by
      rintro rfl
      rw [hopens] at hd
      cases hd
    rw [endArray, hskip]
    dsimp only
    rw [if_neg (hne ']' (by decide)), if_neg (hne ',' (by decide))]
    rfl
  | later hblanks =>
    rw [endArray, skipSpace_append hblanks, skipSpace_cons (by decide)]
    dsimp only
    rw [if_neg (by decide), if_pos rfl]
    split <;> rfl

/-- The elements of a record are taken into its slots, one after the other. -/
theorem readElements_sequence {ts : List Tree} {first : Bool} {cs rest : List Char}
    (h : Sequence ']' Tree.Leads first ts cs rest) (hn : ∀ t ∈ ts, t.nesting ≤ n) (s : σ) :
    (Shape.readElements n (slots.map Slot.field) first s cs).toOption
      = (takeElements slots ts s).map (·, rest) := by
  induction h generalizing slots s with
  | nil hblanks =>
    rw [readElements_done hblanks, takeElements_nil]
    rfl
  | cons hfront ht hts ih =>
    obtain ⟨hfirst, hothers⟩ := List.forall_mem_cons.mp hn
    cases slots with
    | nil =>
      rw [List.map_nil, Shape.readElements, toOption_bind, endArray_separated hfront ht]
      rfl
    | cons a slots =>
      rw [List.map_cons, readElements_round hfirst (nextElement_separated hfront ht)
        ht.fronts.leads (hts.ends (.inl rfl)), takeElements]
      simp only [ih hothers]
      exact Option.map_bind.symm

/-- Elements keep their order, so it is enough that each slot takes no notice of what is rearranged
inside its own element. -/
theorem takeElements_eq {ts ts' : List Tree} (h : List.Forall₂ Tree.Rearranges ts ts')
    (slots : List (Slot σ)) (s : σ) : takeElements slots ts s = takeElements slots ts' s := by
  induction h generalizing slots s with
  | nil => rfl
  | cons ht _ ih =>
    cases slots with
    | nil => rfl
    | cons a slots =>
      rw [takeElements, takeElements, a.ofTree_eq ht]
      exact congrArg _ (funext (ih slots))

/-- The same for elements in memory. -/
theorem toOption_convertElements {vs vs' : List Value}
    (h : List.Forall₂ Value.Rearranges vs vs') (s : σ) :
    (Shape.convertElements (slots.map Slot.field) vs s).toOption
      = (Shape.convertElements (slots.map Slot.field) vs' s).toOption := by
  induction h generalizing slots s with
  | nil => rfl
  | cons hv _ ih =>
    cases slots with
    | nil => rfl
    | cons a slots =>
      rw [List.map_cons, Shape.convertElements, Shape.convertElements, toOption_bind, toOption_bind,
        a.converts, a.converts, a.ofValue_eq hv]
      exact congrArg _ (funext ih)

/-- In memory too each member makes the step of its name. -/
theorem toOption_convertMembers (ms : List (String × Value)) (s : σ) :
    (Shape.convertMembers (slots.map Slot.field) ms s).toOption
      = ms.foldlM (fun s m => step slots m.1 (fun a => a.ofValue m.2) s) s := by
  induction ms generalizing s with
  | nil => rfl
  | cons m ms ih =>
    have hfind : (slots.map Slot.field).find? (·.name = m.1)
        = (slots.find? (·.field.name = m.1)).map Slot.field := List.find?_map
    rw [List.foldlM_cons, Shape.convertMembers, hfind]
    cases hslot : slots.find? (·.field.name = m.1) with
    | none =>
      rw [step_unknown hslot]
      exact ih s
    | some a =>
      rw [step_known hslot, fill]
      dsimp only [Option.map]
      split
      · rfl
      · rw [toOption_bind, a.converts]
        simp only [ih]
        rfl

end Reading

end Slot

namespace Shape

/-- **A record form whose fields fill slots of their own.** -/
def Orderless (shape : Shape α) : Prop :=
  ∃ slots : List (Slot shape.Slots), shape.fields = slots.map Slot.field ∧ slots.Pairwise Slot.Apart

/-- A single field has a single slot: an option, which the field fills with what its decoder makes
of a tree or of a value. -/
theorem orderless_single {item : Decoder α} (h : item.Orderless) (name : String)
    (absent : Except String α) :
    (single name item absent).Orderless := by
  -- The slot of a single field is the whole state.
  obtain ⟨meaning, hmeaning, hsame⟩ := h.read
  refine ⟨[{
    field := _
    Content := α
    put := fun x _ => some x
    ofTree := meaning
    ofValue := fun v => (item.convert v).toOption
    reads := fun hn _ => (hmeaning hn).map some
    converts := fun v _ => toOption_map _ _
    filled_put := fun _ _ => rfl
    ofTree_eq := hsame
    ofValue_eq := fun hv => h.convert hv }], rfl, List.pairwise_singleton _ _⟩

theorem orderless_required {item : Decoder α} (h : item.Orderless) (name : String) :
    (required name item).Orderless :=
  orderless_single h name _

theorem orderless_optional {item : Decoder α} (h : item.Orderless) (name : String) (fallback : α) :
    (optional name item fallback).Orderless :=
  orderless_single h name _

theorem orderless_nullable {item : Decoder α} (h : item.Orderless) (name : String) :
    (nullable name item).Orderless :=
  orderless_single h.nullable name _

theorem Orderless.map {shape : Shape α} (h : shape.Orderless) (f : α → β) :
    (shape.map f).Orderless := h

/-- Side by side, the slots of two forms are apart among themselves and from one another. -/
theorem Orderless.seq {shape : Shape (α → β)} {next : Shape α} (h : shape.Orderless)
    (hnext : next.Orderless) :
    (shape.seq next).Orderless := by
  obtain ⟨as, has, hasApart⟩ := h
  obtain ⟨bs, hbs, hbsApart⟩ := hnext
  have hfields : shape.fields.map (Field.within Prod.fst fun slots part => (part, slots.2))
        ++ next.fields.map (Field.within Prod.snd fun slots part => (slots.1, part))
      = (as.map Slot.left ++ bs.map Slot.right).map Slot.field := by
    rw [List.map_append, List.map_map, List.map_map, has, hbs, List.map_map, List.map_map]
    rfl
  refine ⟨_, hfields, List.pairwise_append.mpr ⟨?_, ?_, ?_⟩⟩
  · exact List.pairwise_map.mpr (hasApart.imp Slot.Apart.left)
  · exact List.pairwise_map.mpr (hbsApart.imp Slot.Apart.right)
  · intro a ha b hb
    obtain ⟨a, -, rfl⟩ := List.mem_map.mp ha
    obtain ⟨b, -, rfl⟩ := List.mem_map.mp hb
    exact Slot.apart_left_right a b

section Decoding

variable {shape : Shape α} {slots : List (Slot shape.Slots)}

/-- What a record is made of. -/
def recordMeaning (shape : Shape α) (slots : List (Slot shape.Slots)) : Tree → Option α
  | .scalar _ => none
  | .array ts => (Slot.takeElements slots ts shape.blank).bind fun s => (shape.build s).toOption
  | .object ms =>
    (ms.foldlM (fun s m => (text? m.1).bind fun name =>
        Slot.step slots name (fun a => a.ofTree m.2) s) shape.blank).bind
      fun s => (shape.build s).toOption

/-- The last step of a reader makes a record of its slots. -/
theorem toOption_build {build : σ → Except String α}
    {finish : σ × List Char → Except Failure (α × List Char)}
    (hok : ∀ s rest x, build s = .ok x → finish (s, rest) = .ok (x, rest))
    (herror : ∀ s rest name, build s = .error name → (finish (s, rest)).toOption = none)
    {read : Except Failure (σ × List Char)} {x : Option σ} {rest : List Char}
    (h : read.toOption = x.map (·, rest)) :
    (read >>= finish).toOption = (x.bind fun s => (build s).toOption).map (·, rest) := by
  rw [toOption_bind, h, Option.bind_map, Option.map_bind]
  refine congrArg x.bind (funext fun s => ?_)
  simp only [Function.comp]
  cases hbuild : build s with
  | error name => exact herror s rest name hbuild
  | ok x =>
    rw [hok s rest x hbuild]
    rfl

/-- Reading a record, in either form, comes to its meaning. -/
theorem makes_read (hfields : shape.fields = slots.map Slot.field) {n : Nat} {t : Tree}
    (hn : t.nesting ≤ n) (name : String) :
    Makes (shape.read name n) t (recordMeaning shape slots t) := by
  cases t with
  | scalar token =>
    refine makes_atNext_scalar fun c cs hbracket hbrace => ?_
    rw [if_neg hbracket, if_neg hbrace]
    exact toOption_mismatch _ _
  | array ts =>
    refine makes_atNext_array fun {cs rest} hts => ?_
    obtain ⟨n, rfl, hitems⟩ := Tree.exists_of_array_nesting_le hn
    -- by place: the elements go to the fields in the order of the shape
    have hread : (readElements n shape.fields true shape.blank cs).toOption
        = (Slot.takeElements slots ts shape.blank).map (·, rest) := by
      rw [hfields]
      exact Slot.readElements_sequence hts hitems shape.blank
    rw [if_pos rfl]
    refine toOption_build (fun s rest x hbuild => ?_) (fun s rest name hbuild => ?_) hread
    all_goals
      dsimp only
      rw [hbuild]
      rfl
  | object ms =>
    refine makes_atNext_object fun {cs rest} hms => ?_
    obtain ⟨n, rfl, hfound⟩ := Tree.exists_of_object_nesting_le hn
    -- by name: a member goes to the field that is called so
    have hread : (members (readMember n shape.fields) cs true shape.blank cs).toOption
        = (ms.foldlM (fun s m => (text? m.1).bind fun name =>
            Slot.step slots name (fun a => a.ofTree m.2) s) shape.blank).map (·, rest) := by
      rw [hfields]
      exact members_sequence (fun s name t => Slot.step slots name (fun a => a.ofTree t) s) hms
        (fun m hm s name => Slot.makesMember_readMember (hfound m hm) s name)
        (hms.length_lt Tree.MemberLeads.length_lt) shape.blank
    rw [if_neg (by decide), if_pos rfl]
    refine toOption_build (fun s rest x hbuild => ?_) (fun s rest name hbuild => ?_) hread
    all_goals
      dsimp only
      rw [hbuild]
      rfl

/-- **The meaning of a record does not depend on the order of its members.** The members make their
steps one after the other, and neighbouring steps may be exchanged. -/
theorem recordMeaning_eq (hapart : slots.Pairwise Slot.Apart) {t t' : Tree} (h : t.Rearranges t') :
    recordMeaning shape slots t = recordMeaning shape slots t' := by
  cases h with
  | scalar => rfl
  | array hts => rw [recordMeaning, recordMeaning, Slot.takeElements_eq hts]
  | object hms hperm =>
    rw [recordMeaning, recordMeaning]
    refine congrArg (Option.bind · _)
      (foldlM_reordered (fun s m m' => ?_) (fun s m m' hm => ?_) hms hperm _)
    · cases text? m.1 with
      | none => simp
      | some name =>
        cases text? m'.1 with
        | none => simp
        | some name' => exact Slot.step_comm hapart _ _ _ _ s
    · obtain ⟨ht⟩ := hm
      simp only [Slot.ofTree_eq _ ht]

/-- In memory the length of an array is looked at last, when its elements have been taken and a
record has been made of them. -/
theorem toOption_convert_array (name : String) (vs : List Value) :
    (shape.convert name (.array vs)).toOption
      = ((convertElements shape.fields vs shape.blank).toOption.bind
        fun s => (shape.build s).toOption).bind
          fun x => if vs.length ≤ shape.fields.length then some x else none := by
  rw [Shape.convert, toOption_bind, Option.bind_assoc]
  refine congrArg _ (funext fun s => ?_)
  cases shape.build s with
  | error field => rfl
  | ok x =>
    by_cases hlength : vs.length ≤ shape.fields.length
    · simp only [hlength, if_true]
      rfl
    · simp only [hlength, if_false]
      rfl

theorem toOption_convert_object (name : String) (ms : List (String × Value)) :
    (shape.convert name (.object ms)).toOption
      = (convertMembers shape.fields ms shape.blank).toOption.bind
      fun s => (shape.build s).toOption := by
  rw [Shape.convert, toOption_bind]
  refine congrArg _ (funext fun s => ?_)
  cases shape.build s <;> rfl

/-- Records are converted alike in whichever order their members are. -/
theorem Orderless.converts (h : shape.Orderless) (name : String) :
    ConvertsAlike (shape.convert name) := by
  obtain ⟨slots, hfields, hapart⟩ := h
  intro v v' hv
  cases hv with
  | refl => rfl
  | array hvs =>
    rw [toOption_convert_array, toOption_convert_array, hvs.length_eq, hfields,
      Slot.toOption_convertElements hvs]
  | object hms hperm =>
    rw [toOption_convert_object, toOption_convert_object, hfields, Slot.toOption_convertMembers,
      Slot.toOption_convertMembers]
    refine congrArg (Option.bind · _)
      (foldlM_reordered (fun s m m' => ?_) (fun s m m' hm => ?_) hms hperm _)
    · exact Slot.step_comm hapart _ _ _ _ s
    · obtain ⟨hv⟩ := hm
      simp only [Slot.ofValue_eq _ hv]

theorem Orderless.decoder (h : shape.Orderless) (name : String) :
    (shape.decoder name).Orderless where
  read := by
    obtain ⟨slots, hfields, hapart⟩ := h
    exact ⟨recordMeaning shape slots, fun hn => makes_read hfields hn name, recordMeaning_eq hapart⟩
  convert := h.converts name

end Decoding

end Shape

end ArithScript.Json
