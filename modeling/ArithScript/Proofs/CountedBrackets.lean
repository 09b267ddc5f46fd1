import ArithScript.Json.Decoder
import ArithScript.Proofs.JsonReading

/-!
# Counted brackets

A reader is told how many brackets it may open. Once the brackets of a text have been counted, it
makes no difference by how many this is too much: whatever the reader does, it opens a bracket only
where one has been counted. `value_congr` says so of values. The loops over elements and members
agree as soon as their steps do, because what a step has read is a tree, and behind a tree the count
is where it was in front of it.
-/

set_option autoImplicit false

namespace ArithScript.Json

variable {α : Type}

/-! ## Texts within a limit

A text is within a limit at some depth if counting its brackets from there on never goes beyond the
limit. The lemmas follow the count over whatever a reader takes: blanks, tokens, brackets, whole
trees. -/

/-- The brackets of a text that goes on from a depth stay within a limit. -/
structure Within (limit depth : Nat) (cs : List Char) : Prop where
  depth_le : depth ≤ limit
  counted : nestingWithin limit .outside depth cs = true

/-- A text that is shorter than the room left cannot have too many brackets. -/
theorem nestingWithin_of_length_le {limit : Nat} {state : NestingState} {depth : Nat}
    {cs : List Char} (h : depth + cs.length ≤ limit) :
    nestingWithin limit state depth cs = true := by
  induction cs generalizing state depth with
  | nil => rfl
  | cons c cs ih =>
    rw [List.length_cons] at h
    cases state with
    | outside =>
      rw [nestingWithin]
      split
      · exact ih (by omega)
      split
      · rw [if_neg (by omega)]
        exact ih (by omega)
      split <;> exact ih (by omega)
    | inString =>
      rw [nestingWithin]
      split
      · exact ih (by omega)
      split <;> exact ih (by omega)
    | escaped => exact ih (by omega)

namespace Within

variable {limit depth : Nat} {cs rest : List Char}

/-- What passes at a depth leaves the rest of the text at that depth. -/
theorem drop (h : Within limit depth (cs ++ rest)) (hpasses : Passes limit depth cs) :
    Within limit depth rest :=
  ⟨h.depth_le, (hpasses rest).symm.trans h.counted⟩

theorem blank (h : Within limit depth (cs ++ rest)) (hblanks : Blank cs) :
    Within limit depth rest :=
  h.drop (passes_blank hblanks)

theorem quoted (h : Within limit depth (quote cs ++ rest)) (hquoted : Quoted cs) :
    Within limit depth rest :=
  h.drop (passes_quote hquoted)

theorem mark {c : Char} (h : Within limit depth (c :: rest)) (hc : isQuiet c = true) :
    Within limit depth rest :=
  have hquiet : ∀ d ∈ [c], isQuiet d = true := List.forall_mem_singleton.mpr hc
  Within.drop (show Within limit depth ([c] ++ rest) from h) (passes_quiet hquiet)

theorem skipSpace (h : Within limit depth cs) : Within limit depth (skipSpace cs) := by
  obtain ⟨blanks, hblanks, hcs⟩ := @exists_blank_of_skipSpace cs _ rfl
  rw [hcs] at h
  exact h.blank hblanks

/-- Behind an opening bracket the count is one further, and still within the limit. -/
theorem opening {c : Char} (h : Within limit depth (c :: cs)) (hc : c = '[' ∨ c = '\x7b') :
    Within limit (depth + 1) cs := by
  have hcounted := h.counted
  rw [nestingWithin_opening hc, Bool.and_eq_true, decide_eq_true_eq] at hcounted
  exact ⟨hcounted.1, hcounted.2⟩

/-- Two readers that may each open as many brackets as the limit allows can both open one that has
been counted, and the same holds of them behind it. -/
theorem levels_of_opening {c : Char} {bound bound' : Nat} (h : Within limit depth (c :: cs))
    (hc : c = '[' ∨ c = '\x7b') (hbound : limit ≤ depth + bound)
    (hbound' : limit ≤ depth + bound') :
    Within limit (depth + 1) cs ∧ (∃ k, bound = k + 1 ∧ limit ≤ depth + 1 + k)
      ∧ ∃ k, bound' = k + 1 ∧ limit ≤ depth + 1 + k := by
  have hinner := h.opening hc
  have hdepth := hinner.depth_le
  exact ⟨hinner, ⟨bound - 1, by omega, by omega⟩, bound' - 1, by omega, by omega⟩

/-- Behind a tree the count is where it was in front of it, and in between it has been at the
nesting of the tree. -/
theorem leads {t : Tree} (h : Within limit depth cs) (ht : t.Leads cs rest) :
    depth + t.nesting ≤ limit ∧ Within limit depth rest := by
  obtain ⟨before, text, hbefore, htext, rfl⟩ := ht
  rw [List.append_assoc] at h
  have hcounted := (h.blank hbefore).counted
  rw [Tree.measures_spells htext h.depth_le rest, Bool.and_eq_true, decide_eq_true_eq] at hcounted
  exact ⟨hcounted.1, h.depth_le, hcounted.2⟩

/-- Neither the comma nor the blanks in front of an item are brackets. -/
theorem separated {first : Bool} (h : Within limit depth cs) (hfront : Separated first cs rest) :
    Within limit depth rest := by
  cases hfront with
  | first => exact h
  | later hblanks => exact (h.blank hblanks).mark (by decide)

/-- So where the next element starts the count is the same, and the same goes for members and
colons. -/
theorem nextElement {first : Bool} (h : Within limit depth cs)
    (hnext : nextElement first cs = .ok (.element rest)) : Within limit depth rest := by
  obtain ⟨blanks, hblanks, hfront⟩ := separated_of_nextElement hnext
  exact (h.separated hfront).blank hblanks

theorem nextMember {first : Bool} {name : String} (h : Within limit depth cs)
    (hnext : nextMember first cs = .ok (.member name rest)) : Within limit depth rest := by
  obtain ⟨blanks, raw, hblanks, hraw, hfront⟩ := separated_of_nextMember hnext
  exact ((h.separated hfront).blank hblanks).quoted hraw

theorem colon (h : Within limit depth cs) (hcolon : colon cs = .ok rest) :
    Within limit depth rest := by
  obtain ⟨blanks, hblanks, rfl⟩ := blank_of_colon hcolon
  exact (h.blank hblanks).mark (by decide)

end Within

/-! ## Readers that agree within a limit

Two bounds for the same text are compared by running both readers side by side. They make the same
decisions, and wherever one of them opens a bracket the count has room for it, so both bounds do. -/

section Agreement

variable {σ : Type} {limit depth : Nat}

/-- Loops over elements agree if their steps do. What a step has read is a tree, so the count is the
same in front of each element. -/
theorem elements_congr {step step' : σ → List Char → Except Failure (σ × List Char)}
    {R : Tree → σ → σ → Prop}
    (hleads : ∀ s cs s' rest, step s cs = .ok (s', rest) → ∃ t : Tree, t.Leads cs rest ∧ R t s s')
    (hstep : ∀ s cs, Within limit depth cs → step s cs = step' s cs)
    {bound : List Char} {first : Bool} {s : σ} {cs : List Char} (h : Within limit depth cs) :
    elements step bound first s cs = elements step' bound first s cs := by
  induction bound generalizing first s cs with
  | nil => rfl
  | cons b bound ih =>
    refine bind_congr_of_ok rfl fun next hnext => ?_
    cases next with
    | done rest => rfl
    | element rest =>
      -- The steps agree on failures too. Only from a success the loops go on.
      have hrest := h.nextElement hnext
      refine bind_congr_of_ok (hstep s rest hrest) fun r hr => ?_
      obtain ⟨t, ht, -⟩ := hleads _ _ _ _ hr
      exact ih (hrest.leads ht).2

/-- As for elements, with a name and a colon in front of what is read. -/
theorem members_congr {step step' : σ → String → List Char → Except Failure (σ × List Char)}
    {R : List Char × Tree → σ → σ → Prop}
    (hleads : ∀ s name cs s' rest raw, step s name cs = .ok (s', rest) →
      ∃ value, colon cs = .ok value ∧ ∃ t : Tree, t.Leads value rest ∧ R (raw, t) s s')
    (hstep : ∀ s name cs, Within limit depth cs → step s name cs = step' s name cs)
    {bound : List Char} {first : Bool} {s : σ} {cs : List Char} (h : Within limit depth cs) :
    members step bound first s cs = members step' bound first s cs := by
  induction bound generalizing first s cs with
  | nil => rfl
  | cons b bound ih =>
    refine bind_congr_of_ok rfl fun next hnext => ?_
    cases next with
    | done rest => rfl
    | member name rest =>
      have hrest := h.nextMember hnext
      refine bind_congr_of_ok (hstep s name rest hrest) fun r hr => ?_
      obtain ⟨value, hcolon, t, ht, -⟩ := hleads _ _ _ _ _ [] hr
      exact ih ((hrest.colon hcolon).leads ht).2

/-- Readers that look at the next character agree if they agree from that character on. -/
theorem atNext_congr {read read' : Char → List Char → Except Failure α} {cs : List Char}
    (hread : ∀ c rest, Within limit depth (c :: rest) → read c rest = read' c rest)
    (h : Within limit depth cs) : atNext cs read = atNext cs read' := by
  have hskip := h.skipSpace
  rw [atNext, atNext]
  cases hcs : skipSpace cs with
  | nil => rfl
  | cons c rest => exact hread c rest (hcs ▸ hskip)

theorem push_congr {read read' : List Char → Except Failure (α × List Char)} {cs : List Char}
    (h : read cs = read' cs) (items : List α) : push read items cs = push read' items cs := by
  rw [push, push, h]

theorem pushMember_congr {read read' : List Char → Except Failure (α × List Char)}
    (hread : ∀ cs, Within limit depth cs → read cs = read' cs) {cs : List Char}
    (h : Within limit depth cs) (found : List (String × α)) (name : String) :
    pushMember read found name cs = pushMember read' found name cs :=
  bind_congr_of_ok rfl fun value hcolon => by rw [hread value (h.colon hcolon)]

/-- **Values are read alike** by all readers that may open as many brackets as have been counted. -/
theorem value_congr {bound bound' : Nat} {cs : List Char} (h : Within limit depth cs)
    (hbound : limit ≤ depth + bound) (hbound' : limit ≤ depth + bound') :
    value bound cs = value bound' cs := by
  induction bound using Nat.strongRecOn generalizing bound' depth cs with
  | ind bound ih =>
    have hskip := h.skipSpace
    unfold value
    cases hcs : skipSpace cs with
    | nil => rfl
    | cons c rest =>
      rw [hcs] at hskip
      by_cases hbracket : c = '['
      · -- The bracket has been counted, so neither of the readers stops here.
        obtain ⟨hinner, ⟨k, rfl, hk⟩, k', rfl, hk'⟩ :=
          hskip.levels_of_opening (.inl hbracket) hbound hbound'
        have hread (cs : List Char) (h : Within limit (depth + 1) cs) : value k cs = value k' cs :=
          ih k (Nat.lt_succ_self k) h hk hk'
        simp only [hbracket, if_true]
        exact bind_congr_of_ok (elements_congr (leads_of_push fun _ _ _ => leads_of_value)
          (fun s cs h => push_congr (hread cs h) s) hinner) fun _ _ => rfl
      by_cases hbrace : c = '\x7b'
      · obtain ⟨hinner, ⟨k, rfl, hk⟩, k', rfl, hk'⟩ :=
          hskip.levels_of_opening (.inr hbrace) hbound hbound'
        have hread (cs : List Char) (h : Within limit (depth + 1) cs) : value k cs = value k' cs :=
          ih k (Nat.lt_succ_self k) h hk hk'
        simp only [hbrace, if_true]
        exact bind_congr_of_ok (members_congr (leads_of_pushMember fun _ _ _ => leads_of_value)
          (fun s name cs h => pushMember_congr hread h s name) hinner) fun _ _ => rfl
      · simp only [hbracket, hbrace, if_false]

end Agreement

/-! ## Whole texts -/

/-- Whole texts are read alike by readers that agree on them. -/
theorem readText_congr {read read' : List Char → Except Failure (α × List Char)} {cs : List Char}
    (h : read cs = read' cs) : readText read cs = readText read' cs := by
  rw [readText, readText, h]

theorem exists_of_readText {read : List Char → Except Failure (α × List Char)} {cs : List Char}
    {x : α} (h : readText read cs = .ok x) : ∃ rest, read cs = .ok (x, rest) := by
  rw [readText] at h
  cases hread : read cs with
  | error failure =>
    rw [hread] at h
    cases h
  | ok r =>
    cases hend : endOfText r.2 with
    | error failure =>
      simp only [hread, hend, bind, Except.bind] at h
      cases h
    | ok _ =>
      simp only [hread, hend, bind, Except.bind] at h
      cases h
      exact ⟨r.2, rfl⟩

end ArithScript.Json
