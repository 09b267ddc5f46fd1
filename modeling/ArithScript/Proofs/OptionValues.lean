import ArithScript.Proofs.FlagArguments

/-!
# Values among the arguments

An option has its value behind an equals sign or in the next argument. A value of the second kind is
looked at later than it comes, and so is a missing one. In the end this makes no difference: if the
arguments are accepted, what has been taken for an option without a letter is the value that
`valueGiven?` finds among them (`kept_of_steps`), or nothing if it finds none.

The invariant is what a state will have been told at the end (`Intake.told`): what it has taken, or
what is pending, or what is still among the arguments. Each argument moves something from the end of
this list towards its front, and nothing is lost on the way.
-/

set_option autoImplicit false

namespace ArithScript.Command

/-- The value that some arguments give to an option: behind an equals sign, or as the next one. -/
def valueGiven? (option : String) : List String → Option String
  | [] => none
  | argument :: arguments =>
    if argument = option then arguments.head?
    else if (option.toList ++ ['=']).isPrefixOf argument.toList then
      some (String.ofList (argument.toList.drop (option.toList.length + 1)))
    else valueGiven? option arguments

/-- **An option that has a name and a value but no letter**, with the part of what is taken that
keeps its value and the way in which the value is read. -/
structure Argument.Keeps (argument : Argument) (name : String) {β : Type}
    (kept : Taken → Option β) (read : String → Option β) : Prop where
  named : (name, argument) ∈ Argument.names
  hasValue : argument.takesValue = true
  noLetter : argument ∉ [Argument.output, .verbose, .help]
  has : ∀ taken : Taken, taken.has argument = (kept taken).isSome
  set : ∀ {taken next : Taken} {value : String}, taken.setValue argument value = .ok next →
    kept next = read value ∧ (read value).isSome
  setOther : ∀ {taken next : Taken} {other : Argument} {value : String}, other ≠ argument →
    taken.setValue other value = .ok next → kept next = kept taken
  setFlags : ∀ (taken : Taken) (flags : List Argument),
    kept { taken with flags := flags } = kept taken

/-- Whether an option has been taken is kept as well. -/
theorem Argument.Keeps.present {argument : Argument} {name : String} {β : Type}
    {kept : Taken → Option β} {read : String → Option β} (h : argument.Keeps name kept read) :
    argument.Keeps name (fun taken => (kept taken).map fun _ => ()) fun _ => some () where
  named := h.named
  hasValue := h.hasValue
  noLetter := h.noLetter
  has taken := by rw [h.has, Option.isSome_map]
  set hset := by
    obtain ⟨hkept, hread⟩ := h.set hset
    obtain ⟨value, hvalue⟩ := Option.isSome_iff_exists.mp hread
    rw [hkept, hvalue]
    exact ⟨rfl, rfl⟩
  setOther hother hset := by rw [h.setOther hother hset]
  setFlags taken flags := by rw [h.setFlags]

/-! ## How the value of an option is spelled

An option by name may have an equals sign in it, and then the value is behind the sign. The name in
front has to be the full name. -/

section

variable {name : String} {cs : List Char}

/-- Characters up to an equals sign, and the sign with what follows. -/
theorem split_at_equals {front : List Char} (hfront : front.dropWhile (· ≠ '=') = [])
    (value : List Char) :
    (front ++ '=' :: value).takeWhile (· ≠ '=') = front
      ∧ (front ++ '=' :: value).dropWhile (· ≠ '=') = '=' :: value := by
  have hwhole := List.takeWhile_append_dropWhile (p := fun c => decide (c ≠ '=')) (l := front)
  rw [hfront, List.append_nil] at hwhole
  have hall : ∀ c ∈ front, decide (c ≠ '=') = true := by
    rw [← List.all_eq_true, ← hwhole]
    exact List.all_takeWhile
  rw [List.takeWhile_append_of_pos hall, List.dropWhile_append_of_pos hall]
  simp

/-- An argument with an equals sign gives the value behind it to the option whose name is in front
of the sign; it gives nothing to others. -/
theorem valueGiven?_of_equals {argument : String} (arguments : List String)
    (hname : name.toList.dropWhile (· ≠ '=') = []) {value : List Char} {sign : Char}
    (hspelled : argument.toList = '-' :: '-' :: cs)
    (hvalue : cs.dropWhile (· ≠ '=') = sign :: value) :
    valueGiven? ("--" ++ name) (argument :: arguments)
      = if String.ofList (cs.takeWhile (· ≠ '=')) = name then some (String.ofList value)
        else valueGiven? ("--" ++ name) arguments := by
  have hoption : ("--" ++ name).toList = '-' :: '-' :: name.toList := String.toList_append
  -- the argument has an equals sign and the option has none, so they differ
  have hother : argument ≠ "--" ++ name := by
    rintro rfl
    rw [hoption] at hspelled
    obtain rfl : name.toList = cs := by simpa using hspelled
    rw [hname] at hvalue
    cases hvalue
  rw [valueGiven?, if_neg hother, hoption, hspelled]
  by_cases hfront : String.ofList (cs.takeWhile (· ≠ '=')) = name
  · obtain rfl : sign = '=' := by
      have hhead := List.head?_dropWhile_not (fun c => decide (c ≠ '=')) cs
      rw [hvalue] at hhead
      simpa using hhead
    have hcs : cs = name.toList ++ '=' :: value := by
      rw [← hfront, String.toList_ofList, ← hvalue]
      exact (List.takeWhile_append_dropWhile (p := fun c => decide (c ≠ '='))).symm
    rw [if_pos hfront, hcs]
    simp
  · have hprefix : ¬ ('-' :: '-' :: name.toList ++ ['=']).isPrefixOf ('-' :: '-' :: cs) := by
      rw [List.isPrefixOf_iff_prefix]
      rintro ⟨rest, hrest⟩
      obtain rfl : name.toList ++ '=' :: rest = cs := by simpa using hrest
      rw [(split_at_equals hname rest).1, String.ofList_toList] at hfront
      exact hfront rfl
    rw [if_neg hfront, if_neg hprefix]

/-- An argument without an equals sign that is no option by this name gives no value to it. -/
theorem valueGiven?_of_ne {argument : String} (arguments : List String)
    (hother : argument ≠ "--" ++ name)
    (hsign : ∀ rest, argument.toList ≠ '-' :: '-' :: name.toList ++ '=' :: rest) :
    valueGiven? ("--" ++ name) (argument :: arguments) = valueGiven? ("--" ++ name) arguments := by
  have hoption : ("--" ++ name).toList = '-' :: '-' :: name.toList := String.toList_append
  rw [valueGiven?, if_neg hother, if_neg]
  rw [List.isPrefixOf_iff_prefix, hoption]
  rintro ⟨rest, hrest⟩
  exact hsign rest (by simpa using hrest.symm)

end

/-! ## What a state will have been told

Three things are asked in turn: whether the option has been taken, whether it is pending with a
value or without, and what comes among the arguments. The first that has an answer decides. -/

namespace Intake

/-- The value that is pending for an argument. -/
def pendingValue? (argument : Argument) (state : Intake) : Option String :=
  state.pending.bind fun pending => if pending.1 = argument then pending.2 else none

/-- The value that a state has yet to take for an option: a pending one, the one that is waited for,
or one that comes later. -/
def coming? (argument : Argument) (name : String) (state : Intake) (arguments : List String) :
    Option String :=
  if state.optionsEnded then state.pendingValue? argument
  else if state.pending = some (argument, none) then (optionPart arguments).head?
  else (state.pendingValue? argument).or (valueGiven? ("--" ++ name) (optionPart arguments))

/-- What a state will have been told by an option when the arguments end. -/
def told {β : Type} (argument : Argument) (name : String) (kept : Taken → Option β)
    (read : String → Option β) (state : Intake) (arguments : List String) : Option β :=
  (kept state.taken).or ((state.coming? argument name arguments).bind read)

variable {β : Type} {argument : Argument} {name : String} {kept : Taken → Option β}
  {read : String → Option β} {state next : Intake}

theorem take_cases {taken next : Taken} (h : argument.Keeps name kept read) {other : Argument}
    {value : Option String} (htake : taken.take other value = .ok next) :
    (other ≠ argument ∧ kept next = kept taken)
      ∨ ∃ text, other = argument ∧ value = some text ∧ kept taken = none
        ∧ kept next = read text ∧ (read text).isSome := by
  unfold Taken.take at htake
  split at htake
  · cases htake
  · split at htake
    · next hvalue =>
      split at htake
      · cases htake
      · next text =>
        split at htake
        · cases htake
        · next hhas =>
          -- past the check for a second value only the setter can still fail
          have hset : taken.setValue other text = .ok next := by
            cases hset : taken.setValue other text with
            | error error =>
              rw [hset] at htake
              cases htake
            | ok set =>
              rw [hset] at htake
              cases htake
              rfl
          by_cases hother : other = argument
          · subst hother
            rw [h.has, Bool.not_eq_true, Option.isSome_eq_false_iff, Option.isNone_iff_eq_none]
              at hhas
            exact .inr ⟨text, rfl, rfl, hhas, h.set hset⟩
          · exact .inl ⟨hother, h.setOther hother hset⟩
    · next hvalue =>
      split at htake
      · cases htake
      · cases htake
        refine .inl ⟨?_, h.setFlags taken _⟩
        rintro rfl
        exact hvalue h.hasValue

/-- **Looking at the pending argument** changes nothing about what will have been told. -/
theorem told_settle (h : argument.Keeps name kept read)
    (hsettle : state.settle = .ok next) (arguments : List String) :
    next.told argument name kept read arguments = state.told argument name kept read arguments
      ∧ next.pending = none ∧ next.optionsEnded = state.optionsEnded := by
  unfold settle at hsettle
  split at hsettle
  · next hpending =>
    cases hsettle
    exact ⟨rfl, hpending, rfl⟩
  · next other value hpending =>
    obtain ⟨taken, htake, hnext⟩ := exists_of_bind_eq_ok hsettle
    cases hnext
    refine ⟨?_, rfl, rfl⟩
    have hcame : state.pending ≠ some (argument, none) := by
      rw [hpending]
      rintro ⟨⟩
      rcases take_cases h htake with ⟨hother, -⟩ | ⟨text, -, hnone, -⟩
      · exact hother rfl
      · cases hnone
    rcases take_cases h htake with ⟨hother, hkept⟩ | ⟨text, rfl, rfl, hnone, hkept, hread⟩
    · simp [told, coming?, pendingValue?, hpending, hother, hkept]
    · simp [told, coming?, pendingValue?, hpending, hnone, hkept, Option.or_of_isSome hread]

/-- An argument that has nothing to do with an option is skipped. -/
theorem told_skip (hwaits : state.pending ≠ some (argument, none)) {text : String}
    {arguments : List String}
    (hskip : state.optionsEnded = true ∨ text ≠ "--"
      ∧ valueGiven? ("--" ++ name) (text :: optionPart arguments)
        = valueGiven? ("--" ++ name) (optionPart arguments)) :
    state.told argument name kept read (text :: arguments)
      = state.told argument name kept read arguments := by
  unfold told coming?
  rcases hskip with hended | ⟨htext, hgiven⟩
  · rw [if_pos hended, if_pos hended]
  · rw [optionPart_cons htext, hgiven, if_neg hwaits, if_neg hwaits]

/-- What a step about some other option does: nothing that will have been told changes, and the
option is not left waiting. -/
structure Passes {β : Type} (argument : Argument) (name : String) (kept : Taken → Option β)
    (read : String → Option β) (state next : Intake) : Prop where
  told : ∀ arguments, next.told argument name kept read arguments
    = state.told argument name kept read arguments
  notWaiting : next.pending ≠ some (argument, none)
  ended : next.optionsEnded = state.optionsEnded

theorem passes_takeNow (h : argument.Keeps name kept read) {other : Argument}
    {value : Option String} (hother : other ≠ argument)
    (htake : state.takeNow other value = .ok next) : Passes argument name kept read state next := by
  obtain ⟨settled, hsettle, htake⟩ := exists_of_bind_eq_ok htake
  obtain ⟨taken, htaken, hnext⟩ := exists_of_bind_eq_ok htake
  cases hnext
  have hkept : kept taken = kept settled.taken := by
    rcases take_cases h htaken with ⟨-, hkept⟩ | ⟨text, heq, -⟩
    · exact hkept
    · exact absurd heq hother
  have hsettled := told_settle h hsettle
  refine ⟨fun arguments => ?_, by simp [(hsettled []).2.1], (hsettled []).2.2⟩
  rw [← (hsettled arguments).1]
  simp [told, coming?, pendingValue?, (hsettled []).2.1, hkept]

theorem passes_takeLater (h : argument.Keeps name kept read) {other : Argument}
    {value : Option String} (hother : other ≠ argument)
    (htake : state.takeLater other value = .ok next) :
    Passes argument name kept read state next := by
  obtain ⟨settled, hsettle, hnext⟩ := exists_of_bind_eq_ok htake
  cases hnext
  have hsettled := told_settle h hsettle
  refine ⟨fun arguments => ?_, by simp [hother], (hsettled []).2.2⟩
  rw [← (hsettled arguments).1]
  simp [told, coming?, pendingValue?, (hsettled []).2.1, hother]

/-- **A value that is taken at once** is what will have been told. -/
theorem told_takeNow_self (h : argument.Keeps name kept read)
    {text : String} (htake : state.takeNow argument (some text) = .ok next)
    {first : String} {arguments : List String} (hended : state.optionsEnded = false)
    (hfirst : first ≠ "--")
    (hgiven : valueGiven? ("--" ++ name) (first :: optionPart arguments) = some text) :
    next.told argument name kept read arguments
      = state.told argument name kept read (first :: arguments) := by
  obtain ⟨settled, hsettle, htake⟩ := exists_of_bind_eq_ok htake
  obtain ⟨taken, htaken, hnext⟩ := exists_of_bind_eq_ok htake
  cases hnext
  obtain ⟨htold, hpending, hsame⟩ := told_settle h hsettle (first :: arguments)
  rw [← htold]
  rcases take_cases h htaken with ⟨hother, -⟩ | ⟨text', -, htext, hnone, hkept, hread⟩
  · exact absurd rfl hother
  · cases htext
    simp [told, coming?, pendingValue?, hpending, hnone, hkept, hsame, hended,
      optionPart_cons hfirst, hgiven, Option.or_of_isSome hread]

/-- **An option that waits for its value** will have been told the next argument. -/
theorem told_takeLater_self (h : argument.Keeps name kept read)
    (htake : state.takeLater argument none = .ok next) {arguments : List String}
    (hended : state.optionsEnded = false) (hfirst : "--" ++ name ≠ "--") :
    next.told argument name kept read arguments
      = state.told argument name kept read (("--" ++ name) :: arguments) := by
  obtain ⟨settled, hsettle, hnext⟩ := exists_of_bind_eq_ok htake
  cases hnext
  obtain ⟨htold, hpending, hsame⟩ := told_settle h hsettle (("--" ++ name) :: arguments)
  rw [← htold]
  simp [told, coming?, pendingValue?, hpending, hsame, hended, optionPart_cons hfirst, valueGiven?]

/-! ## Steps

For each kind of argument: if it is about the option, what it brings is found by the state after it;
if not, nothing has changed for the option. -/

/-- A step about some other option skips its argument. -/
theorem Passes.skip (h : Passes argument name kept read state next) {text : String}
    {arguments : List String}
    (hskip : state.optionsEnded = true ∨ text ≠ "--"
      ∧ valueGiven? ("--" ++ name) (text :: optionPart arguments)
        = valueGiven? ("--" ++ name) (optionPart arguments)) :
    next.told argument name kept read arguments
      = state.told argument name kept read (text :: arguments) := by
  rw [← h.told, told_skip h.notWaiting (by rwa [h.ended])]

/-- Options by letters are other options. -/
theorem passes_letters (h : argument.Keeps name kept read) {cs : List Char} :
    ∀ {state : Intake}, (cs = [] → state.pending ≠ some (argument, none)) →
      state.letters cs = .ok next → Passes argument name kept read state next := by
  induction cs with
  | nil =>
    intro state hwaiting hletters
    cases hletters
    exact ⟨fun _ => rfl, hwaiting rfl, rfl⟩
  | cons c cs ih =>
    intro state _ hletters
    unfold letters at hletters
    split at hletters
    · cases hletters
    · next other hletter =>
      -- this option has no letter, so the letters are all for others
      have hother : other ≠ argument := by
        rintro rfl
        exact Argument.ofLetter?_ne h.noLetter c hletter
      split at hletters
      · split at hletters
        · exact passes_takeLater h hother hletters
        · exact passes_takeNow h hother hletters
        · exact passes_takeNow h hother hletters
      · obtain ⟨taken, htaken, hletters⟩ := exists_of_bind_eq_ok hletters
        have hfirst := passes_takeNow h hother htaken
        have hrest := ih (fun _ => hfirst.notWaiting) hletters
        exact ⟨fun arguments => (hrest.told arguments).trans (hfirst.told arguments),
          hrest.notWaiting, hrest.ended.trans hfirst.ended⟩

/-- **An option by name** without a value behind an equals sign. -/
theorem told_option_none (h : argument.Keeps name kept read) {other text : String}
    (hspelled : text = "--" ++ other) (hended : state.optionsEnded = false) (htext : text ≠ "--")
    (hoption : state.option other none = .ok next) {arguments : List String}
    (hskip : other ≠ name → valueGiven? ("--" ++ name) (text :: optionPart arguments)
      = valueGiven? ("--" ++ name) (optionPart arguments)) :
    next.told argument name kept read arguments
      = state.told argument name kept read (text :: arguments) := by
  subst hspelled
  unfold option at hoption
  split at hoption
  · cases hoption
  · next hvalue => cases hvalue
  · next taken hname _ =>
    have hsame : Argument.ofName? other = some argument ↔ other = name :=
      Argument.ofName?_eq_some_iff h.named
    by_cases hother : taken = argument
    · subst hother
      obtain rfl := hsame.mp hname
      rw [if_pos h.hasValue] at hoption
      exact told_takeLater_self h hoption hended htext
    · -- another option, with its value still to come or without any
      have hpasses : Passes argument name kept read state next := by
        split at hoption
        · exact passes_takeLater h hother hoption
        · exact passes_takeNow h hother hoption
      refine hpasses.skip (.inr ⟨htext, hskip fun heq => hother ?_⟩)
      rw [hsame.mpr heq] at hname
      exact (Option.some.inj hname).symm

/-- **An option by name** with a value behind an equals sign. -/
theorem told_option_some (h : argument.Keeps name kept read) {other value text : String}
    (hended : state.optionsEnded = false) (htext : text ≠ "--")
    (hoption : state.option other (some value) = .ok next) {arguments : List String}
    (hgiven : valueGiven? ("--" ++ name) (text :: optionPart arguments)
      = if other = name then some value else valueGiven? ("--" ++ name) (optionPart arguments)) :
    next.told argument name kept read arguments
      = state.told argument name kept read (text :: arguments) := by
  unfold option at hoption
  split at hoption
  · cases hoption
  · next taken value' hname hvalue =>
    cases hvalue
    have hsame : Argument.ofName? other = some argument ↔ other = name :=
      Argument.ofName?_eq_some_iff h.named
    split at hoption
    · by_cases hother : taken = argument
      · subst hother
        rw [if_pos (hsame.mp hname)] at hgiven
        exact told_takeNow_self h hoption hended htext hgiven
      · have hdiffers : other ≠ name := by
          intro heq
          rw [hsame.mpr heq] at hname
          exact hother (Option.some.inj hname).symm
        rw [if_neg hdiffers] at hgiven
        exact (passes_takeNow h hother hoption).skip (.inr ⟨htext, hgiven⟩)
    · cases hoption
  · next hvalue => cases hvalue

/-- A plain argument is the value that is waited for, or the file. -/
theorem told_plain (h : argument.Keeps name kept read) {text : String} {arguments : List String}
    (hskip : state.optionsEnded = true ∨ text ≠ "--"
      ∧ valueGiven? ("--" ++ name) (text :: optionPart arguments)
        = valueGiven? ("--" ++ name) (optionPart arguments))
    (hplain : state.plain text = .ok next) :
    next.told argument name kept read arguments
      = state.told argument name kept read (text :: arguments) := by
  unfold plain at hplain
  split at hplain
  · next awaiting hended hpending =>
    cases hplain
    obtain ⟨htext, hgiven⟩ := hskip.resolve_left (by simp [hended])
    by_cases hawaiting : awaiting = argument
    · simp [told, coming?, pendingValue?, hended, hpending, hawaiting, optionPart_cons htext]
    · simp [told, coming?, pendingValue?, hended, hpending, hawaiting,
        optionPart_cons htext, hgiven]
  · split at hplain
    · cases hplain
    · obtain ⟨later, hlater, hnext⟩ := exists_of_bind_eq_ok hplain
      cases hnext
      have hfile : Argument.file ≠ argument := by
        have hnamed : ∀ p ∈ Argument.names, Argument.file ≠ p.2 := by decide
        exact hnamed _ h.named
      have hpasses := passes_takeLater h hfile hlater
      exact hpasses.skip hskip

/-- **One argument** changes nothing about what will have been told. -/
theorem told_step (h : argument.Keeps name kept read) {text : String}
    (hstep : state.step text = .ok next) (arguments : List String) :
    next.told argument name kept read arguments
      = state.told argument name kept read (text :: arguments) := by
  have hnosign := Argument.dropWhile_of_mem_names h.named
  unfold step at hstep
  cases hended : state.optionsEnded with
  | true =>
    rw [hended, if_pos rfl] at hstep
    exact told_plain h (.inl hended) hstep
  | false =>
    rw [hended, if_neg Bool.false_ne_true] at hstep
    split at hstep
    · -- the options end: an option that waits has waited in vain
      next hdashes =>
      cases hstep
      obtain rfl : text = "--" := String.toList_inj.mp hdashes
      by_cases hwaiting : state.pending = some (argument, none)
      · simp [told, coming?, pendingValue?, hended, hwaiting, optionPart]
      · simp [told, coming?, pendingValue?, hended, hwaiting, optionPart, valueGiven?]
    · next cs hmore hspelled =>
      have htext : text ≠ "--" := by
        rintro rfl
        exact hmore (by simpa using hspelled)
      dsimp only at hstep
      split at hstep
      · next hrest =>
        -- by name alone: its value, if it takes one, is the next argument
        have hall := List.takeWhile_append_dropWhile (p := fun c => decide (c ≠ '=')) (l := cs)
        rw [hrest, List.append_nil] at hall
        rw [hall] at hstep
        have hname : text = "--" ++ String.ofList cs := by
          rw [← String.toList_inj, hspelled, String.toList_append, String.toList_ofList (l := cs)]
          rfl
        refine told_option_none h hname hended htext hstep fun hother => ?_
        refine valueGiven?_of_ne _ (fun heq => hother ?_) fun rest heq => ?_
        · rw [heq, ← String.toList_inj, String.toList_append, String.toList_append] at hname
          exact (String.toList_inj.mp (List.append_cancel_left hname)).symm
        · -- an equals sign would have been found
          obtain rfl : cs = name.toList ++ '=' :: rest := by simpa [hspelled] using heq
          rw [(split_at_equals hnosign rest).2] at hrest
          cases hrest
      · next sign value hrest =>
        exact told_option_some h hended htext hstep
          (valueGiven?_of_equals _ hnosign hspelled hrest)
    · next c cs hmore hletter hspelled =>
      -- by letters, none of which is this option
      have hother : c ≠ '-' := hletter
      refine (passes_letters h (fun hnil => by cases hnil) hstep).skip (.inr ⟨?_, ?_⟩)
      · rintro rfl
        exact hother (List.cons.inj (List.cons.inj hspelled).2).1.symm
      · refine valueGiven?_of_ne _ (fun heq => ?_) fun rest heq => ?_
        · rw [heq, String.toList_append] at hspelled
          exact hother (List.cons.inj (List.cons.inj hspelled).2).1.symm
        · rw [hspelled] at heq
          exact hother (List.cons.inj (List.cons.inj heq).2).1
    · next hend hlong _ =>
      have htext : text ≠ "--" := by
        rintro rfl
        exact hend rfl
      refine told_plain h (.inr ⟨htext, ?_⟩) hstep
      refine valueGiven?_of_ne _ (fun heq => ?_) fun rest heq => hlong _ heq
      exact hlong _ (by rw [heq, String.toList_append]; rfl)

/-- **All arguments.** What has been taken in the end is what was going to be told. -/
theorem kept_of_steps (h : argument.Keeps name kept read) {arguments : List String} :
    ∀ {state : Intake}, state.steps arguments = .ok next →
      kept next.taken = state.told argument name kept read arguments := by
  induction arguments with
  | nil =>
    intro state hsteps
    obtain ⟨htold, hpending, -⟩ := told_settle h hsteps []
    rw [← htold]
    simp [told, coming?, pendingValue?, hpending, optionPart, valueGiven?]
  | cons text arguments ih =>
    intro state hsteps
    obtain ⟨stepped, hstep, hsteps⟩ := exists_of_bind_eq_ok hsteps
    rw [ih hsteps, told_step h hstep]

end Intake

/-! ## The values of a run

The address and the limit of a run are values of two such options. A limit is a number in digits,
within its width. -/

/-- A text that stands for a limit: digits, with a plus sign in front if one likes, for a number of
64 bits. -/
def IsLimit (text : String) (limit : Nat) : Prop :=
  ∃ digits, (text.toList = digits ∨ text.toList = '+' :: digits) ∧ digits ≠ []
    ∧ (∀ c ∈ digits, c.isDigit = true) ∧ Nat.ofDigitChars 10 digits 0 = limit
    ∧ limit < 18446744073709551616

theorem digits_of_limitDigits {cs : List Char} {value limit : Nat}
    (h : limitDigits value cs = .ok limit) (hvalue : value ≤ Json.Width.offset.max) :
    (∀ c ∈ cs, c.isDigit = true) ∧ Nat.ofDigitChars 10 cs value = limit
      ∧ limit ≤ Json.Width.offset.max := by
  induction cs generalizing value with
  | nil =>
    cases h
    exact ⟨fun _ hc => absurd hc List.not_mem_nil, rfl, hvalue⟩
  | cons c cs ih =>
    unfold limitDigits at h
    split at h
    · next hdigit =>
      dsimp only at h
      split at h
      · next hnext =>
        obtain ⟨hdigits, hlimit, hsmall⟩ := ih h hnext
        refine ⟨List.forall_mem_cons.mpr ⟨hdigit, hdigits⟩, ?_, hsmall⟩
        rw [Nat.ofDigitChars_cons, Nat.mul_comm]
        exact hlimit
      · cases h
    · cases h

theorem isLimit_of_parseLimit {text : String} {limit : Nat} (h : parseLimit text = .ok limit) :
    IsLimit text limit := by
  have hread : ∀ cs : List Char, (text.toList = cs ∨ text.toList = '+' :: cs) → cs ≠ [] →
      limitDigits 0 cs = .ok limit → IsLimit text limit := by
    intro cs hspelled hne hdigits
    obtain ⟨hall, hlimit, hsmall⟩ := digits_of_limitDigits hdigits (Nat.zero_le _)
    exact ⟨cs, hspelled, hne, hall, hlimit, Nat.lt_succ_of_le hsmall⟩
  unfold parseLimit at h
  split at h
  · cases h
  · cases h
  · next cs hmore hspelled => exact hread cs (.inr hspelled) hmore h
  · next hne _ _ => exact hread _ (.inl rfl) hne h

theorem keeps_uri : Argument.uri.Keeps "uri" Taken.uri some where
  named := by decide
  hasValue := rfl
  noLetter := by decide
  has _ := rfl
  set h := by
    cases h
    exact ⟨rfl, rfl⟩
  setOther hother h := by
    unfold Taken.setValue at h
    split at h
    · split at h <;> cases h
      rfl
    · exact absurd rfl hother
    · split at h <;> cases h
      rfl
    · split at h <;> cases h
      rfl
    · cases h
  setFlags _ _ := rfl

theorem keeps_maxDepth :
    Argument.maxDepth.Keeps "max-depth" Taken.maxDepth fun text => (parseLimit text).toOption where
  named := by decide
  hasValue := rfl
  noLetter := by decide
  has _ := rfl
  set {taken next value} h := by
    unfold Taken.setValue at h
    dsimp only at h
    split at h
    · next limit hlimit =>
      cases h
      rw [hlimit]
      exact ⟨rfl, rfl⟩
    · cases h
  setOther hother h := by
    unfold Taken.setValue at h
    split at h
    · split at h <;> cases h
      rfl
    · cases h
      rfl
    · split at h <;> cases h
      rfl
    · exact absurd rfl hother
    · cases h
  setFlags _ _ := rfl

/-- **The values of a run** are those that stand among the arguments. -/
theorem values_of_parseArguments {arguments : List String} {i : Invocation}
    (h : parseArguments arguments = .ok (.run i)) :
    i.uri = valueGiven? "--uri" (optionPart arguments)
      ∧ (∀ text, valueGiven? "--max-depth" (optionPart arguments) = some text →
        IsLimit text i.options.maxDepth)
      ∧ (valueGiven? "--max-depth" (optionPart arguments) = none → i.options.maxDepth = 256) := by
  unfold parseArguments at h
  split at h
  · next state hstate =>
    -- one statement for the three readings of the state: each starts out empty and follows its
    -- option
    have htold : ∀ {β : Type} {argument : Argument} {name : String} {kept : Taken → Option β}
        {read : String → Option β}, argument.Keeps name kept read → kept Taken.none = none →
        kept state.taken = (valueGiven? ("--" ++ name) (optionPart arguments)).bind read := by
      intro β argument name kept read hkeeps hnone
      rw [Intake.kept_of_steps hkeeps hstate]
      simp [Intake.told, Intake.coming?, Intake.pendingValue?, Intake.start, hnone]
    have huri := htold keeps_uri rfl
    have hdepth := htold keeps_maxDepth rfl
    have hpresent := htold keeps_maxDepth.present rfl
    rw [show "--" ++ "uri" = "--uri" by decide, Option.bind_fun_some] at huri
    rw [show "--" ++ "max-depth" = "--max-depth" by decide] at hdepth hpresent
    unfold Taken.invocation at h
    split at h
    · cases h
    · cases h
      refine ⟨huri, fun text htext => ?_, fun hnone => ?_⟩
      · rw [htext, Option.bind_some] at hdepth hpresent
        obtain ⟨limit, hlimit, -⟩ := Option.map_eq_some_iff.mp hpresent
        rw [hlimit] at hdepth ⊢
        exact isLimit_of_parseLimit (eq_ok_of_toOption hdepth.symm)
      · rw [hnone] at hdepth
        dsimp only
        rw [hdepth]
        rfl
  · cases h
  · cases h

end ArithScript.Command
