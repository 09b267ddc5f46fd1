import ArithScript.Command.Arguments
import ArithScript.Proofs.Outcomes

/-!
# Flags among the arguments

Arguments are taken one after the other, some of them later than they come. For a flag this makes no
difference: if the arguments are accepted, it has been taken exactly if it stands among them in
full, before the first `--` (`mem_flags_iff`). In particular it is never the value of another
option, since what is waited for is not looked for among arguments that begin with a dash.

The invariant is that only arguments with values are kept pending. So looking at the pending
argument takes no flag, and each step takes the flag that it is given or none.
-/

set_option autoImplicit false

namespace ArithScript.Command

/-- An option that has a name but no value and no letter. -/
structure Argument.IsFlag (flag : Argument) (name : String) : Prop where
  named : (name, flag) ∈ Argument.names
  noValue : flag.takesValue = false
  noLetter : flag ∉ [Argument.output, .verbose, .help]

/-- The arguments among which options are looked for. -/
def optionPart (arguments : List String) : List String := arguments.takeWhile (· ≠ "--")

theorem optionPart_cons {argument : String} (h : argument ≠ "--") (arguments : List String) :
    optionPart (argument :: arguments) = argument :: optionPart arguments :=
  List.takeWhile_cons_of_pos (by simpa using h)

namespace Argument

/-- The options that have a letter. -/
theorem ofLetter?_ne {argument : Argument} (h : argument ∉ [Argument.output, .verbose, .help])
    (c : Char) : ofLetter? c ≠ some argument := by
  intro hletter
  refine h ?_
  unfold ofLetter? at hletter
  split at hletter
  · cases hletter
    simp
  · split at hletter
    · cases hletter
      simp
    · split at hletter <;> cases hletter
      simp

/-- Different options have different names. -/
theorem ofName?_eq_some_iff {flag : Argument} {name : String} (h : (name, flag) ∈ names)
    {other : String} : ofName? other = some flag ↔ other = name := by
  have hunique : ∀ p ∈ names, ∀ q ∈ names, p.2 = q.2 ↔ p.1 = q.1 := by decide
  rw [ofName?, Option.map_eq_some_iff]
  constructor
  · rintro ⟨p, hp, hflag⟩
    have hname : p.1 = other := by simpa using List.find?_some hp
    rw [← hname]
    exact (hunique p (List.mem_of_find?_eq_some hp) (name, flag) h).mp hflag
  · rintro rfl
    cases hfind : names.find? (·.1 = other) with
    | none => simpa using List.find?_eq_none.mp hfind (other, flag) h
    | some p =>
      have hname : p.1 = other := by simpa using List.find?_some hfind
      exact ⟨p, rfl, (hunique p (List.mem_of_find?_eq_some hfind) (other, flag) h).mpr hname⟩

/-- No name has an equals sign in it. -/
theorem dropWhile_of_mem_names {flag : Argument} {name : String} (h : (name, flag) ∈ names) :
    name.toList.dropWhile (· ≠ '=') = [] := by
  have hall : ∀ p ∈ names, p.1.toList.dropWhile (· ≠ '=') = [] := by decide
  exact hall _ h

end Argument

/-! ## Taking one argument

To take an argument is to settle what is pending and then to take what has come, at once or later.
Of all this a flag is taken by one step only, the one that is given it. -/

namespace Taken

variable {taken next : Taken} {argument flag : Argument}

theorem flags_of_setValue {value : String} (h : taken.setValue argument value = .ok next) :
    next.flags = taken.flags := by
  unfold setValue at h
  split at h
  · split at h <;> cases h
    rfl
  · cases h
    rfl
  · split at h <;> cases h
    rfl
  · split at h <;> cases h
    rfl
  · cases h

/-- Taking an argument takes a flag if it is that flag. -/
theorem mem_flags_of_take {value : Option String} (h : taken.take argument value = .ok next) :
    flag ∈ next.flags ↔ (flag = argument ∧ argument.takesValue = false) ∨ flag ∈ taken.flags := by
  unfold take at h
  split at h
  · cases h
  · cases hvalue : argument.takesValue with
    | false =>
      rw [hvalue, if_neg Bool.false_ne_true] at h
      split at h
      · cases h
      · cases h
        simp
    | true =>
      rw [hvalue, if_pos rfl] at h
      split at h
      · cases h
      · split at h
        · cases h
        · -- a value is set, and this leaves the flags alone
          next value _ =>
          cases hset : taken.setValue argument value with
          | error error =>
            rw [hset] at h
            cases h
          | ok set =>
            rw [hset] at h
            cases h
            simp [flags_of_setValue hset]

end Taken

namespace Intake

/-- The pending argument, if there is one, has a value. -/
def Waits (state : Intake) : Prop :=
  ∀ argument value, state.pending = some (argument, value) → argument.takesValue = true

/-- **What the intake of some arguments does about a flag**: the state waits for values only, and
the flag has been taken if it was given now or had been taken before. -/
structure Advances (flag : Argument) (state next : Intake) (given : Prop) : Prop where
  waits : next.Waits
  ended : next.optionsEnded = state.optionsEnded
  flags : flag ∈ next.taken.flags ↔ given ∨ flag ∈ state.taken.flags

variable {flag : Argument} {state next : Intake}

theorem Advances.trans {last : Intake} {given given' : Prop} (h : Advances flag state next given)
    (h' : Advances flag next last given') : Advances flag state last (given' ∨ given) :=
  ⟨h'.waits, h'.ended.trans h.ended, by rw [h'.flags, h.flags, or_assoc]⟩

theorem Advances.of_iff {given given' : Prop} (h : Advances flag state next given)
    (hgiven : given ↔ given') : Advances flag state next given' :=
  ⟨h.waits, h.ended, by rw [h.flags, hgiven]⟩

theorem advances_settle (flag : Argument) (hwaits : state.Waits) (h : state.settle = .ok next) :
    Advances flag state next False ∧ next.pending = none := by
  unfold settle at h
  split at h
  · next hpending =>
    cases h
    exact ⟨⟨hwaits, rfl, by simp⟩, hpending⟩
  · next argument value hpending =>
    obtain ⟨taken, htaken, h⟩ := exists_of_bind_eq_ok h
    cases h
    refine ⟨⟨fun _ _ hnone => (by cases hnone), rfl, ?_⟩, rfl⟩
    rw [Taken.mem_flags_of_take htaken, hwaits argument value hpending]
    simp

theorem advances_takeNow (hwaits : state.Waits) {argument : Argument} {value : Option String}
    (h : state.takeNow argument value = .ok next) :
    Advances flag state next (flag = argument ∧ argument.takesValue = false) := by
  obtain ⟨settled, hsettle, h⟩ := exists_of_bind_eq_ok h
  obtain ⟨taken, htaken, h⟩ := exists_of_bind_eq_ok h
  cases h
  obtain ⟨hsettled, hpending⟩ := advances_settle flag hwaits hsettle
  refine ⟨fun a v hsome => ?_, hsettled.ended, ?_⟩
  · rw [hpending] at hsome
    cases hsome
  · rw [Taken.mem_flags_of_take htaken, hsettled.flags, false_or]

theorem advances_takeLater (hwaits : state.Waits) {argument : Argument}
    (hvalue : argument.takesValue = true) {value : Option String}
    (h : state.takeLater argument value = .ok next) : Advances flag state next False := by
  obtain ⟨settled, hsettle, h⟩ := exists_of_bind_eq_ok h
  cases h
  obtain ⟨hsettled, -⟩ := advances_settle flag hwaits hsettle
  refine ⟨?_, hsettled.ended, hsettled.flags⟩
  rintro _ _ ⟨⟩
  exact hvalue

/-! ## Steps

An argument may be an option by name, some letters, or plain. What each does to the flags is that of
its parts, and over all arguments these add up. -/

variable {name : String}

theorem advances_option (hflag : flag.IsFlag name) (hwaits : state.Waits) {other : String}
    {value : Option String} (h : state.option other value = .ok next) :
    Advances flag state next (value = none ∧ other = name) := by
  unfold option at h
  split at h
  · cases h
  · next argument value hname =>
    split at h
    · next hvalue => exact (advances_takeNow hwaits h).of_iff (by simp [hvalue])
    · cases h
  · next argument hname =>
    have hsame : other = name ↔ flag = argument := by
      rw [← Argument.ofName?_eq_some_iff hflag.named, hname, Option.some.injEq]
      exact eq_comm
    split at h
    · next hvalue =>
      refine (advances_takeLater hwaits hvalue h).of_iff ?_
      rw [hsame]
      simp only [false_iff, not_and]
      rintro - rfl
      simp [hflag.noValue] at hvalue
    · next hvalue => exact (advances_takeNow hwaits h).of_iff (by simp [hsame, hvalue])

/-- Options by letters are other options. -/
theorem advances_letters (hflag : flag.IsFlag name) {cs : List Char} :
    ∀ {state : Intake}, state.Waits → state.letters cs = .ok next →
      Advances flag state next False := by
  induction cs with
  | nil =>
    intro state hwaits h
    cases h
    exact ⟨hwaits, rfl, by simp⟩
  | cons c cs ih =>
    intro state hwaits h
    unfold letters at h
    split at h
    · cases h
    · next argument hletter =>
      -- this flag has no letter, so each letter is another argument
      have hother : ¬ flag = argument := by
        rintro rfl
        exact Argument.ofLetter?_ne hflag.noLetter c hletter
      split at h
      · next hvalue =>
        split at h
        · exact advances_takeLater hwaits hvalue h
        · exact (advances_takeNow hwaits h).of_iff (by simp [hother])
        · exact (advances_takeNow hwaits h).of_iff (by simp [hother])
      · obtain ⟨taken, htaken, h⟩ := exists_of_bind_eq_ok h
        have hfirst : Advances flag state taken False :=
          (advances_takeNow hwaits htaken).of_iff (by simp [hother])
        exact (hfirst.trans (ih hfirst.waits h)).of_iff (by simp)

theorem advances_plain (hwaits : state.Waits) {argument : String}
    (h : state.plain argument = .ok next) : Advances flag state next False := by
  unfold plain at h
  split at h
  · next awaiting hended hpending =>
    cases h
    refine ⟨?_, rfl, by simp⟩
    rintro _ _ ⟨⟩
    exact hwaits awaiting none hpending
  · split at h
    · cases h
    · obtain ⟨later, hlater, h⟩ := exists_of_bind_eq_ok h
      cases h
      have hadvances : Advances flag state later False := advances_takeLater hwaits rfl hlater
      exact ⟨hadvances.waits, hadvances.ended, hadvances.flags⟩

/-- **One argument** either ends the options, or takes a flag exactly if it is that flag. -/
theorem advances_step (hflag : flag.IsFlag name) (hwaits : state.Waits) {argument : String}
    (h : state.step argument = .ok next) :
    (state.optionsEnded = false ∧ argument = "--" ∧ next = { state with optionsEnded := true })
      ∨ ((state.optionsEnded = true ∨ argument ≠ "--")
        ∧ Advances flag state next (state.optionsEnded = false ∧ argument = "--" ++ name)) := by
  have hnosign := Argument.dropWhile_of_mem_names hflag.named
  have hspelled : argument = "--" ++ name ↔ argument.toList = '-' :: '-' :: name.toList := by
    rw [← String.toList_inj, String.toList_append]
    rfl
  have hdashes : argument = "--" ↔ argument.toList = ['-', '-'] := by
    rw [← String.toList_inj]
    rfl
  unfold step at h
  cases hended : state.optionsEnded with
  | true =>
    rw [hended, if_pos rfl] at h
    exact .inr ⟨.inl rfl, (advances_plain hwaits h).of_iff (by simp)⟩
  | false =>
    rw [hended, if_neg Bool.false_ne_true] at h
    rw [hspelled, Ne, hdashes]
    split at h
    · next heq =>
      cases h
      exact .inl ⟨rfl, heq, rfl⟩
    · -- by name: a flag has no equals sign in its name and takes no value behind one
      next cs hmore heq =>
      rw [heq]
      refine .inr ⟨.inr fun hend => hmore (by simpa using hend), ?_⟩
      dsimp only at h
      split at h
      · next hrest =>
        have hall := List.takeWhile_append_dropWhile (p := fun c => decide (c ≠ '=')) (l := cs)
        rw [hrest, List.append_nil] at hall
        rw [hall] at h
        refine (advances_option hflag hwaits h).of_iff ?_
        rw [← String.toList_inj, String.toList_ofList]
        simp
      · next sign value hrest =>
        refine (advances_option hflag hwaits h).of_iff ?_
        simp only [reduceCtorEq, false_and, true_and, List.cons.injEq, false_iff]
        rintro rfl
        rw [hnosign] at hrest
        cases hrest
    · -- by letters: the second dash of a flag is no letter
      next c cs _ hletter heq =>
      rw [heq]
      have hother : c ≠ '-' := hletter
      exact .inr ⟨.inr (by simp [hother]),
        (advances_letters hflag hwaits h).of_iff (by simp [hother])⟩
    · next hend hlong _ =>
      exact .inr ⟨.inr hend, (advances_plain hwaits h).of_iff
        ⟨False.elim, fun hname => hlong _ hname.2⟩⟩

/-- **All arguments.** The induction is on the arguments, with the state before them. -/
theorem mem_flags_of_steps (hflag : flag.IsFlag name) {arguments : List String} :
    ∀ {state : Intake}, state.Waits → state.steps arguments = .ok next →
      (flag ∈ next.taken.flags
        ↔ (state.optionsEnded = false ∧ "--" ++ name ∈ optionPart arguments)
          ∨ flag ∈ state.taken.flags) := by
  induction arguments with
  | nil =>
    intro state hwaits h
    rw [(advances_settle flag hwaits h).1.flags]
    simp [optionPart]
  | cons argument arguments ih =>
    intro state hwaits h
    obtain ⟨stepped, hstep, h⟩ := exists_of_bind_eq_ok h
    rcases advances_step hflag hwaits hstep with ⟨hended, rfl, rfl⟩ | ⟨hpart, hadvances⟩
    · have hwaits' : Waits { state with optionsEnded := true } := hwaits
      rw [ih hwaits' h]
      simp [optionPart]
    · rw [ih hadvances.waits h, hadvances.flags, hadvances.ended]
      cases hended : state.optionsEnded with
      | true => simp
      | false =>
        have hother : argument ≠ "--" := hpart.resolve_left (by simp [hended])
        rw [optionPart_cons hother, List.mem_cons]
        grind

end Intake

/-- Whether an option is given, spelled in full. -/
def isGiven (arguments : List String) (option : String) : Bool := option ∈ optionPart arguments

/-- **The flags of a run** are those that stand among the arguments. -/
theorem flags_of_parseArguments {arguments : List String} {i : Invocation}
    (h : parseArguments arguments = .ok (.run i)) :
    i.options = ⟨!isGiven arguments "--no-source-map", !isGiven arguments "--no-symbol-names",
        !isGiven arguments "--no-end-mappings", i.options.maxDepth⟩
      ∧ i.mappings = isGiven arguments "--mappings" := by
  unfold parseArguments at h
  split at h
  · next state hstate =>
    have hwaits : Intake.start.Waits := fun _ _ hsome => (by cases hsome)
    -- one statement for the four flags
    have hgiven : ∀ (flag : Argument) (name : String), flag.IsFlag name →
        decide (flag ∈ state.taken.flags) = isGiven arguments ("--" ++ name) := by
      intro flag name hflag
      have hflags := Intake.mem_flags_of_steps hflag hwaits hstate
      exact decide_eq_decide.mpr (by simpa [Intake.start, Taken.none] using hflags)
    unfold Taken.invocation at h
    split at h
    · cases h
    · cases h
      have hsourceMap := hgiven .noSourceMap "no-source-map" ⟨by decide, rfl, by decide⟩
      have hsymbolNames := hgiven .noSymbolNames "no-symbol-names" ⟨by decide, rfl, by decide⟩
      have hendMappings := hgiven .noEndMappings "no-end-mappings" ⟨by decide, rfl, by decide⟩
      simp only [Taken.has]
      rw [hsourceMap, hsymbolNames, hendMappings]
      exact ⟨rfl, hgiven .mappings "mappings" ⟨by decide, rfl, by decide⟩⟩
  · cases h
  · cases h

end ArithScript.Command
