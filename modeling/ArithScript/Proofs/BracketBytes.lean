import ArithScript.Document.Nesting

/-!
# Brackets by bytes and by characters

The count of brackets goes over the bytes of a text with two flags, one for strings and one for
escapes in them. What is to be said about it is about characters: where strings start and end, and
which brackets stand outside them. `nestingWithin` is the count over characters, with one state
instead of the flags.

The two agree on every text (`steps_utf8`). A character of ASCII is its own byte. The bytes of any
other character are all beyond ASCII (`le_of_mem_utf8EncodeChar`), so none of them is taken for a
bracket or a quotation mark; what they do is what the character does, which is at most to end an
escape (`steps_utf8EncodeChar`).
-/

set_option autoImplicit false

namespace ArithScript

/-! ## The count over characters

One state says where in a text a character stands: outside of strings, in a string, or behind a
backslash in one. -/

/-- Where the scan of brackets is. -/
inductive NestingState where
  | outside
  | inString
  /-- After a backslash in a string. -/
  | escaped
  deriving DecidableEq, Repr

/-- Whether brackets that go on from the given depth stay within a limit. -/
def nestingWithin (limit : Nat) : NestingState → Nat → List Char → Bool
  | _, _, [] => true
  | .outside, depth, c :: cs =>
    if c = '"' then nestingWithin limit .inString depth cs
    else if c = '\x7b' || c = '[' then
      if limit < depth + 1 then false else nestingWithin limit .outside (depth + 1) cs
    else if c = '\x7d' || c = ']' then nestingWithin limit .outside (depth - 1) cs
    else nestingWithin limit .outside depth cs
  | .inString, depth, c :: cs =>
    if c = '\\' then nestingWithin limit .escaped depth cs
    else if c = '"' then nestingWithin limit .outside depth cs
    else nestingWithin limit .inString depth cs
  | .escaped, depth, _ :: cs => nestingWithin limit .inString depth cs

/-! ## Bytes of characters

What is used of UTF-8 is that characters of ASCII are single bytes, and that no other character has
a byte of ASCII. -/

theorem utf8EncodeChar_of_lt {c : Char} (h : c.toNat < 0x80) :
    String.utf8EncodeChar c = [c.toUInt8] := by
  refine String.utf8EncodeChar_eq_singleton (Char.utf8Size_eq_one_iff.mpr ?_)
  exact UInt32.le_iff_toNat_le.mpr (Nat.le_of_lt_succ h)

/-- **No byte of a character beyond ASCII is in ASCII.** -/
theorem le_of_mem_utf8EncodeChar {c : Char} (h : 0x80 ≤ c.toNat) {byte : UInt8}
    (hbyte : byte ∈ String.utf8EncodeChar c) : 0x80 ≤ byte.toNat := by
  have hlong : ¬ c.val.toNat ≤ 127 := Nat.not_le.mpr h
  simp only [String.utf8EncodeChar, if_neg hlong] at hbyte
  have hlead (n : Nat) (hn : 0x80 ≤ n ∧ n < 0x100) : 0x80 ≤ (UInt8.ofNat n).toNat := by
    rw [UInt8.toNat_ofNat', Nat.mod_eq_of_lt hn.2]
    exact hn.1
  split at hbyte
  · simp only [List.mem_cons, List.not_mem_nil, or_false] at hbyte
    rcases hbyte with rfl | rfl <;> exact hlead _ (by omega)
  split at hbyte
  · simp only [List.mem_cons, List.not_mem_nil, or_false] at hbyte
    rcases hbyte with rfl | rfl | rfl <;> exact hlead _ (by omega)
  · simp only [List.mem_cons, List.not_mem_nil, or_false] at hbyte
    rcases hbyte with rfl | rfl | rfl | rfl <;> exact hlead _ (by omega)

theorem toUInt8_eq_iff {c d : Char} (hc : c.toNat < 0x80) (hd : d.toNat < 0x80) :
    c.toUInt8 = d.toUInt8 ↔ c = d := by
  refine ⟨fun h => ?_, fun h => h ▸ rfl⟩
  have hnat : c.toNat % 256 = d.toNat % 256 := congrArg UInt8.toNat h
  exact Char.toNat_inj.mp (by omega)

/-! ## The two counts

Three of the four combinations of flags are states; an escape outside of a string never comes up. On
the bytes of a character beyond ASCII the first may end an escape, and the others find nothing to do
(`pass`). -/

namespace NestingState

/-- The flags of a state, at a depth. -/
def flags (depth : Nat) : NestingState → BracketCount
  | outside => ⟨depth, false, false⟩
  | inString => ⟨depth, true, false⟩
  | escaped => ⟨depth, true, true⟩

/-- The state after a character that is neither a bracket, a quotation mark nor a backslash. -/
def pass : NestingState → NestingState
  | outside => outside
  | inString => inString
  | escaped => inString

end NestingState

namespace BracketCount

variable {limit depth : Nat} {state : NestingState}

theorem step_of_le {byte : UInt8} (h : 0x80 ≤ byte.toNat) :
    (state.flags depth).step limit byte = some (state.pass.flags depth) := by
  have hne (d : Char) (hd : d.toUInt8.toNat < 0x80) : byte ≠ d.toUInt8 := by
    rintro rfl
    exact Nat.not_le.mpr hd h
  cases state <;>
    simp [step, NestingState.flags, NestingState.pass, hne '"' (by decide), hne '\\' (by decide),
      hne '\x7b' (by decide), hne '[' (by decide), hne '\x7d' (by decide), hne ']' (by decide)]

theorem steps_of_le {bytes : List UInt8} (h : ∀ byte ∈ bytes, 0x80 ≤ byte.toNat)
    (hstate : state.pass = state) :
    (state.flags depth).steps limit bytes = some (state.flags depth) := by
  induction bytes with
  | nil => rfl
  | cons byte bytes ih =>
    obtain ⟨hbyte, hbytes⟩ := List.forall_mem_cons.mp h
    rw [steps, List.foldlM_cons, step_of_le hbyte, hstate]
    exact ih hbytes

/-- The bytes of a character beyond ASCII are passed over like the character. -/
theorem steps_utf8EncodeChar {c : Char} (h : 0x80 ≤ c.toNat) :
    (state.flags depth).steps limit (String.utf8EncodeChar c) = some (state.pass.flags depth) := by
  have hbytes : ∀ byte ∈ String.utf8EncodeChar c, 0x80 ≤ byte.toNat :=
    fun _ => le_of_mem_utf8EncodeChar h
  cases hlist : String.utf8EncodeChar c with
  | nil =>
    have hlength := String.length_utf8EncodeChar c
    rw [hlist] at hlength
    exact absurd hlength.symm (Nat.ne_of_gt c.utf8Size_pos)
  | cons byte bytes =>
    rw [hlist] at hbytes
    obtain ⟨hbyte, hbytes⟩ := List.forall_mem_cons.mp hbytes
    rw [steps, List.foldlM_cons, step_of_le hbyte]
    exact steps_of_le hbytes (by cases state <;> rfl)

theorem nestingWithin_of_le {c : Char} (h : 0x80 ≤ c.toNat) (cs : List Char) :
    nestingWithin limit state depth (c :: cs) = nestingWithin limit state.pass depth cs := by
  have hne (d : Char) (hd : d.toNat < 0x80) : c ≠ d := by
    rintro rfl
    exact Nat.not_le.mpr hd h
  cases state <;>
    simp [nestingWithin, NestingState.pass, hne '"' (by decide), hne '\\' (by decide),
      hne '\x7b' (by decide), hne '[' (by decide), hne '\x7d' (by decide), hne ']' (by decide)]

section Ascii

variable {c : Char} (hc : c.toNat < 0x80)

include hc

/-- Outside strings, a byte of ASCII is taken for its character. -/
theorem step_outside :
    step limit ⟨depth, false, false⟩ c.toUInt8
      = if c = '"' then some ⟨depth, true, false⟩
        else if c = '\x7b' || c = '[' then
          if limit < depth + 1 then none else some ⟨depth + 1, false, false⟩
        else if c = '\x7d' || c = ']' then some ⟨depth - 1, false, false⟩
        else some ⟨depth, false, false⟩ := by
  have heq (d : Char) (hd : d.toNat < 0x80) := toUInt8_eq_iff hc hd
  simp only [step, Bool.false_eq_true, if_false, heq '"' (by decide), heq '\x7b' (by decide),
    heq '[' (by decide), heq '\x7d' (by decide), heq ']' (by decide)]

/-- Inside strings too. -/
theorem step_inString :
    step limit ⟨depth, true, false⟩ c.toUInt8
      = if c = '\\' then some ⟨depth, true, true⟩
        else if c = '"' then some ⟨depth, false, false⟩
        else some ⟨depth, true, false⟩ := by
  have heq (d : Char) (hd : d.toNat < 0x80) := toUInt8_eq_iff hc hd
  simp only [step, Bool.false_eq_true, if_false, if_true, heq '\\' (by decide),
    heq '"' (by decide)]

end Ascii

/-- **Bytes and characters are counted alike**: the count over bytes comes to its end just if the
brackets stay within the limit. -/
theorem steps_utf8 (limit : Nat) (state : NestingState) (depth : Nat) (cs : List Char) :
    ((state.flags depth).steps limit (cs.flatMap String.utf8EncodeChar)).isSome
      = nestingWithin limit state depth cs := by
  induction cs generalizing state depth with
  | nil => cases state <;> rfl
  | cons c cs ih =>
    rw [List.flatMap_cons, steps]
    -- a character below 0x80 is one byte and steps both scans alike; the bytes of any other are no
    -- bracket, quote or backslash
    by_cases hc : c.toNat < 0x80
    · rw [utf8EncodeChar_of_lt hc, List.singleton_append, List.foldlM_cons]
      cases state with
      | outside =>
        rw [NestingState.flags, step_outside hc, nestingWithin]
        split
        · exact ih .inString depth
        split
        · split
          · rfl
          · exact ih .outside (depth + 1)
        split
        · exact ih .outside (depth - 1)
        · exact ih .outside depth
      | inString =>
        rw [NestingState.flags, step_inString hc, nestingWithin]
        split
        · exact ih .escaped depth
        split
        · exact ih .outside depth
        · exact ih .inString depth
      | escaped => exact ih .inString depth
    · have hc : 0x80 ≤ c.toNat := Nat.le_of_not_lt hc
      rw [List.foldlM_append, ← steps, steps_utf8EncodeChar hc, nestingWithin_of_le hc, ← ih]
      rfl

end BracketCount

/-- The check of a text in terms of its characters. -/
theorem checkNesting_eq_ite (text : List Char) (maxDepth : Nat) :
    checkNesting text maxDepth
      = if nestingWithin (nestingLimit maxDepth) .outside 0 text then .ok ()
        else .error ⟨maxDepth⟩ := by
  rw [← BracketCount.steps_utf8, checkNesting]
  show _ = if (BracketCount.start.steps _ _).isSome then _ else _
  cases BracketCount.start.steps (nestingLimit maxDepth) (text.flatMap String.utf8EncodeChar)
    <;> rfl

end ArithScript
