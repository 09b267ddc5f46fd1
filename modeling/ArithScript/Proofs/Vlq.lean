import ArithScript.SourceMap.Vlq

/-!
# Reading quantities back

A quantity says by itself where it ends, so quantities that are written one after another can be
read one after another, with nothing between them. `Vlq.integers?` does that, and
`Vlq.integers?_flatMap_encode` says that it undoes the writing of any list of integers. Since the
digits are never `,` or `;`, such lists can then be divided by those.
-/

set_option autoImplicit false

namespace ArithScript

/-! ## Digits

The digits are those of base 64. Sixty-four of them are told apart, and none is a separator of
mappings. -/

theorem Base64.digit?_digit {n : Nat} (h : n < 64) : Base64.digit? (Base64.digit n) = some n := by
  have all : ∀ n : Fin 64, Base64.digit? (Base64.digit n) = some n.val := by decide
  exact all ⟨n, h⟩

theorem Base64.ne_separator {c : Char} (h : (Base64.digit? c).isSome = true) :
    c ≠ ',' ∧ c ≠ ';' := by
  constructor
  · rintro rfl
    exact absurd h (by decide)
  · rintro rfl
    exact absurd h (by decide)

theorem Base64.digit_ne_separator {n : Nat} (h : n < 64) :
    Base64.digit n ≠ ',' ∧ Base64.digit n ≠ ';' :=
  Base64.ne_separator (by rw [Base64.digit?_digit h, Option.isSome_some])

namespace Vlq

/-! ## One quantity

A quantity is written from its lowest digits on, and every digit but the last says that another
follows. The sign is the lowest bit of all. -/

theorem number?_digits (n : Nat) (rest : List Char) :
    number? (digits n ++ rest) = some (n, rest) := by
  induction n using Nat.strongRecOn with
  | ind n ih =>
    rw [digits]
    split
    · next small =>
      simp [number?, Base64.digit?_digit (show n < 64 by omega), small]
    · next big =>
      have hdigit := Base64.digit?_digit (show n % 32 + 32 < 64 by omega)
      have hhigh := ih (n / 32) (by omega)
      simp only [List.cons_append, number?, hdigit, hhigh, Option.bind_eq_bind, Option.bind_some]
      rw [if_neg (by omega)]
      simp only [Option.pure_def, Option.some.injEq, Prod.mk.injEq, and_true]
      omega

theorem signFromBit_signToBit (n : Int) : signFromBit (signToBit n) = n := by
  unfold signFromBit signToBit
  split <;> split <;> omega

/-- A quantity is read back, and what follows it is left alone. -/
theorem decode?_encode (n : Int) (rest : List Char) :
    decode? (encode n ++ rest) = some (n, rest) := by
  rw [decode?, encode, number?_digits, Option.map_some]
  exact congrArg (fun m => some (m, rest)) (signFromBit_signToBit n)

theorem digits_ne_nil (n : Nat) : digits n ≠ [] := by
  rw [digits]
  split <;> simp

theorem encode_ne_nil (n : Int) : encode n ≠ [] := digits_ne_nil _

theorem isSome_digit?_of_mem_digits {n : Nat} {c : Char} (h : c ∈ digits n) :
    (Base64.digit? c).isSome = true := by
  induction n using Nat.strongRecOn with
  | ind n ih =>
    rw [digits] at h
    split at h
    · rw [List.mem_singleton] at h
      subst h
      rw [Base64.digit?_digit (by omega), Option.isSome_some]
    · rcases List.mem_cons.mp h with rfl | h
      · rw [Base64.digit?_digit (by omega), Option.isSome_some]
      · exact ih (n / 32) (by omega) h

/-- No text begins another. -/
theorem eq_of_encode_isPrefix {m n : Int} (h : encode m <+: encode n) : m = n := by
  obtain ⟨rest, happend⟩ := h
  have hshort := decode?_encode m rest
  have hlong := decode?_encode n []
  rw [List.append_nil, ← happend, hshort] at hlong
  exact congrArg Prod.fst (Option.some.inj hlong)

/-! ## Quantities in a row

Reading a quantity leaves a shorter text, so reading them one after the other has an end. -/

theorem number?_shortens : ∀ {cs : List Char} {n : Nat} {rest : List Char},
    number? cs = some (n, rest) → rest.length < cs.length
  | [], _, _, h => by simp [number?] at h
  | c :: cs, n, rest, h => by
    simp only [number?, Option.bind_eq_bind] at h
    obtain ⟨low, -, h⟩ := Option.bind_eq_some_iff.mp h
    split at h
    · cases h
      exact Nat.lt_succ_self _
    · obtain ⟨⟨high, after⟩, hnumber, h⟩ := Option.bind_eq_some_iff.mp h
      cases h
      exact Nat.lt_succ_of_lt (number?_shortens hnumber)

theorem decode?_shortens {cs : List Char} {n : Int} {rest : List Char}
    (h : decode? cs = some (n, rest)) : rest.length < cs.length := by
  obtain ⟨⟨m, after⟩, hnumber, heq⟩ := Option.map_eq_some_iff.mp h
  cases heq
  exact number?_shortens hnumber

/-- The integers of a text that holds nothing else; `none` if it ends inside one. -/
def integers? (cs : List Char) : Option (List Int) :=
  if cs = [] then some []
  else
    match h : decode? cs with
    | some (n, rest) =>
      have : rest.length < cs.length := decode?_shortens h
      (integers? rest).map (n :: ·)
    | none => none
termination_by cs.length

/-- **Quantities in a row are read back.** -/
theorem integers?_flatMap_encode (ns : List Int) : integers? (ns.flatMap encode) = some ns := by
  induction ns with
  | nil => rw [List.flatMap_nil, integers?, if_pos rfl]
  | cons n ns ih =>
    have hne : encode n ++ ns.flatMap encode ≠ [] := by simp [encode_ne_nil]
    rw [List.flatMap_cons, integers?, if_neg hne]
    split
    · next m rest hread =>
      rw [decode?_encode] at hread
      cases hread
      rw [ih, Option.map_some]
    · next hread =>
      rw [decode?_encode] at hread
      cases hread

/-- Quantities in a row are made of digits. -/
theorem isSome_digit?_of_mem_flatMap {ns : List Int} {c : Char} (h : c ∈ ns.flatMap encode) :
    (Base64.digit? c).isSome = true := by
  obtain ⟨n, -, h⟩ := List.mem_flatMap.mp h
  exact isSome_digit?_of_mem_digits h

/-- Quantities in a row hold no separator. -/
theorem mem_flatMap_encode {ns : List Int} {c : Char} (h : c ∈ ns.flatMap encode) :
    c ≠ ',' ∧ c ≠ ';' :=
  Base64.ne_separator (isSome_digit?_of_mem_flatMap h)

end Vlq

end ArithScript
