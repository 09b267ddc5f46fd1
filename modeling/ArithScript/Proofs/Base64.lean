import ArithScript.Proofs.Vlq

/-!
# Reading bytes back

Three bytes are one number below `64 ^ 4`, and so are four digits; the numbers of a last group that
is not full are made divisible, so that the bits which no byte has are zero. Decoding tells the
groups apart by the filling at their end, which is no digit. `Base64.decode?_encode` says that this
loses nothing, whatever the count of bytes leaves when it is divided by three.
-/

set_option autoImplicit false

namespace ArithScript.Base64

/-! ## Digits

A digit is a letter, a numeral, a plus or a slash. What matters later is what it is not: neither the
filling of a group nor a comma. -/

theorem digit_ne_filling {n : Nat} (h : n < 64) : digit n ≠ '=' := by
  have all : ∀ n : Fin 64, digit n ≠ '=' := by decide
  exact all ⟨n, h⟩

theorem exists_of_mem_digits {c : Char} {n : Nat} : ∀ {count : Nat}, c ∈ digits count n →
    ∃ d, d < 64 ∧ c = digit d := by
  intro count
  induction count with
  | zero =>
    intro h
    exact absurd h List.not_mem_nil
  | succ count ih =>
    intro h
    rcases List.mem_cons.mp h with rfl | h
    · exact ⟨_, Nat.mod_lt _ (by decide), rfl⟩
    · exact ih h

/-- The text of bytes is made of digits and the filling. -/
theorem mem_encode {c : Char} {bytes : List UInt8} (h : c ∈ encode bytes) :
    c = '=' ∨ ∃ d, d < 64 ∧ c = digit d := by
  fun_induction encode bytes with
  | case1 a b c rest ih =>
    rcases List.mem_append.mp h with h | h
    · exact Or.inr (exists_of_mem_digits h)
    · exact ih h
  | case2 a b =>
    rcases List.mem_append.mp h with h | h
    · exact Or.inr (exists_of_mem_digits h)
    · exact Or.inl (List.mem_singleton.mp h)
  | case3 a =>
    rcases List.mem_append.mp h with h | h
    · exact Or.inr (exists_of_mem_digits h)
    · simp only [List.mem_cons, List.not_mem_nil, or_false, or_self] at h
      exact Or.inl h
  | case4 => exact absurd h List.not_mem_nil

theorem comma_notMem_encode (bytes : List UInt8) : ',' ∉ encode bytes := by
  intro h
  rcases mem_encode h with hfilling | ⟨d, hd, hdigit⟩
  · exact absurd hfilling (by decide)
  · exact (digit_ne_separator hd).1 hdigit.symm

/-! ## Groups

Groups of three bytes, of two and of one are decoded by three different equations, and the induction
follows the recursion of `encode` over groups. -/

theorem decode?_group {a b c d : Char} (hd : d ≠ '=') (rest : List Char) :
    decode? (a :: b :: c :: d :: rest) = (do
      let n := (← digit? a) * 0x40000 + (← digit? b) * 0x1000 + (← digit? c) * 0x40 + (← digit? d)
      let bytes ← decode? rest
      return UInt8.ofNat (n / 0x10000) :: UInt8.ofNat (n / 0x100 % 0x100) :: UInt8.ofNat (n % 0x100)
        :: bytes) := by
  rw [decode?]
  · intro _ hd'
    exact absurd hd' hd
  · intro hd'
    exact absurd hd' hd

theorem decode?_pair {a b c : Char} (hc : c ≠ '=') :
    decode? [a, b, c, '='] = (do
      let n := (← digit? a) * 0x1000 + (← digit? b) * 0x40 + (← digit? c)
      return [UInt8.ofNat (n / 0x400), UInt8.ofNat (n / 4 % 0x100)]) := by
  rw [decode?]
  intro hc'
  exact absurd hc' hc

theorem ofNat_eq_of_toNat (byte : UInt8) {n : Nat} (h : n = byte.toNat) : UInt8.ofNat n = byte := by
  rw [h, UInt8.ofNat_toNat]

/-- **Bytes are read back from their text.** -/
theorem decode?_encode (bytes : List UInt8) : decode? (encode bytes) = some bytes := by
  have hdigit : ∀ n, digit? (digit (n % 64)) = some (n % 64) :=
    fun n => digit?_digit (Nat.mod_lt n (by decide))
  have hfilling : ∀ n, digit (n % 64) ≠ '=' :=
    fun n => digit_ne_filling (Nat.mod_lt n (by decide))
  fun_induction encode bytes with
  | case1 a b c rest ih =>
    have ha := a.toNat_lt
    have hb := b.toNat_lt
    have hc := c.toNat_lt
    simp only [digits, List.cons_append, List.nil_append]
    -- the fourth character is a digit, so the group is full
    rw [decode?_group (hfilling _), ih]
    simp only [hdigit, Option.bind_eq_bind, Option.bind_some, Option.pure_def, Nat.pow_eq,
      Nat.reducePow]
    rw [ofNat_eq_of_toNat a (by omega), ofNat_eq_of_toNat b (by omega),
      ofNat_eq_of_toNat c (by omega)]
  | case2 a b =>
    have ha := a.toNat_lt
    have hb := b.toNat_lt
    simp only [digits, List.cons_append, List.nil_append]
    rw [decode?_pair (hfilling _)]
    simp only [hdigit, Option.bind_eq_bind, Option.bind_some, Option.pure_def, Nat.pow_eq,
      Nat.reducePow]
    rw [ofNat_eq_of_toNat a (by omega), ofNat_eq_of_toNat b (by omega)]
  | case3 a =>
    have ha := a.toNat_lt
    simp only [digits, List.cons_append, List.nil_append, decode?, hdigit, Option.bind_eq_bind,
      Option.bind_some, Option.pure_def, Nat.pow_eq, Nat.reducePow]
    rw [ofNat_eq_of_toNat a (by omega)]
  | case4 => rfl

end ArithScript.Base64
