import QCircuit.Decimal

/-!
# Numerals and their values

A numeral is a row of digits (`Decimal.Digits`) without a leading zero, and reading one gives back the
number it was written for (`Decimal.writes_numeral`). Reading goes digit by digit, so the value of two
rows in sequence is that of the first with the places of the second behind it
(`Decimal.ofNumeral_append`), and zeros put in front of a row change nothing.
-/

set_option autoImplicit false

namespace QCircuit.Decimal

/-- A row of digits, at least one. -/
def Digits (s : List Char) : Prop := s ≠ [] ∧ ∀ c ∈ s, isDigit c

instance (s : List Char) : Decidable (Digits s) :=
  decidable_of_iff (s ≠ [] ∧ s.all isDigit) (by simp [Digits])

/-- A row of digits without a leading zero, and the number it stands for. -/
structure Writes (s : List Char) (n : Nat) : Prop where
  digits : Digits s
  unpadded : s.head? = some '0' → s = ['0']
  value : ofNumeral s = n

/-! ## Rows of digits -/

theorem isDigit_zero : isDigit '0' := by decide

theorem isDigit_of_mem_numeral {n : Nat} {c : Char} (h : c ∈ numeral n) : isDigit c :=
  Nat.isDigit_of_mem_toDigits (by decide) (by decide) h

theorem numeral_ne_nil (n : Nat) : numeral n ≠ [] := Nat.toDigits_ne_nil

theorem digits_numeral (n : Nat) : Digits (numeral n) :=
  ⟨numeral_ne_nil n, fun _ h => isDigit_of_mem_numeral h⟩

/-- No character outside the ten digits stands in a row of digits. -/
theorem Digits.not_mem {s : List Char} (h : Digits s) {c : Char} (hc : isDigit c = false) :
    c ∉ s := by
  intro hmem
  rw [h.2 c hmem] at hc
  cases hc

theorem Digits.append {s t : List Char} (hs : Digits s) (ht : ∀ c ∈ t, isDigit c) :
    Digits (s ++ t) := by
  refine ⟨?_, ?_⟩
  · intro h
    exact hs.1 (List.append_eq_nil_iff.mp h).1
  · intro c hc
    cases List.mem_append.mp hc with
    | inl h => exact hs.2 c h
    | inr h => exact ht c h

theorem isDigit_of_mem_zeros {k : Nat} {c : Char} (h : c ∈ List.replicate k '0') : isDigit c := by
  rw [List.eq_of_mem_replicate h]
  exact isDigit_zero

/-! ## Values -/

@[simp] theorem ofNumeral_numeral (n : Nat) : ofNumeral (numeral n) = n :=
  Nat.ofDigitChars_toDigits (by decide) (by decide)

/-- The first row is moved up by the places of the second. -/
theorem ofNumeral_append (s t : List Char) :
    ofNumeral (s ++ t) = 10 ^ t.length * ofNumeral s + ofNumeral t := by
  have h : Nat.ofDigitChars 10 (s ++ t) 0 =
      10 ^ t.length * Nat.ofDigitChars 10 s 0 + Nat.ofDigitChars 10 t 0 := by
    rw [Nat.ofDigitChars_append, Nat.ofDigitChars_eq_ofDigitChars_zero]
  exact h

@[simp] theorem ofNumeral_zeros (k : Nat) : ofNumeral (List.replicate k '0') = 0 := by
  have h : Nat.ofDigitChars 10 (List.replicate k '0') 0 = 0 := by
    rw [Nat.ofDigitChars_replicate_zero, Nat.mul_zero]
  exact h

/-! ## Leading zeros -/

/-- The numeral of a number that is not zero does not start with a zero: dropping its last digit leaves
the numeral of a smaller number that is not zero either. -/
theorem head?_numeral_ne {n : Nat} (h : 0 < n) : (numeral n).head? ≠ some '0' := by
  induction n using Nat.strongRecOn with
  | ind n ih =>
      by_cases hlt : n < 10
      · rw [numeral, Nat.toDigits_of_lt_base hlt]
        intro heq
        have hz := Nat.digitChar_eq_zero.mp (Option.some.inj heq)
        omega
      · -- the last digit is dropped, and the head is that of what is left
        have hrest := ih (n / 10) (by omega) (by omega)
        rw [numeral, Nat.toDigits_of_base_le (by decide) (by omega), List.head?_append]
        cases hhead : (Nat.toDigits 10 (n / 10)).head? with
        | none => exact absurd (List.head?_eq_none_iff.mp hhead) Nat.toDigits_ne_nil
        | some c =>
            rw [numeral, hhead] at hrest
            exact hrest

/-- A numeral writes its number, without a leading zero. -/
theorem writes_numeral (n : Nat) : Writes (numeral n) n := by
  refine ⟨digits_numeral n, ?_, ofNumeral_numeral n⟩
  intro h
  rcases Nat.eq_zero_or_pos n with hz | hpos
  · rw [hz]
    rfl
  · exact absurd h (head?_numeral_ne hpos)

end QCircuit.Decimal
