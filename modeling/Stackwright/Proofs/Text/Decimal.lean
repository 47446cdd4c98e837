import Mathlib.Data.List.Induction

/-!
Contract: the decimal form of a number, as a text.

Owns:
- digits without a leading zero;
- these are exactly the decimal forms of numbers.
-/

namespace Stackwright

/-- Digits that write down a number in the one way that has no leading zero. -/
structure IsDecimal (text : List Char) : Prop where
  nonempty : text ≠ []
  digits : ∀ char ∈ text, char.isDigit = true
  noLeadingZero : text.head? = some '0' → text = ['0']

/-- Only zero is written with a zero in front. -/
theorem head?_toDigits_ne_zero {number : Nat} (positive : 0 < number) :
    (Nat.toDigits 10 number).head? ≠ some '0' := by
  induction number using Nat.strongRecOn with
  | ind number inductionHypothesis =>
    by_cases oneDigit : number < 10
    · rw [Nat.toDigits_of_lt_base oneDigit, List.head?_cons]
      intro isZero
      exact Nat.ne_of_gt positive (Nat.digitChar_eq_zero.1 (Option.some.inj isZero))
    · have shorter := inductionHypothesis (number / 10) (by omega) (by omega)
      rw [Nat.toDigits_of_base_le (by decide) (Nat.le_of_not_lt oneDigit), List.head?_append]
      cases first : (Nat.toDigits 10 (number / 10)).head? with
      | none => exact absurd (List.head?_eq_none_iff.1 first) Nat.toDigits_ne_nil
      | some char =>
        rw [first] at shorter
        exact shorter

theorem isDecimal_toDigits (number : Nat) : IsDecimal (Nat.toDigits 10 number) where
  nonempty := Nat.toDigits_ne_nil
  digits _ member := Nat.isDigit_of_mem_toDigits (by decide) (by decide) member
  noLeadingZero leadingZero := by
    cases Nat.eq_zero_or_pos number with
    | inl isZero => rw [isZero, Nat.toDigits_zero]
    | inr positive => exact absurd leadingZero (head?_toDigits_ne_zero positive)

theorem exists_digit_of_isDigit {char : Char} (isDigit : char.isDigit = true) :
    ∃ digit < 10, Nat.toDigits 10 digit = [char] := by
  have bounds := Char.isDigit_iff_toNat.1 isDigit
  have zeroCode : '0'.toNat = 48 := rfl
  have nineCode : '9'.toNat = 57 := rfl
  have isSmall : char.toNat - 48 < 10 := by omega
  have sameChar : (char.toNat - 48).digitChar = char := by
    rw [← Char.toNat_inj, Nat.toNat_digitChar_of_lt_ten isSmall]
    omega
  exact ⟨char.toNat - 48, isSmall, by rw [Nat.toDigits_of_lt_base isSmall, sameChar]⟩

/-- A text of digits without a leading zero is the decimal form of a number. The last digit is
that of the number itself, and the digits before it have no leading zero either. -/
theorem exists_toDigits_of_isDecimal {text : List Char} (isDecimal : IsDecimal text) :
    ∃ number, text = Nat.toDigits 10 number := by
  induction text using List.reverseRecOn with
  | nil => exact absurd rfl isDecimal.nonempty
  | append_singleton leading last inductionHypothesis =>
    have lastIsDigit := isDecimal.digits last (List.mem_append_right leading List.mem_cons_self)
    rcases exists_digit_of_isDigit lastIsDigit with ⟨digit, isSmall, ofDigit⟩
    cases leading with
    | nil => exact ⟨digit, ofDigit.symm⟩
    | cons first others =>
      have firstNotZero : first ≠ '0' := by
        rintro rfl
        have alone := isDecimal.noLeadingZero rfl
        simp at alone
      have leadingIsDecimal : IsDecimal (first :: others) := {
        nonempty := List.cons_ne_nil first others
        digits := fun char member => isDecimal.digits char (List.mem_append_left [last] member)
        noLeadingZero := fun isZero => absurd (Option.some.inj isZero) firstNotZero }
      rcases inductionHypothesis leadingIsDecimal with ⟨number, ofNumber⟩
      have positive : 0 < number := by
        apply Nat.pos_of_ne_zero
        rintro rfl
        rw [Nat.toDigits_zero] at ofNumber
        exact firstNotZero (List.cons.inj ofNumber).1
      refine ⟨10 * number + digit, ?_⟩
      rw [← Nat.toDigits_append_toDigits (by decide) positive isSmall, ofNumber, ofDigit]

theorem isDecimal_iff {text : List Char} :
    IsDecimal text ↔ ∃ number, text = Nat.toDigits 10 number := by
  constructor
  · exact exists_toDigits_of_isDecimal
  · rintro ⟨number, rfl⟩
    exact isDecimal_toDigits number

end Stackwright
