import LiveMarkup.Text
import Mathlib.Algebra.GroupWithZero.Nat
import Mathlib.Data.List.Induction

/-!
# Digits

A run of decimal digits denotes a number. It is the number's own digits with zeros before them
(`exists_zeros`), so runs that do not begin with a zero are told apart by their numbers, and their
lengths say between which powers of ten the numbers lie.
-/

namespace LiveMarkup

namespace Text

variable {c : Char} {ds : Text}

/-! ## One digit -/

theorem isDigit_iff : c.isDigit = true ↔ 48 ≤ c.toNat ∧ c.toNat ≤ 57 := by
  simp only [Char.isDigit, Bool.and_eq_true, decide_eq_true_eq, ge_iff_le, UInt32.le_iff_toNat_le]
  rfl

theorem digitValue_lt (digit : c.isDigit = true) : digitValue c < 10 := by
  have range := isDigit_iff.mp digit
  have zero : '0'.toNat = 48 := rfl
  rw [digitValue, zero]
  omega

theorem ofNat_digitValue (digit : c.isDigit = true) : ofNat (digitValue c) = [c] := by
  have range := isDigit_iff.mp digit
  have zero : '0'.toNat = 48 := rfl
  have same : (digitValue c).digitChar = c := by
    refine Char.toNat_inj.mp ?_
    rw [Nat.toNat_digitChar_of_lt_ten (digitValue_lt digit), digitValue, zero]
    omega
  rw [ofNat, Nat.toDigits_of_lt_base (digitValue_lt digit), same]

/-! ## Runs of digits -/

theorem isDigit_zeros (zeros : Nat) : ∀ c ∈ List.replicate zeros '0', c.isDigit = true := by
  intro c mem
  rw [List.eq_of_mem_replicate mem]
  rfl

theorem digitsValue_concat (ds : Text) (c : Char) :
    digitsValue (ds ++ [c]) = 10 * digitsValue ds + digitValue c := by
  simp [digitsValue]

/-- Digits are zeros and then the number that they denote. -/
theorem exists_zeros {ds : Text} (present : ds ≠ []) (digits : ∀ c ∈ ds, c.isDigit = true) :
    ∃ zeros, ds = List.replicate zeros '0' ++ ofNat (digitsValue ds) := by
  induction ds using List.reverseRecOn with
  | nil => exact absurd rfl present
  | append_singleton ds c ih =>
    obtain ⟨digits, last⟩ := List.forall_mem_append.mp digits
    have digit := last c (List.mem_singleton.mpr rfl)
    have value := digitsValue_concat ds c
    by_cases first : ds = []
    · subst first
      have none : digitsValue [] = 0 := rfl
      refine ⟨0, ?_⟩
      rw [value, none, Nat.mul_zero, Nat.zero_add, ofNat_digitValue digit]
      rfl
    obtain ⟨zeros, front⟩ := ih first digits
    rcases Nat.eq_zero_or_pos (digitsValue ds) with zero | positive
    · -- so far there have been zeros only
      refine ⟨zeros + 1, ?_⟩
      rw [value, zero, Nat.mul_zero, Nat.zero_add, ofNat_digitValue digit,
        List.replicate_succ']
      rw [zero] at front
      exact congrArg (· ++ [c]) front
    · refine ⟨zeros, ?_⟩
      have longer : ofNat (digitsValue ds) ++ ofNat (digitValue c) =
          ofNat (10 * digitsValue ds + digitValue c) :=
        Nat.toDigits_append_toDigits (by decide) positive (digitValue_lt digit)
      rw [value, ← longer, ofNat_digitValue digit, ← List.append_assoc, ← front]

theorem digitsValue_ofNat (n : Nat) : digitsValue (ofNat n) = n :=
  Nat.ofDigitChars_ten_toDigits

theorem digitsValue_append (s t : Text) :
    digitsValue (s ++ t) = digitsValue s * 10 ^ t.length + digitsValue t := by
  have front : digitsValue (s ++ t) = Nat.ofDigitChars 10 t (digitsValue s) :=
    Nat.ofDigitChars_append 0
  have back : Nat.ofDigitChars 10 t 0 = digitsValue t := rfl
  rw [front, Nat.ofDigitChars_eq_ofDigitChars_zero, back, Nat.mul_comm]

theorem digitsValue_replicate (zeros : Nat) : digitsValue (List.replicate zeros '0') = 0 :=
  Nat.ofDigitChars_replicate_zero

theorem digitsValue_zeros (zeros n : Nat) :
    digitsValue (List.replicate zeros '0' ++ ofNat n) = n := by
  rw [digitsValue_append, digitsValue_replicate, Nat.zero_mul, Nat.zero_add, digitsValue_ofNat]

theorem digitsValue_lt (digits : ∀ c ∈ ds, c.isDigit = true) :
    digitsValue ds < 10 ^ ds.length := by
  induction ds using List.reverseRecOn with
  | nil => exact Nat.one_pos
  | append_singleton ds c ih =>
    obtain ⟨digits, last⟩ := List.forall_mem_append.mp digits
    have digit := digitValue_lt (last c (List.mem_singleton.mpr rfl))
    have front := ih digits
    rw [digitsValue_concat, List.length_append, List.length_singleton, Nat.pow_succ]
    omega

/-- Digits that begin with another one than zero denote at least the power of ten at their
front. -/
theorem le_digitsValue (digit : c.isDigit = true) (lead : c ≠ '0') (ds : Text) :
    10 ^ ds.length ≤ digitsValue (c :: ds) := by
  have positive : 1 ≤ digitValue c := by
    have range := isDigit_iff.mp digit
    have differ : c.toNat ≠ 48 := fun same => lead (Char.toNat_inj.mp same)
    have zero : '0'.toNat = 48 := rfl
    rw [digitValue, zero]
    omega
  have one : digitsValue [c] = digitValue c := Nat.zero_add _
  have split : digitsValue (c :: ds) = digitValue c * 10 ^ ds.length + digitsValue ds := by
    rw [← List.singleton_append, digitsValue_append, one]
  have front := Nat.mul_le_mul_right (10 ^ ds.length) positive
  omega

/-- Digits that do not begin with a zero are those of the number that they denote. -/
theorem eq_ofNat (present : ds ≠ []) (digits : ∀ c ∈ ds, c.isDigit = true)
    (lead : ds.head? ≠ some '0') : ds = ofNat (digitsValue ds) := by
  obtain ⟨zeros, same⟩ := exists_zeros present digits
  cases zeros with
  | zero => exact same
  | succ zeros =>
    rw [same] at lead
    exact absurd rfl lead

end Text

end LiveMarkup
