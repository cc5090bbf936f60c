import LiveMarkup.Decimal.Reader
import LiveMarkup.Proofs.Text.Digits
import LiveMarkup.Proofs.Text.Spans
import Mathlib.Algebra.Order.Field.Power
import Mathlib.Algebra.Order.Field.Rat
import Mathlib.Tactic.FieldSimp
import Mathlib.Tactic.Positivity
import Mathlib.Tactic.Ring

/-!
# Decimal literals

A decimal stands for a rational number, `0.d₁d₂… * 10 ^ point`. Zeros at either end of its digits
do not matter to that number when the point is moved along (`value_zeros_append`,
`value_append_zeros`), and apart from them the number determines the decimal (`eq_of_value_eq`).
A literal is read as the decimal of the digits before and behind its point, whose place the
exponent moves (`ofLiteral?_whole`, `ofLiteral?_point`).
-/

namespace LiveMarkup

namespace Decimal

variable {d other : Decimal} {ds fs tail : Text} {e p : Int}

/-! ## The number of a decimal -/

/-- The number that a decimal stands for. -/
def value (d : Decimal) : ℚ :=
  Text.digitsValue d.digits / 10 ^ d.digits.length * 10 ^ d.point

/-- The number that an unsigned literal denotes. -/
def literalValue? (t : Text) : Option ℚ := (ofLiteral? t).map value

/-- The digits are decimal digits, at least one, and the first is no zero. -/
structure IsProper (d : Decimal) : Prop where
  present : d.digits ≠ []
  digits : ∀ c ∈ d.digits, c.isDigit = true
  lead : d.digits.head? ≠ some '0'

/-- The last digit is no zero. -/
def IsReduced (d : Decimal) : Prop := d.digits.getLast? ≠ some '0'

theorem ten_pow_pos (n : Nat) : (0 : ℚ) < 10 ^ n := pow_pos (by norm_num) n

theorem ten_zpow_pos (p : Int) : (0 : ℚ) < 10 ^ p := zpow_pos (by norm_num) p

theorem value_append_zeros (ds : Text) (zeros : Nat) (p : Int) :
    value ⟨ds ++ List.replicate zeros '0', p⟩ = value ⟨ds, p⟩ := by
  have more := ten_pow_pos zeros
  have length := ten_pow_pos ds.length
  simp only [value, Text.digitsValue_append, Text.digitsValue_replicate, List.length_append,
    List.length_replicate, add_zero, Nat.cast_mul, Nat.cast_pow, Nat.cast_ofNat, pow_add]
  rw [mul_div_mul_right _ _ more.ne']

theorem value_zeros_append (ds : Text) (zeros : Nat) (p : Int) :
    value ⟨List.replicate zeros '0' ++ ds, p + zeros⟩ = value ⟨ds, p⟩ := by
  have more := ten_pow_pos zeros
  have length := ten_pow_pos ds.length
  simp only [value, Text.digitsValue_append, Text.digitsValue_replicate, List.length_append,
    List.length_replicate, zero_mul, zero_add, pow_add]
  rw [zpow_add₀ (by norm_num), zpow_natCast]
  field_simp

/-! ## Which decimal a number is -/

theorem IsProper.eq_ofNat (proper : d.IsProper) :
    d.digits = Text.ofNat (Text.digitsValue d.digits) :=
  Text.eq_ofNat proper.present proper.digits proper.lead

theorem value_lt (proper : d.IsProper) : d.value < 10 ^ d.point := by
  have length := ten_pow_pos d.digits.length
  have below : (Text.digitsValue d.digits : ℚ) < 10 ^ d.digits.length := by
    exact_mod_cast Text.digitsValue_lt proper.digits
  have fraction : (Text.digitsValue d.digits : ℚ) / 10 ^ d.digits.length < 1 :=
    (div_lt_one length).mpr below
  calc d.value < 1 * 10 ^ d.point := mul_lt_mul_of_pos_right fraction (ten_zpow_pos _)
    _ = 10 ^ d.point := one_mul _

theorem le_value (proper : d.IsProper) : 10 ^ (d.point - 1) ≤ d.value := by
  obtain ⟨digits, point⟩ := d
  cases digits with
  | nil => exact absurd rfl proper.present
  | cons c ds =>
    have lead : c ≠ '0' := fun same => proper.lead (congrArg some same)
    have above : (10 : ℚ) ^ ds.length ≤ Text.digitsValue (c :: ds) := by
      exact_mod_cast Text.le_digitsValue (proper.digits c List.mem_cons_self) lead ds
    have fraction : (10 : ℚ)⁻¹ ≤ Text.digitsValue (c :: ds) / 10 ^ (c :: ds).length := by
      rw [le_div_iff₀ (ten_pow_pos _), List.length_cons, pow_succ',
        inv_mul_cancel_left₀ (by norm_num)]
      exact above
    calc (10 : ℚ) ^ (point - 1) = 10⁻¹ * 10 ^ point := by
          rw [zpow_sub_one₀ (by norm_num), mul_comm]
      _ ≤ value ⟨c :: ds, point⟩ := mul_le_mul_of_nonneg_right fraction (ten_zpow_pos _).le

theorem point_le_of_value_eq (proper : d.IsProper) (proper' : other.IsProper)
    (same : d.value = other.value) : d.point ≤ other.point := by
  have between : (10 : ℚ) ^ (d.point - 1) < 10 ^ other.point :=
    calc (10 : ℚ) ^ (d.point - 1) ≤ d.value := le_value proper
      _ = other.value := same
      _ < 10 ^ other.point := value_lt proper'
  have less := (zpow_lt_zpow_iff_right₀ (by norm_num)).mp between
  omega

/-- Decimals of one number with equally many digits are the same. -/
theorem eq_of_length_eq (proper : d.IsProper) (proper' : other.IsProper)
    (same : d.value = other.value) (length : d.digits.length = other.digits.length) :
    d = other := by
  have point : d.point = other.point :=
    le_antisymm (point_le_of_value_eq proper proper' same)
      (point_le_of_value_eq proper' proper same.symm)
  have digits : d.digits = other.digits := by
    rw [value, value, point, length, mul_left_inj' (ten_zpow_pos _).ne',
      div_left_inj' (ten_pow_pos _).ne', Nat.cast_inj] at same
    rw [proper.eq_ofNat, same, ← proper'.eq_ofNat]
  cases d
  cases other
  exact congrArg₂ mk digits point

theorem IsProper.append_zeros (proper : d.IsProper) (zeros : Nat) :
    IsProper ⟨d.digits ++ List.replicate zeros '0', d.point⟩ where
  present := List.append_ne_nil_of_left_ne_nil proper.present _
  digits := List.forall_mem_append.mpr ⟨proper.digits, Text.isDigit_zeros zeros⟩
  lead := by
    rw [List.head?_append_of_ne_nil _ proper.present]
    exact proper.lead

/-- Of two decimals of one number, the one with more digits has zeros at its end. -/
theorem eq_of_length_le (proper : d.IsProper) (proper' : other.IsProper) (reduced : other.IsReduced)
    (same : d.value = other.value) (fewer : d.digits.length ≤ other.digits.length) : d = other := by
  obtain ⟨zeros, length⟩ := Nat.exists_eq_add_of_le fewer
  have longer : (⟨d.digits ++ List.replicate zeros '0', d.point⟩ : Decimal) = other := by
    refine eq_of_length_eq (proper.append_zeros zeros) proper' ?_ ?_
    · rw [value_append_zeros]
      exact same
    · rw [List.length_append, List.length_replicate, length]
  cases zeros with
  | zero =>
    rw [List.replicate_zero, List.append_nil] at longer
    exact longer
  | succ zeros =>
    have last : other.digits.getLast? = some '0' := by
      rw [← longer, List.replicate_succ', ← List.append_assoc, List.getLast?_concat]
    exact absurd last reduced

/-- A number has one decimal without zeros at either end. -/
theorem eq_of_value_eq (proper : d.IsProper) (proper' : other.IsProper) (reduced : d.IsReduced)
    (reduced' : other.IsReduced) (same : d.value = other.value) : d = other := by
  rcases le_total d.digits.length other.digits.length with fewer | fewer
  · exact eq_of_length_le proper proper' reduced' same fewer
  · exact (eq_of_length_le proper' proper reduced same.symm fewer).symm

/-! ## Reading literals -/

/-- An exponent begins with its letter, if there is one. -/
theorem stops_of_exponentOf? (exponent : exponentOf? tail = some e) :
    Text.Stops Char.isDigit tail ∧ ∀ rest, tail ≠ '.' :: rest := by
  cases tail with
  | nil => exact ⟨Text.stops_nil, fun rest => nofun⟩
  | cons c tail =>
    rw [exponentOf?] at exponent
    split at exponent
    · next letter =>
      simp only [Bool.or_eq_true, decide_eq_true_eq] at letter
      rcases letter with rfl | rfl
      · exact ⟨Text.stops_cons.mpr rfl, fun rest => nofun⟩
      · exact ⟨Text.stops_cons.mpr rfl, fun rest => nofun⟩
    · cases exponent

theorem exponentOf?_sign (e : Int) :
    exponentOf? ('e' :: (if e < 0 then '-' else '+') :: Text.ofNat e.natAbs) = some e := by
  have present : Text.ofNat e.natAbs ≠ [] := Nat.toDigits_ne_nil
  have digits : (Text.ofNat e.natAbs).all Char.isDigit = true :=
    List.all_eq_true.mpr fun c mem => Nat.isDigit_of_mem_toDigits (by decide) (by decide) mem
  by_cases negative : e < 0
  · have read : exponentOf? ('e' :: '-' :: Text.ofNat e.natAbs) =
        some (-(Text.digitsValue (Text.ofNat e.natAbs) : Int)) := by
      simp [exponentOf?, sign, present, digits]
    rw [if_pos negative, read, Text.digitsValue_ofNat, Int.ofNat_natAbs_of_nonpos negative.le,
      neg_neg]
  · have read : exponentOf? ('e' :: '+' :: Text.ofNat e.natAbs) =
        some (Text.digitsValue (Text.ofNat e.natAbs) : Int) := by
      simp [exponentOf?, sign, present, digits]
    rw [if_neg negative, read, Text.digitsValue_ofNat, Int.natAbs_of_nonneg (not_lt.mp negative)]

/-- A literal without a point. -/
theorem ofLiteral?_whole (present : ds ≠ []) (digits : ∀ c ∈ ds, c.isDigit = true)
    (exponent : exponentOf? tail = some e) :
    ofLiteral? (ds ++ tail) = some ⟨ds, ds.length + e⟩ := by
  obtain ⟨stops, noPoint⟩ := stops_of_exponentOf? exponent
  have take := Text.takeWhile_append_of_stops digits stops
  have drop := Text.dropWhile_append_of_stops digits stops
  have some : ds.isEmpty = false := List.isEmpty_eq_false_iff.mpr present
  unfold ofLiteral?
  rw [take, drop]
  dsimp only
  split
  · next rest => exact absurd rfl (noPoint rest)
  · rw [some, exponent]
    simp

/-- A literal with a point. -/
theorem ofLiteral?_point (present : ds ≠ []) (digits : ∀ c ∈ ds, c.isDigit = true)
    (behind : ∀ c ∈ fs, c.isDigit = true) (exponent : exponentOf? tail = some e) :
    ofLiteral? (ds ++ '.' :: (fs ++ tail)) = some ⟨ds ++ fs, ds.length + e⟩ := by
  obtain ⟨stops, -⟩ := stops_of_exponentOf? exponent
  have point : Text.Stops Char.isDigit ('.' :: (fs ++ tail)) := Text.stops_cons.mpr rfl
  have take := Text.takeWhile_append_of_stops digits point
  have drop := Text.dropWhile_append_of_stops digits point
  have takeBehind := Text.takeWhile_append_of_stops behind stops
  have dropBehind := Text.dropWhile_append_of_stops behind stops
  unfold ofLiteral?
  simp [take, drop, takeBehind, dropBehind, present, exponent]

end Decimal

end LiveMarkup
