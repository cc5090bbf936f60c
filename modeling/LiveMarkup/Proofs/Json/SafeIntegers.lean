import LiveMarkup.Resolve
import Mathlib.Algebra.GroupWithZero.Nat

/-!
# Safe integers

An integer of magnitude at most `2 ^ 53 - 1` is a floating-point number: its significand has room
for it, so it is rounded to itself and read back as the same integer. A JSON value whose integers
are of this kind can therefore be made a value and a JSON value again without telling the
difference in markup (`Value.toJson?_ofJson`).
-/

namespace LiveMarkup

namespace Binary64

variable {k m n units : Nat}

/-! ## The grid around a safe integer -/

-- the exponents are kept as variables, since powers this great are not to be computed

theorem one_eq_pow (hk : k = 1074) : one = 2 ^ k := by
  unfold one
  rw [← hk]
  rfl

theorem limit_eq_pow (hk : k = 2098) : limit = 2 ^ k := by
  unfold limit
  rw [← hk]
  rfl

theorem one_pos : 0 < one := by
  obtain ⟨k, hk⟩ : ∃ k, k = 1074 := ⟨_, rfl⟩
  rw [one_eq_pow hk]
  exact Nat.two_pow_pos k

theorem mul_one_lt (h : m ≤ maxSafe) (hk : k = 1074) : m * one < 2 ^ (53 + k) := by
  have hbound : m < 2 ^ 53 := Nat.lt_of_le_of_lt h (by decide)
  rw [one_eq_pow hk, Nat.pow_add]
  exact Nat.mul_lt_mul_of_pos_right hbound (Nat.two_pow_pos k)

theorem mul_one_lt_limit (h : m ≤ maxSafe) : m * one < limit := by
  obtain ⟨k, hk⟩ : ∃ k, k = 1074 := ⟨_, rfl⟩
  obtain ⟨l, hl⟩ : ∃ l, l = 2098 := ⟨_, rfl⟩
  rw [limit_eq_pow hl]
  exact Nat.lt_of_lt_of_le (mul_one_lt h hk) (Nat.pow_le_pow_right (by decide) (by omega))

/-- What is a whole number is the nearest one. -/
theorem nearest_mul (hpos : 0 < n) : nearest (m * n) n = m := by
  have hquotient : m * n / n = m := Nat.mul_div_cancel m hpos
  have hrest : m * n % n = 0 := Nat.mul_mod_left m n
  simp only [nearest, hquotient, hrest, Nat.mul_zero, if_pos hpos]

/-- A number of units that lies on the grid around it is rounded to itself. -/
theorem roundUnits_of_dvd (h : Nat.pow 2 (gapExponent units) ∣ units) :
    roundUnits units 1 = units := by
  have hpos : 0 < Nat.pow 2 (gapExponent units) := Nat.two_pow_pos _
  unfold roundUnits
  dsimp only
  rw [Nat.div_one]
  generalize Nat.pow 2 (gapExponent units) = gap at h hpos
  obtain ⟨m, rfl⟩ := h
  rw [Nat.one_mul, Nat.mul_comm gap m, nearest_mul hpos]

/-- Around a safe integer the grid is at least as fine as the integers. -/
theorem gapExponent_le (h : m ≤ maxSafe) (hk : k = 1074) : gapExponent (m * one) ≤ k := by
  unfold gapExponent
  by_cases hzero : m = 0
  · rw [hzero, Nat.zero_mul]
    exact Nat.zero_le _
  · have hne : m * one ≠ 0 := Nat.mul_ne_zero hzero (Nat.ne_of_gt one_pos)
    have hlog : (m * one).log2 < 53 + k := (Nat.log2_lt hne).mpr (mul_one_lt h hk)
    omega

theorem roundUnits_of_safe (h : m ≤ maxSafe) : roundUnits (m * one) 1 = m * one := by
  obtain ⟨k, hk⟩ : ∃ k, k = 1074 := ⟨_, rfl⟩
  have hone : 2 ^ gapExponent (m * one) ∣ one := by
    have hgrid := Nat.pow_dvd_pow 2 (gapExponent_le h hk)
    rwa [← one_eq_pow hk] at hgrid
  exact roundUnits_of_dvd (Nat.dvd_trans hone (Nat.dvd_mul_left one m))

/-! ## Integers as numbers -/

variable {i : Int}

/-- A safe integer is a number of its own. -/
theorem ofInt_of_safe (h : i.natAbs ≤ maxSafe) : ofInt i = .finite (i < 0) (i.natAbs * one) := by
  unfold ofInt ofRatio ofUnits
  rw [roundUnits_of_safe h]
  exact if_neg (Nat.not_le_of_lt (mul_one_lt_limit h))

/-- A safe integer is read back from the number that it is. -/
theorem safeInt?_ofInt (h : i.natAbs ≤ maxSafe) : (ofInt i).safeInt? = some i := by
  rw [ofInt_of_safe h, safeInt?, Nat.mul_mod_left, Nat.mul_div_cancel _ one_pos,
    if_pos (by simpa using h)]
  by_cases hneg : i < 0
  · rw [decide_eq_true hneg, if_pos rfl]
    exact congrArg some (by omega)
  · rw [decide_eq_false hneg, if_neg Bool.false_ne_true]
    exact congrArg some (by omega)

theorem isZero_ofInt (h : i.natAbs ≤ maxSafe) : (ofInt i).isZero = decide (i = 0) := by
  rw [ofInt_of_safe h]
  by_cases hzero : i = 0
  · rw [hzero, Int.natAbs_zero, Nat.zero_mul]
    rfl
  · have hne : i.natAbs * one ≠ 0 :=
      Nat.mul_ne_zero (Int.natAbs_ne_zero.mpr hzero) (Nat.ne_of_gt one_pos)
    obtain ⟨units, hunits⟩ := Nat.exists_eq_succ_of_ne_zero hne
    rw [hunits, decide_eq_false hzero]
    rfl

theorem ofInt_ne_nan (h : i.natAbs ≤ maxSafe) : ofInt i ≠ .nan := by
  rw [ofInt_of_safe h]
  nofun

end Binary64

namespace Json

/-! ## Numbers that pass through floating point -/

mutual

/-- Each number in the value, members of objects apart, is a safe integer or a floating-point
number. -/
def isSafe : Json → Bool
  | .int n => n.natAbs ≤ Binary64.maxSafe
  | .float x => x ≠ .nan
  | .arr items => isSafeAll items
  | .null | .bool _ | .str _ | .obj _ => true

/-- Each number in the items is a safe integer or a floating-point number. -/
def isSafeAll : List Json → Bool
  | [] => true
  | j :: js => isSafe j && isSafeAll js

end

/-- The JSON number for a floating-point number is one in which nothing is left to be made an
integer. -/
theorem withIntegers_ofBinary64 (x : Binary64) :
    (ofBinary64 x).withIntegers = ofBinary64 x := by
  unfold ofBinary64
  split
  · rfl
  · next hsafe =>
    split
    · next hfinite => rw [withIntegers, ofBinary64, hsafe, hfinite, if_pos rfl]
    · rfl

end Json

namespace Value

open Json (isSafe isSafeAll)

mutual

/-- A JSON value that is made a value has a JSON form, and both have the same integers in them once
whole numbers are made integers. -/
theorem toJson?_ofJson : (j : Json) → j.isSafe = true →
    ∃ j', toJson? (ofJson j) = some j' ∧ j'.withIntegers = j.withIntegers
  | .null, _ => ⟨.null, rfl, rfl⟩
  | .bool b, _ => ⟨.bool b, rfl, rfl⟩
  | .int n, h => by
    have hsafe : n.natAbs ≤ Binary64.maxSafe := by simpa [isSafe] using h
    have hint : Json.ofBinary64 (.ofInt n) = .int n := by
      rw [Json.ofBinary64, Binary64.safeInt?_ofInt hsafe]
    exact ⟨.int n, congrArg some hint, rfl⟩
  | .float x, _ => by
    refine ⟨.ofBinary64 x, rfl, ?_⟩
    rw [Json.withIntegers_ofBinary64, Json.withIntegers]
  | .str s, _ => ⟨.str s, rfl, rfl⟩
  | .arr items, h => by
    rw [isSafe] at h
    obtain ⟨js, hjs, hsame⟩ := toJsonAll?_ofJsonAll items h
    refine ⟨.arr js, ?_, ?_⟩
    · rw [ofJson, toJson?, hjs, Option.map_some]
    · rw [Json.withIntegers, Json.withIntegers, hsame]
  | .obj fields, _ => ⟨.obj fields, rfl, rfl⟩

theorem toJsonAll?_ofJsonAll : (items : List Json) → isSafeAll items = true →
    ∃ js, toJsonAll? (ofJsonAll items) = some js ∧
      Json.withIntegersAll js = Json.withIntegersAll items
  | [], _ => ⟨[], rfl, rfl⟩
  | j :: items, h => by
    rw [isSafeAll, Bool.and_eq_true] at h
    obtain ⟨j', hj, hhead⟩ := toJson?_ofJson j h.1
    obtain ⟨js, hjs, htail⟩ := toJsonAll?_ofJsonAll items h.2
    refine ⟨j' :: js, ?_, ?_⟩
    · rw [ofJsonAll, toJsonAll?, hj, hjs]
    · rw [Json.withIntegersAll, Json.withIntegersAll, hhead, htail]

end

end Value

end LiveMarkup
