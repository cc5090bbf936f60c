import LiveMarkup.Decimal.Layout
import LiveMarkup.Proofs.Decimal.Literals

/-!
# Layouts are exact

A layout writes a decimal in one of four ways (`Layout.Places`): its digits and zeros up to the
point, its digits with the point among them, zeros from the point on and then its digits, or its
first digit, the point, the other digits and an exponent. Read as a literal, each gives the digits
back with zeros at either end (`ofLiteral?_of_places`), so the text denotes the decimal and no other
decimal is written like that (`number_exact`).
-/

namespace LiveMarkup

namespace Layout

open Decimal (ofLiteral? literalValue?)

variable {l : Layout} {d other : Decimal} {t : Text}

/-! ## The four ways to lay a decimal out -/

/-- Digits with the point behind the first, when there are others. -/
def significand (first : Char) (rest : Text) : Text :=
  if rest = [] then [first] else first :: '.' :: rest

/-- The text lays the decimal out. -/
inductive Places (l : Layout) : Decimal → Text → Prop
  /-- The point stands behind the digits and zeros. -/
  | whole (digits : Text) (zeros : Nat) (fits : (digits.length + zeros : Int) ≤ l.maxPoint) :
    Places l ⟨digits, digits.length + zeros⟩ (digits ++ (List.replicate zeros '0' ++ l.whole))
  /-- The point stands among the digits. -/
  | mixed (front back : Text) (before : front ≠ []) (behind : back ≠ [])
      (fits : (front.length : Int) ≤ l.maxPoint) :
    Places l ⟨front ++ back, front.length⟩ (front ++ '.' :: back)
  /-- The point stands before zeros and the digits. -/
  | fraction (digits : Text) (zeros : Nat) (fits : l.minPoint < -zeros) :
    Places l ⟨digits, -zeros⟩ ('0' :: '.' :: (List.replicate zeros '0' ++ digits))
  /-- The point stands behind the first digit, and an exponent tells its place. -/
  | scientific (first : Char) (rest : Text) (point : Int)
      (beyond : l.maxPoint < point ∨ point ≤ l.minPoint) :
    Places l ⟨first :: rest, point⟩ (significand first rest ++
      'e' :: (if point - 1 < 0 then '-' else '+') :: Text.ofNat (point - 1).natAbs)

/-- The point of a number near one is written in its place, and whole numbers go on with nothing
but zeros. -/
structure IsPlain (l : Layout) : Prop where
  minPoint : l.minPoint ≤ 0
  maxPoint : 0 ≤ l.maxPoint
  whole : l.whole = [] ∨ ∃ zeros, l.whole = '.' :: List.replicate zeros '0'

theorem number_isPlain : number.IsPlain := ⟨by decide, by decide, .inl rfl⟩

theorem json_isPlain : json.IsPlain := ⟨by decide, by decide, .inr ⟨1, rfl⟩⟩

theorem places_place (plain : l.IsPlain) (present : d.digits ≠ []) :
    l.Places d (l.place d.digits d.point) := by
  obtain ⟨digits, point⟩ := d
  have low := plain.minPoint
  have high := plain.maxPoint
  have positive : 0 < digits.length := List.length_pos_iff.mpr present
  unfold place
  simp only [Bool.and_eq_true, decide_eq_true_eq]
  split
  · next fits =>
    obtain ⟨zeros, rfl⟩ : ∃ zeros : Nat, point = digits.length + zeros :=
      ⟨(point - digits.length).toNat, by omega⟩
    rw [add_sub_cancel_left, Int.toNat_natCast]
    exact .whole digits zeros fits.2
  split
  · next fits among =>
    obtain ⟨n, rfl⟩ : ∃ n : Nat, point = n := ⟨point.toNat, by omega⟩
    have inside : n < digits.length := by omega
    have front : (digits.take n).length = n := List.length_take_of_le inside.le
    have back : (digits.drop n).length = digits.length - n := List.length_drop
    have placed : l.Places _ _ := .mixed (digits.take n) (digits.drop n)
      (List.ne_nil_of_length_pos (by omega)) (List.ne_nil_of_length_pos (by omega)) (by omega)
    rw [List.take_append_drop, front] at placed
    rw [Int.toNat_natCast]
    exact placed
  split
  · next below =>
    obtain ⟨zeros, rfl⟩ : ∃ zeros : Nat, point = -zeros := ⟨(-point).toNat, by omega⟩
    rw [neg_neg, Int.toNat_natCast]
    exact .fraction digits zeros below.1
  · next whole mixed fraction =>
    have beyond : l.maxPoint < point ∨ point ≤ l.minPoint := by omega
    cases digits with
    | nil => exact absurd rfl present
    | cons first rest =>
      have placed := Places.scientific first rest point beyond
      cases rest with
      | nil => exact placed
      | cons second rest => exact placed

/-! ## Reading a decimal that was laid out -/

/-- A decimal that was laid out is read back with zeros at either end. -/
theorem ofLiteral?_of_places (plain : l.IsPlain) (proper : d.IsProper) (placed : l.Places d t) :
    ∃ before behind, ofLiteral? t = some
      ⟨List.replicate before '0' ++ (d.digits ++ List.replicate behind '0'), d.point + before⟩ := by
  have zero := Text.isDigit_zeros
  have nothing : Decimal.exponentOf? [] = some 0 := rfl
  cases placed with
  | whole digits zeros =>
    have present : digits ++ List.replicate zeros '0' ≠ [] :=
      List.append_ne_nil_of_left_ne_nil proper.present _
    have isDigit := List.forall_mem_append.mpr ⟨proper.digits, zero zeros⟩
    rcases plain.whole with none | ⟨more, some⟩
    · refine ⟨0, zeros, ?_⟩
      have read := Decimal.ofLiteral?_whole present isDigit nothing
      simpa [none] using read
    · refine ⟨0, zeros + more, ?_⟩
      have read := Decimal.ofLiteral?_point present isDigit (zero more) nothing
      simpa [some] using read
  | mixed front back some more =>
    obtain ⟨front', back'⟩ := List.forall_mem_append.mp proper.digits
    have read := Decimal.ofLiteral?_point some front' back' nothing
    exact ⟨0, 0, by simpa using read⟩
  | fraction digits zeros =>
    have isDigit := List.forall_mem_append.mpr ⟨zero zeros, proper.digits⟩
    have read := Decimal.ofLiteral?_point (List.cons_ne_nil '0' []) (zero 1) isDigit nothing
    exact ⟨zeros + 1, 0, by simpa [List.replicate_succ] using read⟩
  | scientific first rest point =>
    have exponent := Decimal.exponentOf?_sign (point - 1)
    obtain ⟨first', rest'⟩ := List.forall_mem_cons.mp proper.digits
    have one : ∀ c ∈ [first], c.isDigit = true := List.forall_mem_singleton.mpr first'
    refine ⟨0, 0, ?_⟩
    by_cases only : rest = []
    · have read := Decimal.ofLiteral?_whole (List.cons_ne_nil first []) one exponent
      simpa [significand, only] using read
    · have read := Decimal.ofLiteral?_point (List.cons_ne_nil first []) one rest' exponent
      simpa [significand, only] using read

/-- A decimal that was laid out is read back as its number. -/
theorem literalValue?_place (plain : l.IsPlain) (proper : d.IsProper) :
    literalValue? (l.place d.digits d.point) = some d.value := by
  obtain ⟨before, behind, read⟩ :=
    ofLiteral?_of_places plain proper (places_place plain proper.present)
  rw [literalValue?, read, Option.map_some, Decimal.value_zeros_append,
    Decimal.value_append_zeros]

/-- Two decimals without zeros at either end are not written alike. -/
theorem place_injective (plain : l.IsPlain) (proper : d.IsProper) (proper' : other.IsProper)
    (reduced : d.IsReduced) (reduced' : other.IsReduced)
    (same : l.place d.digits d.point = l.place other.digits other.point) : d = other := by
  have value := literalValue?_place plain proper
  rw [same, literalValue?_place plain proper'] at value
  exact Decimal.eq_of_value_eq proper proper' reduced reduced' (Option.some.inj value).symm

/-- An exponent is written when the point is farther than the layout has room for. -/
theorem exponent_mem_place_iff (plain : l.IsPlain) (proper : d.IsProper) :
    'e' ∈ l.place d.digits d.point ↔ l.maxPoint < d.point ∨ d.point ≤ l.minPoint := by
  have noLetter (ds : Text) (digits : ∀ c ∈ ds, c.isDigit = true) : 'e' ∉ ds :=
    fun mem => absurd (digits 'e' mem) (by decide)
  have noZero (zeros : Nat) : 'e' ∉ List.replicate zeros '0' :=
    fun mem => absurd (List.eq_of_mem_replicate mem) (by decide)
  have low := plain.minPoint
  have high := plain.maxPoint
  have whole : 'e' ∉ l.whole := by
    rcases plain.whole with none | ⟨zeros, some⟩
    · rw [none]
      exact List.not_mem_nil
    · rw [some]
      simp [noZero]
  have placed := places_place plain proper.present
  generalize l.place d.digits d.point = t at placed
  cases placed with
  | whole digits zeros fits =>
    have positive : 0 < digits.length := List.length_pos_iff.mpr proper.present
    have absent := noLetter digits proper.digits
    simp only [List.mem_append, absent, noZero, whole, or_self, false_iff]
    omega
  | mixed front back before _ fits =>
    have positive : 0 < front.length := List.length_pos_iff.mpr before
    obtain ⟨front', back'⟩ := List.forall_mem_append.mp proper.digits
    have absent := noLetter front front'
    have absent' := noLetter back back'
    simp only [List.mem_append, List.mem_cons, Char.reduceEq, absent, absent', or_self, false_iff]
    omega
  | fraction digits zeros fits =>
    have absent := noLetter digits proper.digits
    simp only [List.mem_cons, List.mem_append, Char.reduceEq, absent, noZero, or_self, false_iff]
    omega
  | scientific first rest point beyond =>
    simp [beyond]

/-! ## No operation leaves its range -/

/-- The number has room in 32 bits with a sign. -/
def IsInt32 (n : Int) : Prop := -2 ^ 31 ≤ n ∧ n < 2 ^ 31

instance (n : Int) : Decidable (IsInt32 n) :=
  inferInstanceAs (Decidable (-2 ^ 31 ≤ n ∧ n < 2 ^ 31))

/-- The number, if it has room in 32 bits with a sign. -/
def int32? (n : Int) : Option Int := if IsInt32 n then some n else none

/-- So many zeros, if the number of them is not negative. -/
def zeros? (n : Int) : Option Text :=
  if 0 ≤ n then some (List.replicate n.toNat '0') else none

/-- The text cut after so many characters, if there are so many. -/
def cutAfter? (n : Int) (t : Text) : Option (Text × Text) :=
  if 0 ≤ n ∧ n ≤ t.length then some (t.take n.toNat, t.drop n.toNat) else none

/-- Write `digits` with the point after `point` of them, with integers of 32 bits. There is no
result when an integer overflows, a text is cut beyond its end or zeros are repeated a negative
number of times. -/
def placeInRange? (l : Layout) (digits : Text) (point : Int) : Option Text := do
  let length ← int32? digits.length
  if length ≤ point && point ≤ l.maxPoint then
    let zeros ← zeros? (← int32? (point - length))
    return digits ++ (zeros ++ l.whole)
  else if 0 < point && point ≤ l.maxPoint then
    let (front, back) ← cutAfter? point digits
    return front ++ '.' :: back
  else if l.minPoint < point && point ≤ 0 then
    let zeros ← zeros? (-point)
    return '0' :: '.' :: (zeros ++ digits)
  else
    let exponent ← int32? (point - 1)
    let (first, rest) ← cutAfter? 1 digits
    let mantissa := if rest.isEmpty then first else first ++ '.' :: rest
    return mantissa ++ 'e' :: (if exponent < 0 then '-' else '+') :: Text.ofNat exponent.natAbs

/-- The integers that a layout of the decimal begins with have room in 32 bits with a sign. -/
structure InRange (d : Decimal) : Prop where
  length : IsInt32 d.digits.length
  point : IsInt32 d.point
  exponent : IsInt32 (d.point - 1)

theorem placeInRange?_eq (present : d.digits ≠ []) (range : InRange d) :
    l.placeInRange? d.digits d.point = some (l.place d.digits d.point) := by
  obtain ⟨digits, point⟩ := d
  obtain ⟨length, fits, exponent⟩ := range
  have low : -2 ^ 31 ≤ point := fits.1
  have high : point < 2 ^ 31 := fits.2
  have positive : 0 < digits.length := List.length_pos_iff.mpr present
  unfold placeInRange? place
  rw [int32?, if_pos length, int32?, if_pos exponent]
  simp only [Option.bind_eq_bind, Option.bind_some, Bool.and_eq_true, decide_eq_true_eq]
  split
  · next fits =>
    have room : IsInt32 (point - digits.length) := ⟨by omega, by omega⟩
    have zeros : zeros? (point - digits.length) =
        some (List.replicate (point - digits.length).toNat '0') := if_pos (by omega)
    rw [int32?, if_pos room, Option.bind_some, zeros]
    rfl
  split
  · next fits among =>
    have cut : cutAfter? point digits = some (digits.take point.toNat, digits.drop point.toNat) :=
      if_pos ⟨by omega, by omega⟩
    rw [cut]
    rfl
  split
  · next below =>
    have zeros : zeros? (-point) = some (List.replicate (-point).toNat '0') := if_pos (by omega)
    rw [zeros]
    rfl
  · have cut : cutAfter? 1 digits = some (digits.take 1, digits.drop 1) :=
      if_pos ⟨by decide, by omega⟩
    rw [cut]
    cases digits with
    | nil => exact absurd rfl present
    | cons first rest =>
      cases rest with
      | nil => simp
      | cons second rest => simp

/-! ## Exact and unambiguous -/

/-- The text of a number value is right for every decimal. No operation of the layout leaves its
range; read as a literal, the text denotes the decimal; an exponent is written from `10 ^ 21` on and
below `10 ^ -6`; and no other decimal without zeros at either end is written like that. -/
theorem number_exact (proper : d.IsProper) (range : InRange d) :
    number.placeInRange? d.digits d.point = some (number.place d.digits d.point) ∧
    literalValue? (number.place d.digits d.point) = some d.value ∧
    ('e' ∈ number.place d.digits d.point ↔ 21 < d.point ∨ d.point ≤ -6) ∧
    ∀ other : Decimal, other.IsProper → d.IsReduced → other.IsReduced →
      number.place d.digits d.point = number.place other.digits other.point → d = other :=
  ⟨placeInRange?_eq proper.present range, literalValue?_place number_isPlain proper,
    exponent_mem_place_iff number_isPlain proper,
    fun _ proper' => place_injective number_isPlain proper proper'⟩

theorem number_exact_small :
    number.placeInRange? ['2', '5'] (-7) = some "2.5e-8".toList ∧
    literalValue? "2.5e-8".toList = some (25 / 10 ^ 2 * 10 ^ (-7 : Int)) ∧
    'e' ∈ "2.5e-8".toList ∧ "2.5e-8".toList ≠ number.place ['2', '5'] (-6) := by
  have proper (point : Int) : (⟨['2', '5'], point⟩ : Decimal).IsProper :=
    ⟨by simp, List.all_eq_true.mp rfl, by simp⟩
  have reduced (point : Int) : (⟨['2', '5'], point⟩ : Decimal).IsReduced := by
    simp [Decimal.IsReduced]
  have range : InRange ⟨['2', '5'], -7⟩ := ⟨by decide, by decide, by decide⟩
  obtain ⟨inRange, exact, exponent, unique⟩ := number_exact (proper (-7)) range
  refine ⟨inRange, exact, exponent.mpr (by decide), fun same => ?_⟩
  have points := unique _ (proper (-6)) (reduced (-7)) (reduced (-6)) same
  exact absurd (congrArg Decimal.point points) (by decide)

/-- So is JSON text, which switches to an exponent earlier. -/
theorem json_exact (proper : d.IsProper) :
    literalValue? (json.place d.digits d.point) = some d.value ∧
    ('e' ∈ json.place d.digits d.point ↔ 16 < d.point ∨ d.point ≤ -5) ∧
    ∀ other : Decimal, other.IsProper → d.IsReduced → other.IsReduced →
      json.place d.digits d.point = json.place other.digits other.point → d = other :=
  ⟨literalValue?_place json_isPlain proper, exponent_mem_place_iff json_isPlain proper,
    fun _ proper' => place_injective json_isPlain proper proper'⟩

end Layout

end LiveMarkup
