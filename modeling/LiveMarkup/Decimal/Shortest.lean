import LiveMarkup.Binary64

/-!
# Shortest decimals

The digits by which a binary number is written: as few as read back to the same number, and of
those the nearest to it. For each count of digits only the two decimals around the number on the
grid of that count are tried, with exact arithmetic.
-/

namespace LiveMarkup

/-- A decimal `0.d₁d₂… * 10 ^ point`. -/
structure Decimal where
  digits : Text
  point : Int
  deriving DecidableEq, Repr, Inhabited

/-- Which of two decimals equally near to a number stands for it. -/
inductive Tie where
  | toEven
  | away
  deriving DecidableEq, Repr

namespace Decimal

/-- `n` without the zeros at its end; nothing for zero. -/
def withoutTrailingZeros (digits : Text) : Text :=
  (digits.reverse.dropWhile (· = '0')).reverse

/-- The decimal `n * 10 ^ exponent`. -/
def ofScaled (n : Nat) (exponent : Int) : Decimal :=
  let digits := Text.ofNat n
  ⟨withoutTrailingZeros digits, digits.length + exponent⟩

/-- The numbers that round to a binary number, in quarters of its unit. -/
structure Interval where
  low : Nat
  high : Nat
  closed : Bool

/-- The half-way points around `units`; they belong to it when its significand is even. -/
def Interval.around (units : Nat) : Interval :=
  let gap := Nat.pow 2 (Binary64.gapExponent units)
  let below := if units = Nat.pow 2 52 * gap && 1 < gap then gap else 2 * gap
  ⟨4 * units - below, 4 * units + 2 * gap, units / gap % 2 = 0⟩

/-- A multiple `n * 10 ^ exponent` lies in the interval. -/
def Interval.holds (i : Interval) (n : Nat) (exponent : Int) : Bool :=
  let scaled := 4 * n * Binary64.one * Nat.pow 10 exponent.toNat
  let low := i.low * Nat.pow 10 (-exponent).toNat
  let high := i.high * Nat.pow 10 (-exponent).toNat
  if i.closed then low ≤ scaled && scaled ≤ high else low < scaled && scaled < high

/-- The place of the point in `units`: the least `p` with a value below `10 ^ p`. -/
def pointOf (units : Nat) : Int :=
  let below (p : Int) : Bool := units * Nat.pow 10 (-p).toNat < Nat.pow 10 p.toNat * Binary64.one
  let guess := ((Nat.log2 units : Int) - 1074) * 30103 / 100000
  if below guess then guess else if below (guess + 1) then guess + 1 else guess + 2

/-- The decimal for `units` with the grid `10 ^ exponent`, if one of the two grid points around
it reads back. -/
def onGrid? (tie : Tie) (units : Nat) (exponent : Int) : Option Decimal :=
  let num := units * Nat.pow 10 (-exponent).toNat
  let den := Binary64.one * Nat.pow 10 exponent.toNat
  let floor := num / den
  let rest := num % den
  let interval := Interval.around units
  let lower := interval.holds floor exponent
  let upper := interval.holds (floor + 1) exponent
  let pickUpper :=
    den < 2 * rest || (den = 2 * rest && (tie = .away || floor % 2 = 1))
  if lower && upper then some (ofScaled (if pickUpper then floor + 1 else floor) exponent)
  else if lower then some (ofScaled floor exponent)
  else if upper then some (ofScaled (floor + 1) exponent)
  else none

/-- The shortest decimal that reads back to `units`. Seventeen digits always do; the exact decimal
stands after them to make the search total. -/
def shortest (tie : Tie) (units : Nat) : Decimal :=
  let point := pointOf units
  match (List.range 17).findSome? fun k => onGrid? tie units (point - (k + 1 : Nat)) with
  | some d => d
  | none => ofScaled (units * Nat.pow 5 1074) (-1074)

end Decimal

end LiveMarkup
