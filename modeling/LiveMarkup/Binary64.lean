import LiveMarkup.Text

/-!
# Binary floating point

The 64-bit numbers of IEEE 754, told by their values. Every finite one is a whole number of the
least positive one, `2 ^ -1074`, so it is kept as a sign and that natural number of units, and
each operation is exact arithmetic on naturals followed by one rounding: to the nearest number
with at most 53 significant bits, to an even significand when two are equally near, to infinity
from `2 ^ 1024` on.
-/

namespace LiveMarkup

/-- A 64-bit floating-point number. The value of a finite one is `± units * 2 ^ -1074`. -/
inductive Binary64 where
  | nan
  | infinity (negative : Bool)
  | finite (negative : Bool) (units : Nat)
  deriving DecidableEq, Repr, Inhabited

namespace Binary64

/-- How many units make one. -/
def one : Nat := Nat.pow 2 1074

/-- The units at which infinity begins: `2 ^ 1024`. -/
def limit : Nat := Nat.pow 2 2098

/-- The natural number nearest to `num / den`, the even one of two that are equally near. -/
def nearest (num den : Nat) : Nat :=
  let q := num / den
  let r := num % den
  if 2 * r < den then q else if den < 2 * r then q + 1 else q + q % 2

/-- The distance between neighbours around `units`, as a power of two. -/
def gapExponent (units : Nat) : Nat := Nat.log2 units - 52

/-- The representable number of units nearest to `num / den`, before any overflow. -/
def roundUnits (num den : Nat) : Nat :=
  let gap := Nat.pow 2 (gapExponent (num / den))
  nearest num (den * gap) * gap

/-- The number nearest to `num / den` units. -/
def ofUnits (negative : Bool) (num den : Nat) : Binary64 :=
  let units := roundUnits num den
  if limit ≤ units then .infinity negative else .finite negative units

/-- The number nearest to `num / den`. -/
def ofRatio (negative : Bool) (num den : Nat) : Binary64 := ofUnits negative (num * one) den

/-- The number nearest to `n`. -/
def ofNat (n : Nat) : Binary64 := ofRatio false n 1

/-- The number nearest to `n`. -/
def ofInt (n : Int) : Binary64 := ofRatio (n < 0) n.natAbs 1

/-- The other sign. -/
def neg : Binary64 → Binary64
  | .nan => .nan
  | .infinity s => .infinity !s
  | .finite s u => .finite (!s) u

/-- The product, rounded once. -/
def mul : Binary64 → Binary64 → Binary64
  | .finite s u, .finite t v => ofUnits (s != t) (u * v) one
  | .infinity s, .infinity t => .infinity (s != t)
  | .infinity s, .finite t v => if v = 0 then .nan else .infinity (s != t)
  | .finite s u, .infinity t => if u = 0 then .nan else .infinity (s != t)
  | .nan, _ => .nan
  | _, .nan => .nan

/-- The quotient, rounded once. -/
def div : Binary64 → Binary64 → Binary64
  | .finite s u, .finite t v =>
    if v = 0 then (if u = 0 then .nan else .infinity (s != t)) else ofUnits (s != t) (u * one) v
  | .finite s _, .infinity t => .finite (s != t) 0
  | .infinity s, .finite t _ => .infinity (s != t)
  | .infinity _, .infinity _ => .nan
  | .nan, _ => .nan
  | _, .nan => .nan

/-- Neither an infinity nor not-a-number. -/
def isFinite : Binary64 → Bool
  | .finite _ _ => true
  | _ => false

/-- Plus or minus zero. -/
def isZero : Binary64 → Bool
  | .finite _ 0 => true
  | _ => false

/-- Equality of numbers: the two zeros are equal and not-a-number differs from itself. -/
def same : Binary64 → Binary64 → Bool
  | .finite s u, .finite t v => u = v && (u = 0 || s = t)
  | .infinity s, .infinity t => s = t
  | _, _ => false

/-- The greatest whole number up to which every whole number is a number of its own. -/
def maxSafe : Nat := Nat.pow 2 53 - 1

/-- The whole number that `x` is, when it is one of magnitude at most `maxSafe`. -/
def safeInt? : Binary64 → Option Int
  | .finite s u =>
    if u % one = 0 && u / one ≤ maxSafe then
      some (if s then -(u / one : Nat) else (u / one : Nat))
    else none
  | _ => none

end Binary64

end LiveMarkup
