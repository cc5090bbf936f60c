import LiveMarkup.Decimal.Reader
import LiveMarkup.Toml

/-!
# TOML scalars

Numbers, truth values, dates and times. Each is recognised from the whole run of characters that
can belong to one, so what is not a scalar from its first to its last character is none.
-/

namespace LiveMarkup.Toml

/-- Decimal digits with single underscores between them. -/
def isDigits : Text → Bool
  | [] => false
  | [c] => c.isDigit
  | c :: '_' :: t => c.isDigit && isDigits t
  | c :: t => c.isDigit && isDigits t

/-- Digits without a zero in front. -/
def isWhole (t : Text) : Bool := isDigits t && (t.length = 1 || t.head? ≠ some '0')

/-- The text without its underscores. -/
def plain (t : Text) : Text := t.filter (· ≠ '_')

/-- The value of a digit in the given base. -/
def digitIn? (base : Nat) (c : Char) : Option Nat :=
  let value? :=
    if c.isDigit then some (c.toNat - '0'.toNat)
    else if 'a' ≤ c && c ≤ 'f' then some (c.toNat - 'a'.toNat + 10)
    else if 'A' ≤ c && c ≤ 'F' then some (c.toNat - 'A'.toNat + 10)
    else none
  value?.filter (· < base)

/-- The number that digits in the given base denote; single underscores may stand between them. -/
def digitsIn? (base : Nat) (value : Nat) : Text → Option Nat
  | [] => none
  | [c] => (digitIn? base c).map (base * value + ·)
  | c :: '_' :: t => (digitIn? base c).bind fun d => digitsIn? base (base * value + d) t
  | c :: t => (digitIn? base c).bind fun d => digitsIn? base (base * value + d) t

/-- The integers that fit 64 bits with a sign. -/
def ofInt? (n : Int) : Option Toml :=
  if -(Nat.pow 2 63 : Int) ≤ n && n < (Nat.pow 2 63 : Int) then some (.integer n) else none

/-- The integer that `t` is. -/
def integer? (t : Text) : Option Toml :=
  match t with
  | '0' :: 'x' :: t => (digitsIn? 16 0 t).bind fun n => ofInt? n
  | '0' :: 'o' :: t => (digitsIn? 8 0 t).bind fun n => ofInt? n
  | '0' :: 'b' :: t => (digitsIn? 2 0 t).bind fun n => ofInt? n
  | t =>
    let (negative, digits) := Decimal.sign t
    if isWhole digits then
      let n := Text.digitsValue (plain digits)
      ofInt? (if negative then -(n : Int) else n)
    else none

/-- `t` is an exponent from its mark on. -/
def isExponent (t : Text) : Bool :=
  match t with
  | [] => false
  | e :: t => (e = 'e' || e = 'E') && isDigits (Decimal.sign t).2

/-- The floating-point number that `t` is: whole digits with a fraction or an exponent or both.
One that is too large is refused. -/
def float? (t : Text) : Option Toml :=
  let (_, body) := Decimal.sign t
  if body = "inf".toList || body = "nan".toList then (Decimal.read? t).map .float
  else
    let inDigits (c : Char) : Bool := c.isDigit || c = '_'
    let tail := body.dropWhile inDigits
    let form :=
      match tail with
      | '.' :: tail =>
        let rest := tail.dropWhile inDigits
        isDigits (tail.takeWhile inDigits) && (rest.isEmpty || isExponent rest)
      | tail => isExponent tail
    if isWhole (body.takeWhile inDigits) && form then
      (Decimal.read? (plain t)).bind fun x =>
        if x = .infinity false then none else some (.float x)
    else none

/-- The scalar that `t` is, strings apart. -/
def scalar? (t : Text) : Option Toml :=
  if t = "true".toList then some (.boolean true)
  else if t = "false".toList then some (.boolean false)
  else
    match Moment.ofText? t with
    | some m => some (.moment m)
    | none => (float? t).or (integer? t)

end LiveMarkup.Toml
