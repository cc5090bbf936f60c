import LiveMarkup.Decimal.Shortest

/-!
# Reading decimals

A decimal text names the binary number nearest to it. Accepted are an optional sign and then
either digits with an optional point among them and an optional exponent, or the words for
infinity and not-a-number in any case. JSON text has a reader of its own.
-/

namespace LiveMarkup

namespace Decimal

/-- The number nearest to `± significand * 10 ^ exponent`. Exponents so large or so small that
they decide alone are settled first, which keeps the arithmetic bounded. -/
def toBinary64 (negative : Bool) (significand : Nat) (exponent : Int) : Binary64 :=
  let length := (Text.ofNat significand).length
  if significand = 0 then .finite negative 0
  else if 400 < exponent + length then .infinity negative
  else if exponent + length < -400 then .finite negative 0
  else
    Binary64.ofRatio negative (significand * Nat.pow 10 exponent.toNat)
      (Nat.pow 10 (-exponent).toNat)

/-- Split a sign off. -/
def sign (t : Text) : Bool × Text :=
  match t with
  | '-' :: t => (true, t)
  | '+' :: t => (false, t)
  | t => (false, t)

/-- An exponent part that takes up all of `t`; an empty one is zero. -/
def exponentOf? (t : Text) : Option Int :=
  match t with
  | [] => some 0
  | e :: t =>
    if e = 'e' || e = 'E' then
      let (negative, digits) := sign t
      if !digits.isEmpty && digits.all Char.isDigit then
        some (if negative then -(Text.digitsValue digits) else Text.digitsValue digits)
      else none
    else none

/-- The decimal that an unsigned literal is: digits with an optional point among them, then an
optional exponent. -/
def ofLiteral? (t : Text) : Option Decimal :=
  let whole := t.takeWhile Char.isDigit
  let rest := t.dropWhile Char.isDigit
  let fraction :=
    match rest with
    | '.' :: rest => rest.takeWhile Char.isDigit
    | _ => []
  let rest :=
    match rest with
    | '.' :: rest => rest.dropWhile Char.isDigit
    | rest => rest
  if whole.isEmpty && fraction.isEmpty then none
  else (exponentOf? rest).map fun e => ⟨whole ++ fraction, whole.length + e⟩

/-- Read an unsigned literal as the number nearest to it. -/
def unsigned? (negative : Bool) (t : Text) : Option Binary64 :=
  (ofLiteral? t).map fun d =>
    toBinary64 negative (Text.digitsValue d.digits) (d.point - d.digits.length)

/-- Read the decimal that `t` is. -/
def read? (t : Text) : Option Binary64 :=
  let (negative, body) := sign t
  let word := Text.lower body
  if word = "inf".toList || word = "infinity".toList then some (.infinity negative)
  else if word = "nan".toList then some .nan
  else unsigned? negative body

end Decimal

end LiveMarkup
