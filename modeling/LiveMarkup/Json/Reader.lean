import LiveMarkup.Json

/-!
# Reading JSON

A reader for the whole of JSON with four limits of its own. Arrays and objects nest at most
`Json.maxDepth` deep; an escaped surrogate has to be one of a pair; a number too large for 64 bits
of floating point is refused; and the digits of a number that is not an integer are gathered only
as far as they fit 64 bits, the result being scaled by a power of ten afterwards, so that it may
differ from the nearest number in its last bit.
-/

namespace LiveMarkup.Json

/-- How deep arrays and objects may nest. -/
def maxDepth : Nat := 127

/-- Space, tab, line feed and carriage return, which may stand between tokens. -/
def isGap (c : Char) : Bool := c = ' ' || c = '\t' || c = '\n' || c = '\r'

/-- `t` from its first character that is no gap. -/
def skipGaps (t : Text) : Text := t.dropWhile isGap

/-! ## Strings -/

/-- The value of a hexadecimal digit. -/
def hexValue? (c : Char) : Option Nat :=
  if c.isDigit then some (c.toNat - '0'.toNat)
  else if 'a' ≤ c && c ≤ 'f' then some (c.toNat - 'a'.toNat + 10)
  else if 'A' ≤ c && c ≤ 'F' then some (c.toNat - 'A'.toNat + 10)
  else none

/-- The number that four hexadecimal digits denote. -/
def hex4? (a b c d : Char) : Option Nat := do
  let a ← hexValue? a
  let b ← hexValue? b
  let c ← hexValue? c
  let d ← hexValue? d
  return ((a * 16 + b) * 16 + c) * 16 + d

/-- The first half of a surrogate pair. -/
def isHighSurrogate (n : Nat) : Bool := 0xD800 ≤ n && n < 0xDC00

/-- The second half of a surrogate pair. -/
def isLowSurrogate (n : Nat) : Bool := 0xDC00 ≤ n && n < 0xE000

/-- What a backslash before `c` stands for. -/
def unescape? (c : Char) : Option Char :=
  if c = '"' || c = '\\' || c = '/' then some c
  else if c = 'b' then some '\x08'
  else if c = 'f' then some '\x0C'
  else if c = 'n' then some '\n'
  else if c = 'r' then some '\r'
  else if c = 't' then some '\t'
  else none

/-- The characters up to the closing quote, and what follows it. -/
def stringBody? : Text → Option (Text × Text)
  | [] => none
  | '"' :: rest => some ([], rest)
  | '\\' :: 'u' :: a :: b :: c :: d :: '\\' :: 'u' :: e :: f :: g :: h :: rest =>
    match hex4? a b c d with
    | none => none
    | some n =>
      if isHighSurrogate n then
        match hex4? e f g h with
        | none => none
        | some m =>
          if isLowSurrogate m then
            let code := 0x10000 + (n - 0xD800) * 0x400 + (m - 0xDC00)
            (stringBody? rest).map fun p => (Char.ofNat code :: p.1, p.2)
          else none
      else if isLowSurrogate n then none
      else
        (stringBody? ('\\' :: 'u' :: e :: f :: g :: h :: rest)).map fun p =>
          (Char.ofNat n :: p.1, p.2)
  | '\\' :: 'u' :: a :: b :: c :: d :: rest =>
    match hex4? a b c d with
    | none => none
    | some n =>
      if isHighSurrogate n || isLowSurrogate n then none
      else (stringBody? rest).map fun p => (Char.ofNat n :: p.1, p.2)
  | '\\' :: c :: rest =>
    match unescape? c with
    | none => none
    | some c => (stringBody? rest).map fun p => (c :: p.1, p.2)
  | c :: rest =>
    if c.toNat < 0x20 then none else (stringBody? rest).map fun p => (c :: p.1, p.2)

/-! ## Numbers -/

/-- Append decimal digits to `significand` as long as it stays below `2 ^ 64`; also tells how many
were appended. -/
def absorb (significand : Nat) : Text → Nat × Nat
  | [] => (significand, 0)
  | d :: ds =>
    let next := 10 * significand + Text.digitValue d
    if next < Nat.pow 2 64 then
      let (s, used) := absorb next ds
      (s, used + 1)
    else (significand, 0)

/-- The power of ten nearest to `10 ^ n`. -/
def powerOfTen (n : Nat) : Binary64 := .ofNat (Nat.pow 10 n)

/-- Multiply or divide by a power of ten, rounding once; below `10 ^ -308` the number is divided
by `10 ^ 308` first, at most `fuel` times. There is no result beyond the greatest number. -/
def scale? (x : Binary64) (exponent : Int) : (fuel : Nat) → Option Binary64
  | 0 => some (x.mul (.finite false 0))
  | fuel + 1 =>
    if exponent.natAbs ≤ 308 then
      if 0 ≤ exponent then
        let y := x.mul (powerOfTen exponent.natAbs)
        if y.isFinite then some y else none
      else some (x.div (powerOfTen exponent.natAbs))
    else if x.isZero then some x
    else if 0 ≤ exponent then none
    else scale? (x.div (powerOfTen 308)) (exponent + 308) fuel

/-- `± significand * 10 ^ exponent`, once each of the two is a floating-point number. -/
def scaled? (negative : Bool) (significand : Nat) (exponent : Int) : Option Binary64 :=
  (scale? (.ofNat significand) exponent 4).map fun x => if negative then x.neg else x

/-- The greatest exponent that is counted out. -/
def maxExponent : Nat := Nat.pow 2 31 - 1

/-- The number with the given parts, each a run of digits; `fraction` and `exponent` may be absent.
An integer that fits 64 bits stays one. -/
def ofParts? (negative : Bool) (whole : Text) (fraction : Option Text)
    (exponent : Option (Bool × Text)) : Option Json :=
  let (significand, used) := absorb 0 whole
  let dropped := whole.length - used
  if fraction.isNone && exponent.isNone && dropped = 0 then
    if !negative then some (.int significand)
    else if significand = 0 then some (.float (.finite true 0))
    else if significand ≤ Nat.pow 2 63 then some (.int (-(significand : Int)))
    else some (.float (Binary64.ofNat significand).neg)
  else
    let (significand, kept) := absorb significand (fraction.getD [])
    let start : Int := dropped - kept
    match exponent with
    | none => (scaled? negative significand start).map .float
    | some (down, digits) =>
      let e := Text.digitsValue digits
      if maxExponent < e then
        if significand ≠ 0 && !down then none else some (.float (.finite negative 0))
      else (scaled? negative significand (if down then start - e else start + e)).map .float

/-- The exponent at the head of `t`, if one begins there, with what follows it. The outer option
is empty when one begins but has no digits. -/
def exponent? (t : Text) : Option (Option (Bool × Text) × Text) :=
  match t with
  | [] => some (none, [])
  | e :: rest =>
    if e = 'e' || e = 'E' then
      let (down, rest) :=
        match rest with
        | '+' :: rest => (false, rest)
        | '-' :: rest => (true, rest)
        | rest => (false, rest)
      let digits := rest.takeWhile Char.isDigit
      if digits.isEmpty then none
      else some (some (down, digits), rest.dropWhile Char.isDigit)
    else some (none, e :: rest)

/-- The fraction at the head of `t`, if a point stands there, with what follows it. The outer
option is empty when no digit follows the point. -/
def fraction? (t : Text) : Option (Option Text × Text) :=
  match t with
  | '.' :: rest =>
    let digits := rest.takeWhile Char.isDigit
    if digits.isEmpty then none else some (some digits, rest.dropWhile Char.isDigit)
  | t => some (none, t)

/-- The number at the head of `t`, and what follows it. -/
def number (t : Text) : Option (Json × Text) := do
  let (negative, t) :=
    match t with
    | '-' :: t => (true, t)
    | t => (false, t)
  let whole := t.takeWhile Char.isDigit
  guard (!whole.isEmpty && (whole.length = 1 || whole.head? ≠ some '0'))
  let (fraction, t) ← fraction? (t.dropWhile Char.isDigit)
  let (exponent, t) ← exponent? t
  let j ← ofParts? negative whole fraction exponent
  return (j, t)

/-! ## Values -/

mutual

/-- The value at the head of `t`, and what follows it; `depth` more levels may open. -/
def value? : (fuel depth : Nat) → Text → Option (Json × Text)
  | 0, _, _ => none
  | fuel + 1, depth, t =>
    match skipGaps t with
    | [] => none
    | '"' :: t => (stringBody? t).map fun p => (.str p.1, p.2)
    | '[' :: t =>
      match depth, skipGaps t with
      | 0, _ => none
      | _ + 1, ']' :: t => some (.arr [], t)
      | depth + 1, t => (items? fuel depth t).map fun p => (.arr p.1, p.2)
    | '{' :: t =>
      match depth, skipGaps t with
      | 0, _ => none
      | _ + 1, '}' :: t => some (.obj [], t)
      | depth + 1, t => (members? fuel depth t).map fun p => (.obj (Keyed.ofList p.1), p.2)
    | 'n' :: t => (Text.after? "ull".toList t).map fun t => (.null, t)
    | 't' :: t => (Text.after? "rue".toList t).map fun t => (.bool true, t)
    | 'f' :: t => (Text.after? "alse".toList t).map fun t => (.bool false, t)
    | t => number t

/-- One or more items up to the closing bracket, and what follows it. -/
def items? : (fuel depth : Nat) → Text → Option (List Json × Text)
  | 0, _, _ => none
  | fuel + 1, depth, t =>
    match value? fuel depth t with
    | none => none
    | some (j, t) =>
      match skipGaps t with
      | ',' :: t => (items? fuel depth t).map fun p => (j :: p.1, p.2)
      | ']' :: t => some ([j], t)
      | _ => none

/-- One or more members up to the closing brace, and what follows it. -/
def members? : (fuel depth : Nat) → Text → Option (List (Text × Json) × Text)
  | 0, _, _ => none
  | fuel + 1, depth, t =>
    match skipGaps t with
    | '"' :: t =>
      match stringBody? t with
      | none => none
      | some (key, t) =>
        match skipGaps t with
        | ':' :: t =>
          match value? fuel depth t with
          | none => none
          | some (j, t) =>
            match skipGaps t with
            | ',' :: t => (members? fuel depth t).map fun p => ((key, j) :: p.1, p.2)
            | '}' :: t => some ([(key, j)], t)
            | _ => none
        | _ => none
    | _ => none

end

/-- The value that the whole of `t` is the text of. Every call takes a character from the text or
is followed by one that does, so twice its length is enough fuel. -/
def read? (t : Text) : Option Json :=
  match value? (2 * t.length + 2) maxDepth t with
  | some (j, rest) => if (skipGaps rest).isEmpty then some j else none
  | none => none

end LiveMarkup.Json
