import LiveMarkup.Decimal.Shortest

/-!
# Layouts of decimals

A layout says how far a decimal is written with its point in place and when an exponent takes
over. Two are in use: the one of number values in markup, where whole numbers carry no fraction,
and the one of JSON text, where they do.
-/

namespace LiveMarkup

/-- How a decimal is laid out. -/
structure Layout where
  /-- Places of the point at or below this one take an exponent. -/
  minPoint : Int
  /-- Places of the point above this one take an exponent. -/
  maxPoint : Int
  /-- What follows a whole number. -/
  whole : Text

namespace Layout

/-- Write `digits` with the point after `point` of them. -/
def place (l : Layout) (digits : Text) (point : Int) : Text :=
  if (digits.length : Int) ≤ point && point ≤ l.maxPoint then
    digits ++ (List.replicate (point - digits.length).toNat '0' ++ l.whole)
  else if 0 < point && point ≤ l.maxPoint then
    digits.take point.toNat ++ '.' :: digits.drop point.toNat
  else if l.minPoint < point && point ≤ 0 then
    '0' :: '.' :: (List.replicate (-point).toNat '0' ++ digits)
  else
    let exponent := point - 1
    let mantissa :=
      match digits with
      | [] => []
      | [d] => [d]
      | d :: rest => d :: '.' :: rest
    mantissa ++ 'e' :: (if exponent < 0 then '-' else '+') :: Text.ofNat exponent.natAbs

/-- The layout of number values: an exponent from `10 ^ 21` on and below `10 ^ -6`. -/
def number : Layout := ⟨-6, 21, []⟩

/-- The layout of JSON text: an exponent from `10 ^ 16` on and below `10 ^ -5`, and always a
fraction. -/
def json : Layout := ⟨-5, 16, ['.', '0']⟩

end Layout

namespace Binary64

/-- The text of a number value. A safe whole number is written as such. -/
def text (x : Binary64) : Text :=
  match x with
  | .nan => "NaN".toList
  | .infinity s => if s then "-Infinity".toList else "Infinity".toList
  | .finite s u =>
    match x.safeInt? with
    | some n => Text.ofInt n
    | none =>
      let d := Decimal.shortest .away u
      (if s then ['-'] else []) ++ Layout.number.place d.digits d.point

/-- The JSON text of a finite number. -/
def jsonText : Binary64 → Text
  | .finite s u =>
    let sign := if s then ['-'] else []
    if u = 0 then sign ++ "0.0".toList
    else
      let d := Decimal.shortest .toEven u
      sign ++ Layout.json.place d.digits d.point
  | _ => "null".toList

end Binary64

end LiveMarkup
