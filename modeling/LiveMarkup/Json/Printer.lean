import LiveMarkup.Decimal.Layout
import LiveMarkup.Json

/-!
# JSON text

The compact text of a value: no blanks, members in order, and in strings only what has to be
escaped.
-/

namespace LiveMarkup.Json

/-- A hexadecimal digit in lower case. -/
def hexDigit (n : Nat) : Char := Nat.digitChar n

/-- How a character stands in a string. -/
def escapeChar (c : Char) : Text :=
  if c = '"' then ['\\', '"']
  else if c = '\\' then ['\\', '\\']
  else if c = '\x08' then ['\\', 'b']
  else if c = '\x0C' then ['\\', 'f']
  else if c = '\n' then ['\\', 'n']
  else if c = '\r' then ['\\', 'r']
  else if c = '\t' then ['\\', 't']
  else if c.toNat < 0x20 then
    ['\\', 'u', '0', '0', hexDigit (c.toNat / 16), hexDigit (c.toNat % 16)]
  else [c]

/-- A string in its quotes. -/
def quoted (s : Text) : Text := '"' :: (s.flatMap escapeChar ++ ['"'])

mutual

/-- The compact text of a value. -/
def text : Json → Text
  | .null => "null".toList
  | .bool b => if b then "true".toList else "false".toList
  | .int n => Text.ofInt n
  | .float x => x.jsonText
  | .str s => quoted s
  | .arr items => '[' :: (itemsText items ++ [']'])
  | .obj fields => '{' :: (fieldsText fields ++ ['}'])

/-- Items with commas between them. -/
def itemsText : List Json → Text
  | [] => []
  | [j] => text j
  | j :: js => text j ++ ',' :: itemsText js

/-- Members with commas between them. -/
def fieldsText : List (Text × Json) → Text
  | [] => []
  | [(key, j)] => quoted key ++ ':' :: text j
  | (key, j) :: fields => quoted key ++ ':' :: (text j ++ ',' :: fieldsText fields)

end

end LiveMarkup.Json
