import LiveMarkup.Text.Unprintable
import LiveMarkup.Text

/-!
# Quoted text

A text in double quotes on one line: quotes, backslashes and what cannot be seen are escaped, all
else stands as it is.
-/

namespace LiveMarkup.Text

/-- The lower-case hexadecimal digits of `n`. -/
def hex (n : Nat) : Text := Nat.toDigits 16 n

/-- How a character stands in a quoted text. -/
def quoteChar (c : Char) : Text :=
  if c = '"' then ['\\', '"']
  else if c = '\\' then ['\\', '\\']
  else if c = '\n' then ['\\', 'n']
  else if c = '\r' then ['\\', 'r']
  else if c = '\t' then ['\\', 't']
  else if c = '\x00' then ['\\', '0']
  else if isUnprintable c then '\\' :: 'u' :: '{' :: (hex c.toNat ++ ['}'])
  else [c]

/-- The text in its quotes. -/
def quoted (t : Text) : Text := '"' :: (t.flatMap quoteChar ++ ['"'])

end LiveMarkup.Text
