import LiveMarkup.Keyed
import LiveMarkup.Text.Lexer

/-!
# Attributes of a tag

The inside of a tag after its name is read in two steps: a lexer turns it into words, quoted
texts and equals signs, and the attribute list takes those greedily from left to right. A word
starts an attribute; an equals sign and one more word or quoted text after it give its value;
whatever fits nowhere is passed over.
-/

namespace LiveMarkup

/-- Attribute values under attribute names. -/
abbrev Attributes := Keyed Text

/-- A token of the inside of a tag. -/
inductive AttributeToken where
  | word (t : Text)
  | quoted (t : Text)
  | equals
  deriving DecidableEq, Repr, Inhabited

namespace AttributeToken

/-- A character of a word: no ASCII space, quote, equals sign, angle bracket or grave accent. -/
def isWordChar (c : Char) : Bool :=
  !(Text.isSpace c || c = '"' || c = '\'' || c = '=' || c = '<' || c = '>' || c = '\x60')

/-- One step at the character `c` with `t` after it. A quote that is not closed takes the rest of
the text with it and makes no token; neither do spaces and characters that fit nowhere. -/
def step (c : Char) (t : Text) : Reading AttributeToken :=
  if c = '=' then ⟨some .equals, [c], t⟩
  else if c = '"' || c = '\'' then
    match Text.cutAt? c t with
    | some (body, rest) => ⟨some (.quoted body), c :: (body ++ [c]), rest⟩
    | none => ⟨none, c :: t, []⟩
  else if isWordChar c then
    let word := c :: t.takeWhile isWordChar
    ⟨some (.word word), word, t.dropWhile isWordChar⟩
  else ⟨none, [c], t⟩

/-- The lexer of attribute tokens. -/
def lexer : Lexer AttributeToken where
  step := step
  taken_append_rest c t := by
    unfold step
    split
    · rfl
    split
    · split
      · next h => simp [Text.eq_append_of_cutAt? h]
      · simp
    split
    · simp
    · rfl
  taken_ne_nil c t := by
    unfold step
    split
    · simp
    split
    · split <;> simp
    split <;> simp

end AttributeToken

namespace Attributes

/-- The attributes that a row of tokens spells, one after the other. -/
def pairs : List AttributeToken → List (Text × Text)
  | .word name :: .equals :: .word value :: tokens => (name, value) :: pairs tokens
  | .word name :: .equals :: .quoted value :: tokens => (name, value) :: pairs tokens
  | .word name :: tokens => (name, []) :: pairs tokens
  | _ :: tokens => pairs tokens
  | [] => []

/-- The attributes spelled inside a tag. A name keeps its first place and takes its last value. -/
def read (t : Text) : Attributes := Keyed.ofList (pairs (AttributeToken.lexer.tokens t))

end Attributes

end LiveMarkup
