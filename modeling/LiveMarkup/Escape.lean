import LiveMarkup.Text

/-!
# Escaping

Text that comes from a value is escaped for the place where it goes. In text and in attribute
values five characters become entities. The body of a script or style element is not decoded by
readers of markup, so there only what could end the body or begin a comment is broken up.
-/

namespace LiveMarkup

/-- Where a text goes. -/
inductive EscapeContext where
  /-- The text of an element. -/
  | text
  /-- An attribute value in double quotes. -/
  | attribute
  /-- The body of a script or style element. -/
  | rawText
  deriving DecidableEq, Repr, Inhabited

namespace EscapeContext

/-- The context of text in the element `tag`. -/
def forTextIn (tag : Text) : EscapeContext :=
  if Text.sameLetters tag "script".toList || Text.sameLetters tag "style".toList then .rawText
  else .text

end EscapeContext

namespace Text

/-- How a character stands in text and attribute values. -/
def entity (c : Char) : Text :=
  if c = '"' then "&quot;".toList
  else if c = '\'' then "&#x27;".toList
  else if c = '&' then "&amp;".toList
  else if c = '<' then "&lt;".toList
  else if c = '>' then "&gt;".toList
  else [c]

/-- The character has an entity. -/
def hasEntity (c : Char) : Bool := entity c ≠ [c]

/-- The characters of `t`, one after the other, as they stand in text and attribute values. -/
def withEntities (t : Text) : Text := t.flatMap entity

/-- `t` with entities for the five characters that have one; a text without such characters is
given back as it is. -/
def escapeEntities (t : Text) : Text := if t.any hasEntity then withEntities t else t

/-- `t` starts with the name of a raw text element, in any case. -/
def startsRawName (t : Text) : Bool :=
  startsLowered "script".toList t || startsLowered "style".toList t

/-- `t`, gone through from the start, with each close tag of a script or style element and each
start of a comment broken up. -/
def breakMarks : Text → Text
  | [] => []
  | '<' :: '/' :: t =>
    if startsRawName t then '<' :: '\\' :: '/' :: breakMarks t
    else '<' :: '/' :: breakMarks t
  | '<' :: '!' :: '-' :: '-' :: t => "\\x3C!--".toList ++ breakMarks t
  | c :: t => c :: breakMarks t

/-- `t` with each close tag of a script or style element and each start of a comment broken up; a
text without any close tag and any start of a comment is given back as it is. -/
def escapeRawText (t : Text) : Text :=
  if holds "</".toList t || holds "<!--".toList t then breakMarks t else t

/-- `t` escaped for a context. -/
def escape (context : EscapeContext) (t : Text) : Text :=
  match context with
  | .text | .attribute => escapeEntities t
  | .rawText => escapeRawText t

end Text

end LiveMarkup
