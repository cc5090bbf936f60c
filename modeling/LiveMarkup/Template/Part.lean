import LiveMarkup.Text

/-!
# Parts of a template

A part is a typed placeholder. It stands in text, or in the value of an attribute: then the first
character of the attribute's name says what kind of binding it is, and a quoted value may merge
several placeholders into one part.
-/

namespace LiveMarkup

/-- The kinds of bindings to an attribute. -/
inductive BindingKind where
  /-- A plain attribute. -/
  | attribute
  /-- An attribute that is present or absent, written with a question mark. -/
  | boolean
  /-- A property, written with a full stop. -/
  | property
  /-- An event handler, written with an at sign. -/
  | event
  deriving DecidableEq, Repr, Inhabited

namespace BindingKind

/-- What a name of this kind starts with. -/
def sigil : BindingKind → Text
  | .attribute => []
  | .boolean => ['?']
  | .property => ['.']
  | .event => ['@']

/-- The kind that a name as written tells, and the name without its sigil. -/
def ofName : Text → BindingKind × Text
  | '.' :: name => (.property, name)
  | '@' :: name => (.event, name)
  | '?' :: name => (.boolean, name)
  | name => (.attribute, name)

theorem sigil_append_ofName (name : Text) : (ofName name).1.sigil ++ (ofName name).2 = name := by
  unfold ofName
  split <;> rfl

end BindingKind

/-- A binding to an attribute. -/
structure Binding where
  kind : BindingKind
  /-- The name without its sigil. -/
  name : Text
  /-- The literal texts around the placeholders of the value: one more than there are of them. -/
  literals : List Text
  /-- The tag that the attribute belongs to. -/
  tag : Text
  /-- The space in front of the attribute. -/
  leading : Char
  two_le_length : 2 ≤ literals.length := by simp
  deriving DecidableEq, Repr

/-- A typed placeholder. -/
inductive Part where
  /-- A placeholder in the text of the element `tag`, empty when that is not known. -/
  | text (tag : Text)
  /-- One or more placeholders in the value of an attribute. -/
  | binding (b : Binding)
  deriving DecidableEq, Repr

namespace Part

/-- How many values the part takes. -/
def segments : Part → Nat
  | .text _ => 1
  | .binding b => b.literals.length - 1

theorem segments_pos (p : Part) : 0 < p.segments := by
  cases p with
  | text tag => simp [segments]
  | binding b => have := b.two_le_length; simp only [segments]; omega

/-- The tag that the part belongs to. -/
def tag : Part → Text
  | .text tag => tag
  | .binding b => b.tag

/-- The part in words, for messages. -/
def describe : Part → Text
  | .text [] => "text".toList
  | .text tag => "text in <".toList ++ (tag ++ ['>'])
  | .binding b =>
    "attribute `".toList ++ (b.kind.sigil ++ (b.name ++ ("` on <".toList ++ (b.tag ++ ('>' ::
      if 1 < segments (.binding b) then
        " (".toList ++ (Text.ofNat (segments (.binding b)) ++ " expressions)".toList)
      else [])))))

end Part

end LiveMarkup
