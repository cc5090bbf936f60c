import LiveMarkup.Template.Part

/-!
# Where a placeholder stands

The text before a placeholder tells whether it stands in text or inside an open tag: what counts
is the last angle bracket outside comments. Inside a tag the attribute that the text ends in tells
what the placeholder is bound to. What earlier fragments left open carries over, so the scan goes
through the fragments with a context.
-/

namespace LiveMarkup

/-! ## The last delimiter -/

/-- The last angle bracket outside comments of a stretch of markup. -/
inductive Delimiter where
  | none
  /-- A `<` with no `>` after it, and the tag name that follows it. -/
  | opened (tag : Text)
  /-- A `>` with no `<` after it, and the tag name behind the last `<` before it, if there is one
  in the same stretch. -/
  | closed (tag : Option Text)
  deriving DecidableEq, Repr, Inhabited

namespace Delimiter

/-- A character of a tag name. -/
def isTagNameChar (c : Char) : Bool := Text.isAlphanum c || c = '.' || c = '_' || c = '-'

/-- The tag name at the start of `t`. -/
def tagName (t : Text) : Text := t.takeWhile isTagNameChar

/-- Go through a stretch of markup that starts inside or outside a comment; `name` is the tag name
behind the last `<` so far and `last` the last delimiter so far. Tells whether the stretch ends in
a comment, and its last delimiter. The end of a comment counts as a `>`. -/
def scan (name : Option Text) (last : Delimiter) : (comment : Bool) → Text → Bool × Delimiter
  | comment, [] => (comment, last)
  | false, '<' :: '!' :: '-' :: '-' :: t => scan (some []) last true t
  | false, '<' :: t => scan (some (tagName t)) (.opened (tagName t)) false t
  | false, '>' :: t => scan name (.closed name) false t
  | true, '-' :: '-' :: '>' :: t => scan name (.closed name) false t
  | true, '<' :: t => scan (some (tagName t)) last true t
  | comment, _ :: t => scan name last comment t

end Delimiter

/-- What the fragments up to a place leave open. -/
structure ScanContext where
  inTag : Bool := false
  inComment : Bool := false
  /-- The tag that an open tag has, or the element that the last one opened. -/
  tag : Text := []
  deriving DecidableEq, Repr, Inhabited

namespace ScanContext

/-- The context behind one more stretch of markup. -/
def advance (cx : ScanContext) (t : Text) : ScanContext :=
  let (inComment, last) := Delimiter.scan none .none cx.inComment t
  match last with
  | .none => ⟨cx.inTag && !inComment, inComment, cx.tag⟩
  | .opened tag => ⟨!inComment, inComment, tag⟩
  | .closed tag => ⟨false, inComment, tag.getD cx.tag⟩

end ScanContext

/-! ## The attribute at the end -/

/-- The attribute that a stretch of markup ends in: what comes before it, the space in front of
it, its name as written, and the equals sign with what follows. -/
structure OpenAttribute where
  before : Text
  leading : Char
  name : Text
  suffix : Text
  deriving DecidableEq, Repr

namespace OpenAttribute

/-- A character of an attribute name. -/
def isNameChar (c : Char) : Bool :=
  !(c.toNat ≤ 0x1F || (0x7F ≤ c.toNat && c.toNat ≤ 0x9F) || c = ' ' || c = '"' || c = '\'' ||
    c = '>' || c = '=' || c = '/')

/-- A character of a value that is not quoted. -/
def isUnquotedChar (c : Char) : Bool :=
  !(Text.isSpace c || c = '"' || c = '\'' || c = '\x60' || c = '<' || c = '>' || c = '=')

/-- `t` can be the beginning of a value: a quote that is still open, or no quote at all. -/
def isOpenValue (t : Text) : Bool :=
  match t with
  | '"' :: t => !t.contains '"'
  | '\'' :: t => !t.contains '\''
  | t => t.all isUnquotedChar

/-- The equals sign of an attribute and the beginning of its value are all of `t`. -/
def isSuffix (t : Text) : Bool :=
  match t.dropWhile Text.isSpace with
  | '=' :: t => isOpenValue (t.dropWhile Text.isSpace)
  | _ => false

/-- The name and the suffix, if `t` is an attribute from its first character to its end. -/
def split? (t : Text) : Option (Text × Text) :=
  let name := t.takeWhile isNameChar
  let suffix := t.dropWhile isNameChar
  if !name.isEmpty && isSuffix suffix then some (name, suffix) else none

/-- The attribute that `t` ends in, from the leftmost space from which one reaches to the end. -/
def ofText? : Text → Option OpenAttribute
  | [] => none
  | c :: t =>
    let later := (ofText? t).map fun a => { a with before := c :: a.before }
    if Text.isSpace c then
      match split? t with
      | some (name, suffix) => some ⟨[], c, name, suffix⟩
      | none => later
    else later

/-- The quote that the value opens, and what of the value follows it. -/
def quote? (a : OpenAttribute) : Option (Char × Text) :=
  match a.suffix.dropWhile fun c => !(c = '"' || c = '\'') with
  | [] => none
  | q :: t => some (q, t)

end OpenAttribute

end LiveMarkup
