import LiveMarkup.Config
import LiveMarkup.Escape
import LiveMarkup.Json.Printer
import LiveMarkup.Value

/-!
# Resolving

A template with its values becomes text: each part is written from the values it takes, escaped
for its place, with the static texts in between. A value in text is written by recursion into
lists and templates; a value of an attribute gives the text between its quotes or takes the
attribute away.
-/

namespace LiveMarkup

/-! ## JSON in markup -/

namespace Json

mutual

/-- The value with its whole floating-point numbers made integers where they are safe. -/
def withIntegers : Json → Json
  | .float x => .ofBinary64 x
  | .arr items => .arr (withIntegersAll items)
  | .obj fields => .obj (withIntegersFields fields)
  | j => j

/-- The items with their whole numbers made integers. -/
def withIntegersAll : List Json → List Json
  | [] => []
  | j :: js => withIntegers j :: withIntegersAll js

/-- The members with their whole numbers made integers. -/
def withIntegersFields : List (Text × Json) → List (Text × Json)
  | [] => []
  | (key, j) :: fields => (key, withIntegers j) :: withIntegersFields fields

end

/-- The text of a JSON value for an attribute in double quotes: all its double quotes are single
ones. -/
def attributeText (j : Json) : Text := Text.replaceChar '"' ['\''] j.withIntegers.text

mutual

/-- The text of a JSON value in the text of an element: items of an array one after the other. -/
def nodeText (context : EscapeContext) : Json → Text
  | .arr items => nodeTextAll context items
  | .obj fields => Text.escape context (attributeText (.obj fields))
  | .null => []
  | .bool b => Text.escape context ((Value.primitiveText? (.bool b)).getD [])
  | .int n => Text.escape context ((Value.primitiveText? (.number (.ofInt n))).getD [])
  | .float x => Text.escape context ((Value.primitiveText? (.number x)).getD [])
  | .str s => Text.escape context s

/-- The texts of the items of an array. -/
def nodeTextAll (context : EscapeContext) : List Json → Text
  | [] => []
  | j :: js => nodeText context j ++ nodeTextAll context js

end

end Json

namespace Value

/-! ## Attributes -/

/-- What a directive makes of the part it is bound to; any other value stays itself. -/
def applied (part : Part) : Value → Except ResolveError Value
  | .directive apply => apply part
  | v => .ok v

/-- What one value adds to an attribute; nothing when it takes the attribute away. -/
def attributePiece (part : Part) (v : Value) : Except ResolveError (Option Text) :=
  match v with
  | .nothing | .function => .ok none
  | .null => .ok (some [])
  | .raw markup => .ok (some markup)
  | .json (.arr items) => .ok (some (Json.attributeText (.arr items)))
  | .json (.obj fields) => .ok (some (Json.attributeText (.obj fields)))
  | .json j => .ok (some (Text.escape .attribute (((ofJson j).primitiveText?).getD [])))
  | .list items =>
    match toJson? (.list items) with
    | some j => .ok (some (Json.attributeText j))
    | none => .error (.unknownPartValue v.kind part)
  | .template _ _ | .directive _ => .error (.unknownPartValue v.kind part)
  | .pending _ _ _ => .error .pendingValue
  | v => .ok (some (Text.escape .attribute ((v.primitiveText?).getD [])))

/-- The text between the quotes of an attribute: its literals with the values between them;
nothing when a value takes the attribute away. -/
def attributeValue (part : Part) : (literals : List Text) → List Value →
    Except ResolveError (Option Text)
  | [], _ => .ok (some [])
  | literal :: _, [] => .ok (some literal)
  | literal :: literals, v :: vs => do
    let v ← applied part v
    match ← attributePiece part v with
    | none => return none
    | some piece =>
      let rest ← attributeValue part literals vs
      return rest.map fun rest => literal ++ (piece ++ rest)

/-- An attribute with the space in front of it. -/
def attributeMarkup (b : Binding) (value : Text) : Text :=
  b.leading :: (b.kind.sigil ++ (b.name ++ '=' :: '"' :: (value ++ ['"'])))

/-- The markup of a binding to an attribute. -/
def bindingText (config : Config) (b : Binding) (values : List Value) :
    Except ResolveError Text :=
  let written : Except ResolveError Text := do
    let value ← attributeValue (.binding b) b.literals values
    return (value.map (attributeMarkup b)).getD []
  match b.kind with
  | .attribute => written
  | .property => if config.serializeProperties then written else .ok []
  | .event => .ok []
  | .boolean => do
    match ← applied (.binding b) (values.head?.getD .null) with
    | .pending _ _ _ => .error .pendingValue
    | v => return if v.isTruthy then b.leading :: b.name else []

/-! ## Templates -/

/-- A value, and how it is written in the text of an element. -/
structure Slot where
  value : Value
  node : Text → Except ResolveError Text

/-- The markup of a part. -/
def partText (config : Config) (part : Part) (slots : List Slot) : Except ResolveError Text :=
  match part with
  | .text tag => (slots.mapM fun (s : Slot) => s.node tag).map List.flatten
  | .binding b => bindingText config b (slots.map Slot.value)

/-- What a place of a row of texts writes. -/
def placeText (strings : List (Option Text)) (index : Nat) : Text :=
  (strings[index]?).join.getD []

/-- The markup of the parts from place `index` on, each with the text behind its place. A part takes
its values from its place on. -/
def partsText (config : Config) (strings : List (Option Text)) (slots : List Slot) :
    (index : Nat) → List (Option Part) → Except ResolveError Text
  | _, [] => .ok []
  | index, none :: parts => do
    let rest ← partsText config strings slots (index + 1) parts
    return placeText strings (index + 1) ++ rest
  | index, some part :: parts =>
    if slots.length < index + part.segments then
      .error (.valueCount (index + part.segments) slots.length)
    else do
      let text ← partText config part ((slots.drop index).take part.segments)
      let rest ← partsText config strings slots (index + 1) parts
      return text ++ (placeText strings (index + 1) ++ rest)

/-- The markup of a template with its values. -/
def templateText (config : Config) (template : Except TemplateError Template)
    (slots : List Slot) : Except ResolveError Text :=
  match template with
  | .error e => .error (.template e)
  | .ok t =>
    if slots.length ≠ t.slotCount then .error (.valueCount t.slotCount slots.length)
    else (partsText config t.strings slots 0 t.parts).map (placeText t.strings 0 ++ ·)

mutual

/-- The text of a value in the text of the element `tag`; `result` tells that it came from a
directive, which may not give a directive again. -/
def nodeText (config : Config) : Value → (result : Bool) → (tag : Text) →
    Except ResolveError Text
  | .null, _, _ | .nothing, _, _ | .function, _, _ => .ok []
  | .bool b, _, tag => .ok (Text.escape (.forTextIn tag) ((primitiveText? (.bool b)).getD []))
  | .number x, _, tag => .ok (Text.escape (.forTextIn tag) x.text)
  | .string t, _, tag => .ok (Text.escape (.forTextIn tag) t)
  | .raw markup, _, _ => .ok markup
  | .json j, _, tag => .ok (Json.nodeText (.forTextIn tag) j)
  | .template t values, _, _ => templateText config t (slotsOf config values)
  | .list items, _, tag => nodeTextAll config items tag
  | .directive apply, result, tag =>
    if result then .error (.unknownPartValue "directive".toList (.text tag))
    else resultText config (apply (.text tag)) tag
  | .pending _ _ _, _, _ => .error .pendingValue

/-- The text of what a directive gave. -/
def resultText (config : Config) : Except ResolveError Value → (tag : Text) →
    Except ResolveError Text
  | .error e, _ => .error e
  | .ok v, tag => nodeText config v true tag

/-- The texts of the items of a list in the text of the element `tag`. -/
def nodeTextAll (config : Config) : List Value → (tag : Text) → Except ResolveError Text
  | [], _ => .ok []
  | v :: vs, tag =>
    match nodeText config v false tag with
    | .error e => .error e
    | .ok text => (nodeTextAll config vs tag).map (text ++ ·)

/-- Values with the way they are written in text. -/
def slotsOf (config : Config) : List Value → List Slot
  | [] => []
  | v :: vs => ⟨v, fun tag => nodeText config v false tag⟩ :: slotsOf config vs

end

end Value

/-- A template, or the error that came of its fragments, with its values. -/
structure TemplateResult where
  template : Except TemplateError Template
  values : List Value

namespace TemplateResult

/-- The result of fragments and values. -/
def ofFragments (fragments : List Text) (values : List Value) : TemplateResult :=
  ⟨Template.ofFragments fragments, values⟩

/-- The markup of a template with its values. -/
def resolve (config : Config) (r : TemplateResult) : Except ResolveError Text :=
  Value.templateText config r.template (Value.slotsOf config r.values)

end TemplateResult

end LiveMarkup
