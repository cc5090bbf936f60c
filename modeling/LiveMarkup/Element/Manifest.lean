import LiveMarkup.Element
import LiveMarkup.Template.Source
import LiveMarkup.Toml.Reader
import LiveMarkup.Toml.Record

/-!
# Element manifests

Elements may be declared in a TOML document: each table under `elements` gives the template of one
element, the kinds of its attributes and which of them are required. A placeholder names an
attribute and may go on with a path into its value, step by step after full stops.
-/

namespace LiveMarkup

/-- What is wrong with a manifest. -/
inductive ManifestError where
  /-- It is not TOML, or its tables do not have the right shape. -/
  | malformed
  /-- An attribute has a kind that there is not. -/
  | unknownType (element attr kind : Text)
  /-- The template of an element does not stand. -/
  | template (element : Text) (e : TemplateError)
  deriving Repr

namespace ManifestError

/-- The error in words; for a malformed manifest they come from the reader of the file. -/
def message : ManifestError → Text
  | .malformed => []
  | .unknownType element attr kind =>
    ["<".toList, element, "> attribute '".toList, attr, "' has unknown type '".toList, kind,
      "'".toList].flatten
  | .template element e => ["<".toList, element, "> template: ".toList, e.message].flatten

end ManifestError

namespace Json

/-- The number of an array item that a step of a path names: digits, with a plus sign or without,
for a number below `2 ^ 64`. -/
def index? (step : Text) : Option Nat :=
  let digits := match step with
    | '+' :: digits => digits
    | digits => digits
  if !digits.isEmpty && digits.all Char.isDigit && Text.digitsValue digits < Nat.pow 2 64 then
    some (Text.digitsValue digits)
  else none

/-- Go one step of a path. A number leads to an item of an array, any other step to a member of an
object; where there is none the step leads to null. -/
def step (j : Json) (step : Text) : Json :=
  match index? step with
  | some i => (j.item? i).getD .null
  | none => (j.member? step).getD .null

/-- Go along a path. -/
def follow (j : Json) (path : List Text) : Json := path.foldl step j

end Json

namespace Manifest

/-- The value of a placeholder for an element with these attributes. -/
def lookup (attrs : Keyed Json) (path : List Text) : Value :=
  match path with
  | [] => .null
  | attr :: path => .ofJson (Json.follow ((Keyed.get? attrs attr).getD .null) path)

/-- What a manifest says of one element. -/
structure Entry where
  name : Text
  template : Text
  /-- The attributes with the names of their kinds. -/
  attrs : Keyed Text
  required : List Text

/-- The names of what an entry gives. -/
def fieldNames : List Text := ["template", "attrs", "required"].map String.toList

/-- The entry that a value gives. -/
def entry? (name : Text) (v : Toml) : Option Entry := do
  match ← Toml.record? fieldNames v with
  | [some template, attrs, required] =>
    let template ← Toml.text? template
    let attrs ← Toml.optional Toml.texts? attrs
    let required ← Toml.optional (fun v => (Toml.items? v).bind (·.mapM Toml.text?)) required
    return ⟨name, template, attrs.getD [], required.getD []⟩
  | _ => none

/-- Pairs sorted by their keys. -/
def sorted {α : Type} (m : Keyed α) : Keyed α := m.mergeSort fun a b => Text.le a.1 b.1

/-- The entries of a document, sorted by name. -/
def entries? (t : Text) : Option (List Entry) := do
  match Keyed.get? (← Toml.read? t) "elements".toList with
  | none => return []
  | some v => (sorted (← Toml.fields? v)).mapM fun p => entry? p.1 p.2

/-- The types of the attributes of an entry, in the order of their names. -/
def attrTypes (entry : Entry) : Keyed Text → Except ManifestError (List (Text × AttrType))
  | [] => .ok []
  | (attr, kind) :: rest =>
    match AttrKind.ofName? kind with
    | none => .error (.unknownType entry.name attr kind)
    | some kind => do
      let rest ← attrTypes entry rest
      return (attr, BasicType.attrType ⟨kind, entry.required.contains attr⟩) :: rest

/-- The element of an entry. -/
def define {H : Type} (entry : Entry) : Except ManifestError (Element H) :=
  let source := Source.ofText entry.template
  match source.template with
  | .error e => .error (.template entry.name e)
  | .ok template => do
    let types ← attrTypes entry (sorted entry.attrs)
    let paths := source.expressions.map (Text.splitAt '.')
    let render : Render H := .hook .view fun (view : View) =>
      .finish ⟨.ok template, paths.map (lookup view.attrs)⟩
    return { Element.named entry.name render with attrTypes := types }

/-- The elements that a manifest declares, in the order of their names. -/
def read {H : Type} (t : Text) : Except ManifestError (List (Element H)) :=
  match entries? t with
  | none => .error .malformed
  | some entries => entries.mapM define

end Manifest

end LiveMarkup
