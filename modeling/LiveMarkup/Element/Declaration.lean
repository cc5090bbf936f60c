import LiveMarkup.Element.AttrType
import LiveMarkup.Markup.Attributes

/-!
# Declarations of elements

What an element says about itself apart from how it renders: its name, the types of its
attributes, its state and the fields computed from it. The attributes of a tag are read by the
declaration; attributes that are not declared stay texts.
-/

namespace LiveMarkup

/-- A field computed from state fields at the start of every render. -/
structure ComputedField where
  name : Text
  deps : List Text
  compute : List Json → Json

/-- What an element declares. -/
structure Declaration where
  /-- The name of the tag, in lower case. -/
  name : Text
  attrTypes : List (Text × AttrType) := []
  /-- The state fields with their initial values. -/
  stateFields : List (Text × Json) := []
  computedFields : List ComputedField := []

namespace Declaration

/-- The declared name and the type of an attribute; case does not matter. -/
def attrType? (d : Declaration) (name : Text) : Option (Text × AttrType) :=
  d.attrTypes.find? fun a => Text.sameLetters a.1 name

/-- What notices call an attribute. -/
def context (d : Declaration) (attr : Text) : Text := '<' :: (d.name ++ ('>' :: ' ' :: attr))

/-- Read one attribute: the name to keep it under, its value, and what is wrong with it. -/
def coerceAttr (d : Declaration) (name : Text) (raw : Option Text) :
    Text × Json × List AttrProblem :=
  match d.attrType? name with
  | some (declared, ty) =>
    let value := ty.parse raw
    (declared, value, ty.validate (d.context declared) value)
  | none => (name, (raw.map Json.str).getD .null, [])

/-- Read the attributes of a tag one after the other, on top of those in `attrs`. -/
def coerceEach (d : Declaration) (attrs : Keyed Json) :
    List (Text × Text) → Keyed Json × List AttrProblem
  | [] => (attrs, [])
  | (name, raw) :: rest =>
    let (key, value, problems) := d.coerceAttr name (some raw)
    let (attrs, later) := coerceEach d (Keyed.insert attrs key value) rest
    (attrs, problems ++ later)

/-- Give declared attributes that are missing from `attrs` the value of an absent attribute. -/
def fillEach (d : Declaration) (attrs : Keyed Json) :
    List (Text × AttrType) → Keyed Json × List AttrProblem
  | [] => (attrs, [])
  | (declared, ty) :: rest =>
    if Keyed.has attrs declared then fillEach d attrs rest
    else
      let value := ty.parse none
      let (filled, later) := fillEach d (Keyed.insert attrs declared value) rest
      (filled, ty.validate (d.context declared) value ++ later)

/-- Give all declared attributes that are missing a value. -/
def fillMissing (d : Declaration) (attrs : Keyed Json) : Keyed Json × List AttrProblem :=
  fillEach d attrs d.attrTypes

/-- Read all attributes of a tag, and then give those that it lacks a value. -/
def coerceAttrs (d : Declaration) (raw : Attributes) : Keyed Json × List AttrProblem :=
  let (attrs, problems) := d.coerceEach [] raw
  let (attrs, missing) := d.fillMissing attrs
  (attrs, problems ++ missing)

/-- The state before anything has happened. -/
def initialState (d : Declaration) : Keyed Json := Keyed.ofList d.stateFields

/-- The computed fields for a state; a state field that is not there counts as null. -/
def computed (d : Declaration) (state : Keyed Json) : Keyed Json :=
  Keyed.ofList (d.computedFields.map fun field =>
    (field.name, field.compute (field.deps.map fun dep => (Keyed.get? state dep).getD .null)))

end Declaration

end LiveMarkup
