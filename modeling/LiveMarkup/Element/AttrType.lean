import LiveMarkup.Decimal.Reader
import LiveMarkup.Json.Reader
import LiveMarkup.Json.Printer

/-!
# Attribute types

A declared attribute has a type, which says how its text is read and what is wrong with the value.
An element may bring types of its own; those that come with the library (`BasicType`) go by the kind
of the values, and keep and report a value of another kind.
-/

namespace LiveMarkup

/-- What an attribute holds. -/
inductive AttrKind where
  | string
  | number
  | boolean
  | object
  | array
  deriving DecidableEq, Repr, Inhabited

namespace AttrKind

/-- The name of a kind. -/
def name : AttrKind → Text
  | .string => "string".toList
  | .number => "number".toList
  | .boolean => "boolean".toList
  | .object => "object".toList
  | .array => "array".toList

/-- The kind of a given name. -/
def ofName? (t : Text) : Option AttrKind :=
  [AttrKind.string, .number, .boolean, .object, .array].find? fun k => k.name = t

theorem ofName?_name (k : AttrKind) : ofName? k.name = some k := by
  cases k <;> decide

end AttrKind

/-- A problem with the value of an attribute. -/
inductive AttrProblem where
  /-- A required attribute is missing. -/
  | required (context : Text)
  /-- An attribute has another type than declared. -/
  | wrongType (context expected actual : Text)
  /-- An attribute declared as an object is none. -/
  | notObject (context actual : Text)
  /-- An attribute declared as an array is none. -/
  | notArray (value : Json)
  /-- What a type that does not come with the library says. -/
  | other (message : Text)
  deriving Repr

/-- The problem in words. -/
def AttrProblem.message : AttrProblem → Text
  | .required context => ["'".toList, context, "' Field is required".toList].flatten
  | .wrongType context expected actual =>
    ["'".toList, context, "' Expected type '".toList, expected, "' got type '".toList, actual,
      "'".toList].flatten
  | .notObject context actual =>
    ["'".toList, context, "' Expected object literal '\x7b\x7d' got '".toList, actual,
      "'".toList].flatten
  | .notArray value => "Expected Array got ".toList ++ value.text
  | .other message => message

/-- The type of an attribute: how its text is read and what is wrong with a value. -/
structure AttrType where
  name : Text
  /-- The value of the text of an attribute, or of an attribute that is not there. -/
  parse : (raw : Option Text) → Json
  /-- The problems of a value; `context` names the attribute. -/
  validate : (context : Text) → (value : Json) → List AttrProblem

/-- A type by the kind of its values. -/
structure BasicType where
  kind : AttrKind
  /-- Report it when it is missing. -/
  required : Bool := false
  deriving DecidableEq, Repr, Inhabited

namespace BasicType

/-- Read the text of an object or an array, with single quotes in place of double ones. What is no
JSON stays a text. -/
def readJson (raw : Text) : Json :=
  (Json.read? (Text.replaceChar '\'' ['"'] raw)).getD (.str raw)

/-- Read the text of an attribute; an attribute that is not there is null. -/
def parse (ty : BasicType) (raw : Option Text) : Json :=
  match raw with
  | none => .null
  | some raw =>
    match ty.kind with
    | .string => .str raw
    | .number =>
      match Decimal.read? (Text.trim raw) with
      | some x => if x.isFinite then .ofBinary64 x else .str raw
      | none => .str raw
    | .boolean => .bool (raw ≠ "false".toList)
    | .object | .array => if (Text.trim raw).isEmpty then .null else readJson raw

/-- The type of a JSON value, in the terms of scripts on the client. -/
def typeOf : Json → Text
  | .bool _ => "boolean".toList
  | .int _ | .float _ => "number".toList
  | .str _ => "string".toList
  | .null | .arr _ | .obj _ => "object".toList

/-- What is wrong with the value of an attribute; `context` names the attribute. -/
def validate (ty : BasicType) (context : Text) (value : Json) : List AttrProblem :=
  match value with
  | .null => if ty.required then [.required context] else []
  | value =>
    match ty.kind, value with
    | .object, .obj _ => []
    | .object, value => [.notObject context (typeOf value)]
    | .array, .arr _ => []
    | .array, value => [.notArray value]
    | kind, value =>
      if typeOf value = kind.name then [] else [.wrongType context kind.name (typeOf value)]

/-- The type that goes by the kind. -/
def attrType (ty : BasicType) : AttrType := ⟨ty.kind.name, ty.parse, ty.validate⟩

end BasicType

end LiveMarkup
