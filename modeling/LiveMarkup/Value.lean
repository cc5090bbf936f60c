import LiveMarkup.Decimal.Layout
import LiveMarkup.Json
import LiveMarkup.Resolve.Error
import LiveMarkup.Template

/-!
# Values

What can stand in a placeholder: plain data, trusted markup, templates with values of their own,
lists, callbacks for the client, directives that look at the part they are bound to, and values
that are not there yet.
-/

namespace LiveMarkup

/-- A value for a placeholder. -/
inductive Value where
  | null
  /-- Takes the whole attribute away. -/
  | nothing
  | bool (b : Bool)
  | number (x : Binary64)
  | string (t : Text)
  /-- Trusted markup, which is not escaped. -/
  | raw (t : Text)
  | json (j : Json)
  /-- A template, or the error that came of its fragments, with its values. -/
  | template (t : Except TemplateError Template) (values : List Value)
  | list (items : List Value)
  /-- A callback for the client. -/
  | function
  /-- A function of the part it is bound to. -/
  | directive (apply : Part → Except ResolveError Value)
  /-- A value to wait for: which one it is, a label to note when it is waited for, and what comes
  of it. -/
  | pending (id : Nat) (label : Option Text) (outcome : Except Text Value)
  deriving Inhabited

namespace Value

/-- What sort of value it is, for messages. -/
def kind : Value → Text
  | .null => "null".toList
  | .nothing => "nothing".toList
  | .bool _ => "boolean".toList
  | .number _ => "number".toList
  | .string _ => "string".toList
  | .raw _ => "raw markup".toList
  | .json _ => "object".toList
  | .template _ _ => "template result".toList
  | .list _ => "list".toList
  | .function => "function".toList
  | .directive _ => "directive".toList
  | .pending _ _ _ => "pending value".toList

/-- A JSON value counts as true. -/
def jsonTruthy : Json → Bool
  | .null => false
  | .bool b => b
  | .int n => n ≠ 0
  | .float x => !x.isZero
  | .str s => !s.isEmpty
  | .arr _ | .obj _ => true

/-- The value counts as true: all do but null, nothing, false, zero, not-a-number and the empty
string. -/
def isTruthy : Value → Bool
  | .null | .nothing => false
  | .bool b => b
  | .number x => !x.isZero && x ≠ .nan
  | .string s => !s.isEmpty
  | .json j => jsonTruthy j
  | _ => true

/-- The text of a truth value, a number or a string. -/
def primitiveText? : Value → Option Text
  | .bool b => some (if b then "true".toList else "false".toList)
  | .number x => some x.text
  | .string s => some s
  | _ => none

/-! ## To and from JSON -/

mutual

/-- The value for a JSON value: arrays become lists. -/
def ofJson : Json → Value
  | .null => .null
  | .bool b => .bool b
  | .int n => .number (.ofInt n)
  | .float x => .number x
  | .str s => .string s
  | .arr items => .list (ofJsonAll items)
  | .obj fields => .json (.obj fields)

/-- The values for the items of an array. -/
def ofJsonAll : List Json → List Value
  | [] => []
  | j :: js => ofJson j :: ofJsonAll js

end

mutual

/-- The JSON form of a value that has one. -/
def toJson? : Value → Option Json
  | .null => some .null
  | .bool b => some (.bool b)
  | .number x => some (.ofBinary64 x)
  | .string s => some (.str s)
  | .raw s => some (.str s)
  | .json j => some j
  | .list items => (toJsonAll? items).map .arr
  | _ => none

/-- The JSON forms of the items of a list, if all have one. -/
def toJsonAll? : List Value → Option (List Json)
  | [] => some []
  | v :: vs =>
    match toJson? v, toJsonAll? vs with
    | some j, some js => some (j :: js)
    | _, _ => none

end

end Value

end LiveMarkup
