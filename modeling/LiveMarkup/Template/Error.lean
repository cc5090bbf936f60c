import LiveMarkup.Text

/-!
# Errors in templates

What can be wrong with the fragments of a template, where, and in which words it is reported.
-/

namespace LiveMarkup

/-- A place in a template: a stretch of one of its fragments. -/
structure Location where
  fragment : Nat
  span : Span
  deriving DecidableEq, Repr, Inhabited

/-- What is wrong with a template. -/
inductive TemplateFault where
  /-- The value of an attribute opens a quote that no later fragment closes. -/
  | unterminatedAttribute (name : Text)
  /-- The value of a boolean attribute merges several placeholders. -/
  | booleanAttributeExpressions (name : Text) (count : Nat)
  /-- A placeholder stands inside a tag but in no attribute. -/
  | unboundTagExpression (tag : Text)
  /-- A placeholder is opened and not closed. -/
  | unclosedPlaceholder
  deriving DecidableEq, Repr, Inhabited

/-- An error in a template: what is wrong and where. -/
structure TemplateError where
  fault : TemplateFault
  location : Location
  deriving DecidableEq, Repr, Inhabited

namespace TemplateFault

/-- The fault in words. -/
def message : TemplateFault → Text
  | .unterminatedAttribute name =>
    "attribute `".toList ++ (name ++ "` opens a quote that is never closed".toList)
  | .booleanAttributeExpressions name count =>
    "boolean attribute `?".toList ++ (name ++ ("` binds ".toList ++
      (Text.ofNat count ++ " expressions, expected exactly one".toList)))
  | .unboundTagExpression tag =>
    "expression inside <".toList ++ (tag ++ "> is not bound to an attribute".toList)
  | .unclosedPlaceholder => "placeholder `$\x7b` is never closed".toList

/-- What a report writes next to the place of the fault. -/
def label : TemplateFault → Text
  | .unterminatedAttribute _ => "quote opened here".toList
  | .booleanAttributeExpressions _ count =>
    Text.ofNat count ++ " expressions merged into one boolean attribute".toList
  | .unboundTagExpression _ => "expression follows this tag content".toList
  | .unclosedPlaceholder => "placeholder starts here".toList

end TemplateFault

namespace TemplateError

/-- The error in words. -/
def message (e : TemplateError) : Text := e.fault.message

end TemplateError

end LiveMarkup
