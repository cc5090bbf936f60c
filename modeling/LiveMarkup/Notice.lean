import LiveMarkup.Element.AttrType
import LiveMarkup.Resolve.Error

/-!
# Notices

Problems that do not stop a render: attributes that do not have their declared type, and passes of
live elements that fail.
-/

namespace LiveMarkup

/-- A problem to tell the developer about. -/
inductive Notice where
  /-- The value of an attribute is not as its type wants it. -/
  | attribute (problem : AttrProblem)
  /-- A pass of a live element failed. -/
  | renderFailed (element : Text) (error : ResolveError)
  deriving Repr

namespace Notice

/-- The notice in words. -/
def message : Notice → Text
  | .attribute problem => problem.message
  | .renderFailed element error =>
    ["<".toList, element, "> render failed: ".toList, error.message].flatten

end Notice

end LiveMarkup
