/-!
# Settings

How templates are rendered and elements expanded.
-/

namespace LiveMarkup

/-- The settings of a renderer. -/
structure Config where
  /-- Report what is wrong with attributes. -/
  dev : Bool := true
  /-- Expand registered elements. -/
  hydrate : Bool := true
  /-- Write property bindings as attributes. -/
  serializeProperties : Bool := false
  /-- How many expanded elements may stand inside one another. -/
  maxDepth : Nat := 32
  deriving DecidableEq, Repr, Inhabited

end LiveMarkup
