import LiveMarkup.Template.Error
import LiveMarkup.Template.Part

/-!
# Errors of resolving

What can keep a template with its values from becoming text.
-/

namespace LiveMarkup

/-- Why a template cannot be resolved. -/
inductive ResolveError where
  /-- The fragments make no template. -/
  | template (e : TemplateError)
  /-- A value of this kind cannot be written where the part stands. -/
  | unknownPartValue (kind : Text) (part : Part)
  /-- A directive does not work where the part stands. -/
  | incompatiblePart (directive : Text) (part : Part)
  /-- There are too few or too many values. -/
  | valueCount (expected found : Nat)
  /-- A value is still pending. -/
  | pendingValue
  /-- A pending value came to a failure. -/
  | pendingFailed (message : Text)
  /-- A pending value has been waited for before. -/
  | pendingConsumed
  deriving DecidableEq, Repr

namespace ResolveError

/-- The error in words. -/
def message : ResolveError → Text
  | .template e => e.message
  | .unknownPartValue kind part =>
    ["unknown part value: ".toList, kind, " cannot be rendered as ".toList, part.describe].flatten
  | .incompatiblePart directive part =>
    [directive, " cannot be used on ".toList, part.describe].flatten
  | .valueCount expected found =>
    ["template expects ".toList, Text.ofNat expected, " values, got ".toList,
      Text.ofNat found].flatten
  | .pendingValue => "pending value must be settled before synchronous rendering".toList
  | .pendingFailed message => "pending value failed: ".toList ++ message
  | .pendingConsumed => "pending value was already consumed".toList

end ResolveError

end LiveMarkup
