import LiveMarkup.Value

/-!
# Directives

The directives that come with the library. Each refuses the parts that it is not made for.
-/

namespace LiveMarkup.Value

/-- Markup that is written as it is; only for text. -/
def unsafeHtml (markup : Text) : Value :=
  .directive fun part =>
    match part with
    | .text _ => .ok (.raw markup)
    | part => .error (.incompatiblePart "unsafe_html".toList part)

/-- The names that are switched on, with spaces between them; only as the one placeholder of a
`class` attribute. -/
def classMap (classes : List (Text × Bool)) : Value :=
  let names := (classes.filter Prod.snd).map Prod.fst
  .directive fun part =>
    match part with
    | .binding b =>
      if b.kind = .attribute && b.name = "class".toList && part.segments = 1 then
        .ok (.string (Text.join [' '] names))
      else .error (.incompatiblePart "class_map".toList part)
    | part => .error (.incompatiblePart "class_map".toList part)

/-- The value itself, or nothing in place of null; not for text. -/
def ifDefined (value : Value) : Value :=
  .directive fun part =>
    match part with
    | .text _ => .error (.incompatiblePart "if_defined".toList part)
    | .binding _ =>
      match value with
      | .null => .ok .nothing
      | value => .ok value

end LiveMarkup.Value
