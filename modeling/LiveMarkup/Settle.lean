import LiveMarkup.Resolve

/-!
# Settling

Pending values are waited for one after the other, in the order in which they stand in the
source: through lists and templates, and on into what comes of a pending value. Each can be waited
for once. The first failure ends it all. Directives keep what they hold to themselves.
-/

namespace LiveMarkup

/-- What settling has done so far. -/
structure Settling where
  /-- The pending values that have been waited for. -/
  taken : List Nat := []
  /-- The labels noted on the way, in order. -/
  polled : List Text := []
  deriving Repr, Inhabited

namespace Value

mutual

/-- Wait for all that is pending in a value. -/
def settle : Value → Settling → Except ResolveError Value × Settling
  | .pending id label outcome, s =>
    if s.taken.contains id then (.error .pendingConsumed, s)
    else
      let s : Settling := ⟨id :: s.taken, s.polled ++ label.toList⟩
      match outcome with
      | .error message => (.error (.pendingFailed message), s)
      | .ok v => settle v s
  | .template t values, s =>
    match settleAll values s with
    | (.ok values, s) => (.ok (.template t values), s)
    | (.error e, s) => (.error e, s)
  | .list items, s =>
    match settleAll items s with
    | (.ok items, s) => (.ok (.list items), s)
    | (.error e, s) => (.error e, s)
  | v, s => (.ok v, s)

/-- Wait for all that is pending in some values, from left to right. -/
def settleAll : List Value → Settling → Except ResolveError (List Value) × Settling
  | [], s => (.ok [], s)
  | v :: vs, s =>
    match settle v s with
    | (.error e, s) => (.error e, s)
    | (.ok v, s) =>
      match settleAll vs s with
      | (.ok vs, s) => (.ok (v :: vs), s)
      | (.error e, s) => (.error e, s)

end

end Value

namespace TemplateResult

/-- Wait for all that is pending in the values of a template. -/
def settle (r : TemplateResult) (s : Settling) : Except ResolveError TemplateResult × Settling :=
  match Value.settleAll r.values s with
  | (.ok values, s) => (.ok ⟨r.template, values⟩, s)
  | (.error e, s) => (.error e, s)

end TemplateResult

end LiveMarkup
