import LiveMarkup.Template

/-!
# Template sources

A template may be written as one text with placeholders `${…}`. Braces inside a placeholder nest.
A placeholder that is never closed is reported when the template is asked for; until then the rest
of the text counts as static. `Source.text` gives back what was split.
-/

namespace LiveMarkup

/-- A text split at its placeholders: static text, then the inside of each placeholder with the
static text behind it. -/
structure Source where
  head : Text
  holes : List (Text × Text)
  deriving DecidableEq, Repr, Inhabited

namespace Source

/-! ## Splitting -/

/-- Cut behind the brace that closes a placeholder in which `depth` more braces are open. -/
def close? (depth : Nat) : Text → Option (Text × Text)
  | [] => none
  | '{' :: t => (close? (depth + 1) t).map fun p => ('{' :: p.1, p.2)
  | '}' :: t =>
    match depth with
    | 0 => some ([], t)
    | depth + 1 => (close? depth t).map fun p => ('}' :: p.1, p.2)
  | c :: t => (close? depth t).map fun p => (c :: p.1, p.2)

theorem eq_append_of_close? {depth : Nat} {t inside rest : Text}
    (h : close? depth t = some (inside, rest)) : t = inside ++ '}' :: rest := by
  fun_induction close? depth t generalizing inside with
  | case1 => contradiction
  | case2 depth t ih =>
    simp only [Option.map_eq_some_iff, Prod.mk.injEq] at h
    obtain ⟨⟨i, r⟩, hi, rfl, rfl⟩ := h
    simp [ih hi]
  | case3 t =>
    simp only [Option.some.injEq, Prod.mk.injEq] at h
    obtain ⟨rfl, rfl⟩ := h
    rfl
  | case4 t depth ih =>
    simp only [Option.map_eq_some_iff, Prod.mk.injEq] at h
    obtain ⟨⟨i, r⟩, hi, rfl, rfl⟩ := h
    simp [ih hi]
  | case5 depth c t _ _ ih =>
    simp only [Option.map_eq_some_iff, Prod.mk.injEq] at h
    obtain ⟨⟨i, r⟩, hi, rfl, rfl⟩ := h
    simp [ih hi]

/-- Put `c` in front. -/
def push (c : Char) (s : Source) : Source := { s with head := c :: s.head }

/-- Split a text at its placeholders. -/
def ofText (t : Text) : Source :=
  match t with
  | [] => ⟨[], []⟩
  | '$' :: '{' :: t =>
    match _h : close? 0 t with
    | none => ⟨'$' :: '{' :: t, []⟩
    | some (inside, rest) =>
      let s := ofText rest
      ⟨[], (inside, s.head) :: s.holes⟩
  | c :: t => (ofText t).push c
termination_by t.length
decreasing_by
  · have := congrArg List.length (eq_append_of_close? _h)
    simp only [List.length_append, List.length_cons] at this ⊢
    omega
  · simp

/-! ## Views -/

/-- The text that was split. -/
def text (s : Source) : Text :=
  s.head ++ s.holes.flatMap fun hole => '$' :: '{' :: (hole.1 ++ '}' :: hole.2)

/-- The static texts around the placeholders, one more than there are of them. -/
def fragments (s : Source) : List Text := s.head :: s.holes.map Prod.snd

/-- What the placeholders hold, without blanks at either end. -/
def expressions (s : Source) : List Text := s.holes.map fun hole => Text.trim hole.1

/-- The offsets at which fragments start, when the first of them starts at `start`. -/
def startsFrom (start : Nat) (head : Text) : List (Text × Text) → List Nat
  | [] => [start]
  | (inside, next) :: holes =>
    start :: startsFrom (start + Text.bytes head + Text.bytes inside + 3) next holes

/-- The offset at which each fragment starts. -/
def starts (s : Source) : List Nat := startsFrom 0 s.head s.holes

/-- The stretch of the text that a place in a fragment stands for, kept within the text. A fragment
that is not there counts as starting with the text. -/
def absoluteSpan (s : Source) (location : Location) : Span :=
  let base := (s.starts[location.fragment]?).getD 0
  let stop := min (base + location.span.stop) (Text.bytes s.text)
  ⟨min (base + location.span.start) stop, stop⟩

/-- The offset in the last fragment at which a placeholder is opened and not closed. -/
def unclosed? (s : Source) : Option Nat :=
  (Text.cut? ['$', '{'] (s.fragments.getLast?.getD [])).map fun p => Text.bytes p.1

/-- The template that the source is written for. -/
def template (s : Source) : Except TemplateError Template :=
  match s.unclosed? with
  | some offset =>
    .error ⟨.unclosedPlaceholder, s.holes.length, offset,
      Text.bytes (s.fragments.getLast?.getD [])⟩
  | none => Template.ofFragments s.fragments

end Source

end LiveMarkup
