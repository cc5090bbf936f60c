import LiveMarkup.Template.Error
import LiveMarkup.Template.Scan

/-!
# Templates

A template is static text with typed parts between its pieces. It comes from fragments: each
boundary between two neighbours is a placeholder. Texts and parts are kept in two rows over the
placeholders. A part stands at the first placeholder that it takes; up to the text behind the last
one both rows are empty, and `Laid` says so of every template.
-/

namespace LiveMarkup

/-- Rows of texts and parts behind the text in front of all placeholders: each part is followed by
as many empty places as it takes more values than one, and the text behind them. -/
inductive Laid : List (Option Text) → List (Option Part) → Prop
  | nil : Laid [] []
  | part {strings : List (Option Text)} {parts : List (Option Part)} {p : Part} {skip : Nat}
    (takes : p.segments = skip + 1) (behind : Text) (rest : Laid strings parts) :
    Laid (List.replicate skip none ++ some behind :: strings)
      (some p :: (List.replicate skip none ++ parts))

/-- A part that takes one value has no empty places. -/
theorem Laid.single {strings : List (Option Text)} {parts : List (Option Part)} {p : Part}
    (takes : p.segments = 0 + 1) (behind : Text) (rest : Laid strings parts) :
    Laid (some behind :: strings) (some p :: parts) :=
  .part takes behind rest

/-- The static texts around the placeholders, and the part of each placeholder where one begins. -/
structure Template where
  strings : List (Option Text)
  parts : List (Option Part)
  laid : ∃ head behind, strings = some head :: behind ∧ Laid behind parts
  deriving DecidableEq, Repr

namespace Template

/-- Static text alone. -/
def static (text : Text) : Template := ⟨[some text], [], text, [], rfl, .nil⟩

/-- How many values the template takes. -/
def slotCount (t : Template) : Nat := t.parts.length

/-! ## From fragments -/

/-- What follows of a quoted value up to its closing quote `q`: how many fragments are skipped, the
pieces of the value, what follows the quote in its fragment, and the fragments behind it. -/
def quoted? (q : Char) : List Text → Option (Nat × List Text × Text × List Text)
  | [] => none
  | f :: fs =>
    match Text.cutAt? q f with
    | some (piece, after) => some (0, [piece], after, fs)
    | none => (quoted? q fs).map fun r => (r.1 + 1, f :: r.2.1, r.2.2)

theorem length_quoted? {q : Char} {fs pieces rest : List Text} {skip : Nat} {after : Text}
    (h : quoted? q fs = some (skip, pieces, after, rest)) :
    pieces.length = skip + 1 ∧ fs.length = pieces.length + rest.length := by
  induction fs generalizing skip pieces with
  | nil => cases h
  | cons f fs ih =>
    simp only [quoted?] at h
    split at h
    · cases h
      exact ⟨rfl, Nat.add_comm _ _⟩
    · obtain ⟨⟨s, p, a, r⟩, hp, same⟩ := Option.map_eq_some_iff.mp h
      cases same
      obtain ⟨skipped, taken⟩ := ih hp
      simp only [List.length_cons]
      omega

theorem pieces_pos {q : Char} {fs pieces rest : List Text} {skip : Nat} {after : Text}
    (h : quoted? q fs = some (skip, pieces, after, rest)) : 0 < pieces.length := by
  rw [(length_quoted? h).1]
  exact Nat.succ_pos skip

/-- The binding of the attribute `a` of `tag`, with `first` and then `literals` around its
values. -/
def bind (a : OpenAttribute) (tag first : Text) (literals : List Text) (h : 0 < literals.length) :
    Binding where
  kind := (BindingKind.ofName a.name).1
  name := (BindingKind.ofName a.name).2
  literals := first :: literals
  tag := tag
  leading := a.leading
  two_le_length := by simp only [List.length_cons]; omega

/-- The rows of texts and parts of the text `string`, which is (the rest of) the fragment before
placeholder `index`, and the fragments behind it. -/
def rowsFrom (cx : ScanContext) (index : Nat) (string : Text) (rest : List Text) :
    Except TemplateError (List (Option Text) × List (Option Part)) :=
  match rest with
  | [] => .ok ([some string], [])
  | next :: others =>
    let cx := cx.advance string
    if cx.inTag then
      let fail (fault : TemplateFault) (start : Nat) :
          Except TemplateError (List (Option Text) × List (Option Part)) :=
        .error ⟨fault, index, start, Text.bytes string⟩
      match OpenAttribute.ofText? string with
      | none => fail (.unboundTagExpression cx.tag) (Text.bytes string)
      | some a =>
        match a.quote? with
        | none => do
          let (strings, parts) ← rowsFrom cx (index + 1) next others
          return (some a.before :: strings,
            some (.binding (bind a cx.tag [] [[]] Nat.one_pos)) :: parts)
        | some (q, first) =>
          match hq : quoted? q (next :: others) with
          | none => fail (.unterminatedAttribute a.name) (Text.bytes a.before + 1)
          | some (skip, pieces, after, rest) =>
            let b := bind a cx.tag first pieces (pieces_pos hq)
            if b.kind = .boolean && 0 < skip then
              fail (.booleanAttributeExpressions b.name (skip + 1)) (Text.bytes a.before + 1)
            else do
              let (strings, parts) ← rowsFrom cx (index + skip + 1) after rest
              return (some a.before :: (List.replicate skip none ++ strings),
                some (.binding b) :: (List.replicate skip none ++ parts))
    else do
      let (strings, parts) ← rowsFrom cx (index + 1) next others
      return (some string :: strings, some (.text cx.tag) :: parts)
termination_by rest.length
decreasing_by
  · simp
  · have := length_quoted? hq
    simp only [List.length_cons] at this ⊢
    omega
  · simp

theorem exists_of_bind_eq_ok {ε α β : Type} {x : Except ε α} {f : α → Except ε β} {b : β}
    (h : x >>= f = .ok b) : ∃ a, x = .ok a ∧ f a = .ok b := by
  cases x with
  | error e => cases h
  | ok a => exact ⟨a, rfl, h⟩

/-- A scan lays its rows out: it skips as many placeholders as a part takes besides its first. -/
theorem laid_of_rowsFrom {cx : ScanContext} {index : Nat} {string : Text} {rest : List Text}
    {strings : List (Option Text)} {parts : List (Option Part)}
    (h : rowsFrom cx index string rest = .ok (strings, parts)) :
    ∃ head behind, strings = some head :: behind ∧ Laid behind parts := by
  fun_induction rowsFrom cx index string rest generalizing strings parts
  case case1 string =>
    cases h
    exact ⟨string, [], rfl, .nil⟩
  case case3 a found quote ih =>
    obtain ⟨rows, rest, h⟩ := exists_of_bind_eq_ok h
    obtain ⟨head, behind, same, laid⟩ := ih rest
    cases h
    exact ⟨a.before, _, rfl, same ▸ .single rfl head laid⟩
  case case6 a found q first quote skip pieces after rest tail b boolean ih =>
    obtain ⟨rows, rest, h⟩ := exists_of_bind_eq_ok h
    obtain ⟨head, behind, same, laid⟩ := ih rest
    cases h
    have takes : Part.segments (.binding b) = skip + 1 := (length_quoted? tail).1
    exact ⟨a.before, _, rfl, same ▸ .part takes head laid⟩
  case case7 cx out ih =>
    obtain ⟨rows, rest, h⟩ := exists_of_bind_eq_ok h
    obtain ⟨head, behind, same, laid⟩ := ih rest
    cases h
    exact ⟨_, _, rfl, same ▸ .single rfl head laid⟩
  all_goals cases h

/-- The template with the given fragments. -/
def ofFragments (fragments : List Text) : Except TemplateError Template :=
  match fragments with
  | [] => .ok (static [])
  | first :: rest =>
    match h : rowsFrom {} 0 first rest with
    | .error e => .error e
    | .ok (strings, parts) => .ok ⟨strings, parts, laid_of_rowsFrom h⟩

/-- The rows of the template are those that are scanned. -/
theorem rowsFrom_eq (first : Text) (rest : List Text) : rowsFrom {} 0 first rest =
    (ofFragments (first :: rest)).map fun t => (t.strings, t.parts) := by
  simp only [ofFragments]
  split
  · next failed => exact failed
  · next scanned => exact scanned

theorem ofFragments_eq_ok {fragments : List Text} {t : Template}
    (h : (ofFragments fragments).toOption = some t) : ofFragments fragments = .ok t := by
  cases heq : ofFragments fragments with
  | error e => rw [heq] at h; cases h
  | ok t' => rw [heq] at h; cases h; rfl

end Template

end LiveMarkup
