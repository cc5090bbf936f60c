import LiveMarkup.Text

/-!
# Lexers

A lexer takes a text apart step by step. Each step takes at least one character off the front and
may or may not make a token of what it took. `flatten_pieces` says that the pieces taken are the
whole text, so that the span of each token follows from the lengths of the pieces before it.
-/

namespace LiveMarkup

/-- One step of a lexer: the text it took, the token it made of it, and what is left. -/
structure Reading (α : Type) where
  token : Option α
  taken : Text
  rest : Text

/-- A step function that takes characters off the front and loses none. -/
structure Lexer (α : Type) where
  step : Char → Text → Reading α
  taken_append_rest : ∀ c t, (step c t).taken ++ (step c t).rest = c :: t
  taken_ne_nil : ∀ c t, (step c t).taken ≠ []

namespace Lexer

variable {α : Type}

theorem length_rest_le (l : Lexer α) (c : Char) (t : Text) :
    (l.step c t).rest.length ≤ t.length := by
  have h := congrArg List.length (l.taken_append_rest c t)
  have := List.length_pos_iff.mpr (l.taken_ne_nil c t)
  simp only [List.length_append, List.length_cons] at h
  omega

/-- The pieces into which a text comes apart, each with the token made of it. -/
def pieces (l : Lexer α) (t : Text) : List (Option α × Text) :=
  match t with
  | [] => []
  | c :: t =>
    let r := l.step c t
    (r.token, r.taken) :: l.pieces r.rest
termination_by t.length
decreasing_by
  have := l.length_rest_le c t
  simp only [List.length_cons]
  omega

/-- The tokens of a text. -/
def tokens (l : Lexer α) (t : Text) : List α := (l.pieces t).filterMap Prod.fst

/-- The tokens among `pieces` with their spans, when the first piece starts at `offset`. -/
def spansFrom (offset : Nat) : List (Option α × Text) → List (α × Span)
  | [] => []
  | (token, taken) :: pieces =>
    let stop := offset + Text.bytes taken
    match token with
    | some token => (token, ⟨offset, stop⟩) :: spansFrom stop pieces
    | none => spansFrom stop pieces

/-- The tokens of a text with their spans. -/
def spans (l : Lexer α) (t : Text) : List (α × Span) := spansFrom 0 (l.pieces t)

theorem pieces_nil (l : Lexer α) : l.pieces [] = [] := by
  rw [pieces]

theorem pieces_cons (l : Lexer α) (c : Char) (t : Text) :
    l.pieces (c :: t) =
      ((l.step c t).token, (l.step c t).taken) :: l.pieces (l.step c t).rest := by
  rw [pieces]

@[simp] theorem tokens_nil (l : Lexer α) : l.tokens [] = [] := by
  simp [tokens, pieces_nil]

theorem tokens_cons (l : Lexer α) (c : Char) (t : Text) :
    l.tokens (c :: t) = (l.step c t).token.toList ++ l.tokens (l.step c t).rest := by
  rw [tokens, pieces_cons, List.filterMap_cons]
  cases (l.step c t).token <;> rfl

/-- The pieces are the whole text. -/
theorem flatten_pieces (l : Lexer α) (t : Text) : ((l.pieces t).map Prod.snd).flatten = t := by
  match t with
  | [] => simp [pieces_nil]
  | c :: t =>
    have := l.length_rest_le c t
    rw [pieces_cons, List.map_cons, List.flatten_cons, flatten_pieces l (l.step c t).rest]
    exact l.taken_append_rest c t
termination_by t.length

end Lexer

end LiveMarkup
