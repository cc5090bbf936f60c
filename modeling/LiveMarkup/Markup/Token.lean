import LiveMarkup.Text.Lexer

/-!
# Tokens of markup

Markup comes apart into tags, comments, text and lone `<` characters. A tag runs from its `<` to
the first `>` outside quotes; a comment from `<!--` to the first `-->` or to the end of the text;
text to the next `<`. A `<` that starts neither stands for itself. A tag that is never closed is
lost together with all that follows it.
-/

namespace LiveMarkup

/-- A token of markup. -/
inductive Token where
  /-- An open tag, a close tag or a declaration, from `<` to `>`. -/
  | tag (source : Text)
  /-- A comment, told by the text between its markers. -/
  | comment (body : Text)
  /-- A run of characters other than `<`. -/
  | text (content : Text)
  /-- A `<` that starts no tag. -/
  | lone
  deriving DecidableEq, Repr, Inhabited

namespace Token

/-- What follows a `<` makes it the start of a tag: a letter, a digit, a hyphen, a slash, or an
exclamation mark with one or two further characters that begin a declaration. -/
def startsTag : Text → Bool
  | '!' :: '-' :: c :: _ => !(c = '-' || c = '\'' || c = '"' || c = '>')
  | '!' :: c :: _ => !(c = '-' || c = '\'' || c = '"' || c = '>')
  | c :: _ => Text.isAlphanum c || c = '-' || c = '/'
  | [] => false

/-- Split behind the first `>` outside quotes; `quote` is the quote that is open at the start. -/
def tagEnd? (quote : Option Char) : Text → Option (Text × Text)
  | [] => none
  | c :: t =>
    match quote with
    | some q => (tagEnd? (if c = q then none else some q) t).map fun p => (c :: p.1, p.2)
    | none =>
      if c = '>' then some ([c], t)
      else
        let quote := if c = '"' || c = '\'' then some c else none
        (tagEnd? quote t).map fun p => (c :: p.1, p.2)

theorem eq_append_of_tagEnd? {quote : Option Char} {t inner rest : Text}
    (h : tagEnd? quote t = some (inner, rest)) : t = inner ++ rest := by
  induction t generalizing quote inner with
  | nil => simp [tagEnd?] at h
  | cons c t ih =>
    simp only [tagEnd?] at h
    split at h
    · simp only [Option.map_eq_some_iff, Prod.mk.injEq] at h
      obtain ⟨⟨i, r⟩, hi, rfl, rfl⟩ := h
      simp [ih hi]
    · split at h
      · simp only [Option.some.injEq, Prod.mk.injEq] at h
        obtain ⟨rfl, rfl⟩ := h
        rfl
      · simp only [Option.map_eq_some_iff, Prod.mk.injEq] at h
        obtain ⟨⟨i, r⟩, hi, rfl, rfl⟩ := h
        simp [ih hi]

/-- The marker that opens a comment. -/
def commentOpen : Text := ['<', '!', '-', '-']

/-- The marker that closes a comment. -/
def commentClose : Text := ['-', '-', '>']

/-- One step at the character `c` with `t` after it. -/
def step (c : Char) (t : Text) : Reading Token :=
  if c = '<' then
    match Text.after? commentOpen (c :: t) with
    | some inside =>
      match Text.cut? commentClose inside with
      | some (body, rest) => ⟨some (.comment body), commentOpen ++ (body ++ commentClose), rest⟩
      | none => ⟨some (.comment inside), c :: t, []⟩
    | none =>
      if startsTag t then
        match tagEnd? none t with
        | some (inner, rest) => ⟨some (.tag (c :: inner)), c :: inner, rest⟩
        | none => ⟨none, c :: t, []⟩
      else ⟨some .lone, [c], t⟩
  else
    let content := c :: t.takeWhile (· ≠ '<')
    ⟨some (.text content), content, t.dropWhile (· ≠ '<')⟩

/-- The lexer of markup. -/
def lexer : Lexer Token where
  step := step
  taken_append_rest c t := by
    unfold step
    split
    · split
      · next h =>
        rw [Text.eq_append_of_after? h]
        split
        · next h => simp [Text.eq_append_of_cut? h]
        · simp
      · split
        · split
          · next h => simp [eq_append_of_tagEnd? h]
          · simp
        · rfl
    · simp
  taken_ne_nil c t := by
    unfold step
    split
    · split
      · split <;> simp [commentOpen]
      · split
        · split <;> simp
        · simp
    · simp

end Token

end LiveMarkup
