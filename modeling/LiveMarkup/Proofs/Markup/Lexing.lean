import LiveMarkup.Proofs.Markup.TagPattern

/-!
# Markup as a row of tokens

`Stands` says where each kind of token may stand in a text: the characters that it takes, and what
comes behind them. At the front of a text one token stands and no other (`stands_of_wholeStep`,
`Stands.unique`), so every text is a row of tokens in one way (`Tiles`). In it a `<` that begins a
tag without an end is a lone one. The lexer reads the same row up to the first such `<` and makes
no token from there on.
-/

namespace LiveMarkup.Token

/-! ## Where tokens stand -/

/-- The token takes `taken` off a text that goes on with `after`. -/
def Stands : Token → (taken after : Text) → Prop
  | .text content, taken, after =>
    taken = content ∧ content ≠ [] ∧ '<' ∉ content ∧ AtBracket after
  | .lone, taken, after =>
    taken = ['<'] ∧ ¬commentOpen <+: '<' :: after ∧ ¬TagAt ('<' :: after)
  | .tag source, taken, after =>
    taken = source ∧ tagPattern.Takes source after [] ∧
      ∃ inner, source = '<' :: (inner ++ ['>']) ∧ quoteAfter? none inner = some none
  -- The end of a body and a mark behind it hold no other mark.
  | .comment body, taken, after =>
    ¬TagAt (taken ++ after) ∧ ¬commentClose <:+: body ∧
      (taken = commentOpen ++ (body ++ commentClose) ∨ (taken = commentOpen ++ body ∧ after = []))

/-- A tag begins at the front of `t` and does not end. -/
def IsUnclosed (t : Text) : Prop :=
  ∃ inner, t = '<' :: inner ∧ ¬TagAt t ∧
    ∃ lead rest, inner = lead ++ rest ∧ tagLead.Takes lead rest []

/-- From `offset` on, `tokens` stand one behind the other in a text, each with its span, and `lost`
is left. -/
inductive Tiles : (offset : Nat) → Text → List (Token × Span) → (lost : Text) → Prop
  | done {offset : Nat} {lost : Text} : Tiles offset lost [] lost
  | token {offset : Nat} {token : Token} {taken rest lost : Text} {tokens : List (Token × Span)}
    (stands : token.Stands taken rest)
    (later : Tiles (offset + Text.bytes taken) rest tokens lost) :
    Tiles offset (taken ++ rest) ((token, ⟨offset, offset + Text.bytes taken⟩) :: tokens) lost

variable {offset : Nat} {token : Token} {c : Char} {t taken rest lost : Text}
  {tokens : List (Token × Span)}

theorem isUnclosed_iff :
    IsUnclosed t ↔
      ∃ inner, t = '<' :: inner ∧ startsTag inner = true ∧ tagEnd? none inner = none := by
  constructor
  · rintro ⟨inner, rfl, noTag, begins⟩
    have starts := startsTag_iff.mpr begins
    rw [tagAt_iff, not_and, not_not] at noTag
    exact ⟨inner, rfl, starts, noTag starts⟩
  · rintro ⟨inner, rfl, starts, noEnd⟩
    exact ⟨inner, rfl, fun tag => (tagAt_iff.mp tag).2 noEnd, startsTag_iff.mp starts⟩

/-! ## Steps -/

theorem not_tagAt_comment (inside : Text) : ¬TagAt (commentOpen ++ inside) := fun tag => by
  obtain ⟨starts, -⟩ := tagAt_iff.mp tag
  cases starts

theorem atBracket_dropWhile (t : Text) : AtBracket (t.dropWhile (· ≠ '<')) := fun c hc => by
  simpa using Text.stops_dropWhile (· ≠ '<') t c hc

/-- A token that the lexer makes stands where it makes it. -/
theorem stands_of_step (h : step c t = ⟨some token, taken, rest⟩) : token.Stands taken rest := by
  have steps := steps_step c t
  rw [h] at steps
  cases steps with
  | text hc =>
    refine ⟨rfl, List.cons_ne_nil _ _, ?_, atBracket_dropWhile t⟩
    rw [List.mem_cons, not_or]
    exact ⟨Ne.symm hc, fun hmem => by
      simpa using List.all_eq_true.mp List.all_takeWhile _ hmem⟩
  | comment hopen hcut =>
    refine ⟨?_, Text.not_infix_of_cut? (by simp [commentClose]) hcut, .inl rfl⟩
    rw [List.append_assoc]
    exact not_tagAt_comment _
  | commentToEnd hopen hcut =>
    rw [Text.eq_append_of_after? hopen]
    refine ⟨?_, Text.cut?_eq_none_iff.mp hcut, .inr ⟨rfl, rfl⟩⟩
    rw [List.append_assoc]
    exact not_tagAt_comment _
  | tag starts ends =>
    obtain ⟨body, rfl, closed⟩ := eq_append_of_tagEnd?_some ends
    exact ⟨rfl, takes_of_tagEnd? starts ends, body, rfl, closed⟩
  | lone nothing =>
    simp only [opensNothing, Bool.and_eq_true, Option.isNone_iff_eq_none, Bool.not_eq_true',
      Text.after?_eq_none_iff] at nothing
    refine ⟨rfl, nothing.1, fun tag => ?_⟩
    rw [(tagAt_iff.mp tag).1] at nothing
    cases nothing.2

/-- Where the lexer makes no token a tag begins that does not end, and it goes to the end. -/
theorem isUnclosed_of_step (h : step c t = ⟨none, taken, rest⟩) :
    IsUnclosed (c :: t) ∧ rest = [] := by
  have steps := steps_step c t
  rw [h] at steps
  cases steps with
  | lost starts noEnd => exact ⟨isUnclosed_iff.mpr ⟨t, rfl, starts, noEnd⟩, rfl⟩

/-! ## The lexer that loses nothing -/

/-- One step of the lexer, but with a lone `<` where it makes no token. -/
def wholeStep (c : Char) (t : Text) : Reading Token :=
  if (step c t).token.isNone then ⟨some .lone, [c], t⟩ else step c t

def wholeLexer : Lexer Token where
  step := wholeStep
  taken_append_rest c t := by
    unfold wholeStep
    split
    · rfl
    · exact lexer.taken_append_rest c t
  taken_ne_nil c t := by
    unfold wholeStep
    split
    · exact List.cons_ne_nil _ _
    · exact lexer.taken_ne_nil c t

theorem wholeStep_of_some (h : step c t = ⟨some token, taken, rest⟩) :
    wholeStep c t = ⟨some token, taken, rest⟩ := by
  simp [wholeStep, h]

theorem wholeStep_of_isUnclosed (h : IsUnclosed (c :: t)) :
    wholeStep c t = ⟨some .lone, ['<'], t⟩ := by
  obtain ⟨_, same, starts, noEnd⟩ := isUnclosed_iff.mp h
  obtain ⟨rfl, rfl⟩ := List.cons.inj same
  simp [wholeStep, eq_of_steps (.lost starts noEnd)]

theorem exists_wholeStep (c : Char) (t : Text) :
    ∃ token taken rest, wholeStep c t = ⟨some token, taken, rest⟩ := by
  rcases hstep : step c t with ⟨_ | token, taken, rest⟩
  · exact ⟨_, _, _, wholeStep_of_isUnclosed (isUnclosed_of_step hstep).1⟩
  · exact ⟨_, _, _, wholeStep_of_some hstep⟩

theorem stands_of_wholeStep (h : wholeStep c t = ⟨some token, taken, rest⟩) :
    token.Stands taken rest := by
  rcases hstep : step c t with ⟨_ | made, taken', rest'⟩
  · obtain ⟨unclosed, -⟩ := isUnclosed_of_step hstep
    rw [wholeStep_of_isUnclosed unclosed] at h
    cases h
    obtain ⟨_, same, starts, -⟩ := isUnclosed_iff.mp unclosed
    obtain ⟨rfl, rfl⟩ := List.cons.inj same
    refine ⟨rfl, ?_, ?_⟩
    · exact Text.after?_eq_none_iff.mp (after?_commentOpen_of_startsTag starts)
    · obtain ⟨_, -, noTag, -⟩ := unclosed
      exact noTag
  · rw [wholeStep_of_some hstep] at h
    cases h
    exact stands_of_step hstep

theorem wholeStep_of_stands (h : token.Stands taken rest) (whole : taken ++ rest = c :: t) :
    wholeStep c t = ⟨some token, taken, rest⟩ := by
  cases token with
  | text content =>
    obtain ⟨rfl, notEmpty, noBracket, atBracket⟩ := h
    obtain ⟨d, content, rfl⟩ := List.exists_cons_of_ne_nil notEmpty
    obtain ⟨rfl, rfl⟩ := List.cons.inj whole
    rw [List.mem_cons, not_or] at noBracket
    have inside : ∀ c ∈ content, decide (c ≠ '<') = true := fun c hc =>
      decide_eq_true fun same => noBracket.2 (same ▸ hc)
    have steps : Steps d (content ++ rest) _ := .text (Ne.symm noBracket.1)
    rw [Text.takeWhile_append_of_stops inside atBracket.stops,
      Text.dropWhile_append_of_stops inside atBracket.stops] at steps
    exact wholeStep_of_some (eq_of_steps steps)
  | lone =>
    obtain ⟨rfl, noComment, noTag⟩ := h
    obtain ⟨rfl, rfl⟩ := List.cons.inj whole
    rw [tagAt_iff, not_and, not_not] at noTag
    by_cases starts : startsTag rest = true
    · exact wholeStep_of_isUnclosed (isUnclosed_iff.mpr ⟨rest, rfl, starts, noTag starts⟩)
    · refine wholeStep_of_some (eq_of_steps (.lone ?_))
      simp [opensNothing, Text.after?_eq_none_iff.mpr noComment, starts]
  | tag source =>
    obtain ⟨rfl, takes, -⟩ := h
    obtain ⟨t', inner, whole', rfl, starts, ends⟩ := tagEnd?_of_takes takes
    obtain ⟨rfl, rfl⟩ := List.cons.inj (whole.symm.trans whole')
    exact wholeStep_of_some (eq_of_steps (.tag starts ends))
  | comment body =>
    obtain ⟨-, noClose, rfl | ⟨rfl, rfl⟩⟩ := h
    · have opens := Text.after?_append commentOpen (body ++ (commentClose ++ rest))
      rw [List.append_assoc, List.append_assoc] at whole
      obtain ⟨rfl, rfl⟩ := List.cons.inj whole
      exact wholeStep_of_some (eq_of_steps (.comment opens (cut?_commentClose noClose rest)))
    · have opens := Text.after?_append commentOpen body
      rw [List.append_nil] at whole
      obtain ⟨rfl, rfl⟩ := List.cons.inj whole
      exact wholeStep_of_some
        (eq_of_steps (.commentToEnd opens (Text.cut?_eq_none_iff.mpr noClose)))

theorem Stands.taken_ne_nil (h : token.Stands taken rest) : taken ≠ [] := by
  cases token with
  | text content => exact h.1 ▸ h.2.1
  | lone => exact h.1 ▸ List.cons_ne_nil _ _
  | tag source =>
    obtain ⟨rfl, -, inner, rfl, -⟩ := h
    exact List.cons_ne_nil _ _
  | comment body =>
    obtain ⟨-, -, rfl | ⟨rfl, -⟩⟩ := h <;> exact List.cons_ne_nil _ _

/-- At the front of a text no two tokens stand. -/
theorem Stands.unique {token' : Token} {taken' rest' : Text} (h : token.Stands taken rest)
    (again : token'.Stands taken' rest') (same : taken' ++ rest' = taken ++ rest) :
    token' = token ∧ taken' = taken ∧ rest' = rest := by
  obtain ⟨c, t, rfl⟩ := List.exists_cons_of_ne_nil h.taken_ne_nil
  have step := wholeStep_of_stands h rfl
  rw [wholeStep_of_stands again same] at step
  cases step
  exact ⟨rfl, rfl, rfl⟩

/-! ## Rows of tokens -/

theorem spansFrom_of_step (l : Lexer Token) (h : l.step c t = ⟨some token, taken, rest⟩) :
    Lexer.spansFrom offset (l.pieces (c :: t)) = (token, ⟨offset, offset + Text.bytes taken⟩) ::
      Lexer.spansFrom (offset + Text.bytes taken) (l.pieces rest) := by
  rw [Lexer.pieces_cons, h]
  rfl

/-- From a tag that does not end on there are no tokens. -/
theorem spansFrom_of_isUnclosed (h : IsUnclosed t) :
    Lexer.spansFrom offset (lexer.pieces t) = [] := by
  obtain ⟨inner, rfl, starts, noEnd⟩ := isUnclosed_iff.mp h
  have hstep : lexer.step '<' inner = _ := eq_of_steps (.lost starts noEnd)
  rw [Lexer.pieces_cons, hstep, Lexer.pieces_nil]
  rfl

theorem Tiles.of_step (l : Lexer Token) (h : l.step c t = ⟨some token, taken, rest⟩)
    (stands : token.Stands taken rest)
    (later : Tiles (offset + Text.bytes taken) rest
      (Lexer.spansFrom (offset + Text.bytes taken) (l.pieces rest)) lost) :
    Tiles offset (c :: t) (Lexer.spansFrom offset (l.pieces (c :: t))) lost := by
  have whole := l.taken_append_rest c t
  rw [h] at whole
  rw [spansFrom_of_step l h, ← whole]
  exact .token stands later

theorem Tiles.eq_of_nil (h : Tiles offset t [] lost) : t = lost := by
  cases h
  rfl

theorem Tiles.later {token' : Token} {span : Span}
    (h : Tiles offset (taken ++ rest) ((token', span) :: tokens) lost)
    (stands : token.Stands taken rest) : Tiles (offset + Text.bytes taken) rest tokens lost := by
  generalize same : taken ++ rest = t at h
  cases h with
  | token stands' later =>
    obtain ⟨-, rfl, rfl⟩ := stands.unique stands' same.symm
    exact later

theorem length_rest_le (l : Lexer Token) (h : l.step c t = ⟨some token, taken, rest⟩) :
    rest.length ≤ t.length := by
  have shorter := l.length_rest_le c t
  rwa [h] at shorter

/-- Every text is a row of tokens. -/
theorem tiles_whole (offset : Nat) (t : Text) :
    Tiles offset t (Lexer.spansFrom offset (wholeLexer.pieces t)) [] := by
  match t with
  | [] =>
    rw [Lexer.pieces_nil]
    exact .done
  | c :: t =>
    obtain ⟨token, taken, rest, hstep⟩ := exists_wholeStep c t
    have shorter : rest.length ≤ t.length := length_rest_le wholeLexer hstep
    exact .of_step _ hstep (stands_of_wholeStep hstep) (tiles_whole _ rest)
termination_by t.length
decreasing_by exact Nat.lt_succ_of_le shorter

/-- It is one in one way. -/
theorem Tiles.eq_whole (h : Tiles offset t tokens []) :
    tokens = Lexer.spansFrom offset (wholeLexer.pieces t) := by
  generalize hlost : ([] : Text) = lost at h
  induction h with
  | done =>
    subst hlost
    rw [Lexer.pieces_nil]
    rfl
  | @token offset token taken rest lost tokens stands later ih =>
    obtain ⟨c, t, rfl⟩ := List.exists_cons_of_ne_nil stands.taken_ne_nil
    rw [ih hlost]
    exact (spansFrom_of_step wholeLexer (wholeStep_of_stands stands rfl)).symm

/-- The lexer makes the same row up to a tag that does not end. -/
theorem exists_lost (offset : Nat) (t : Text) :
    ∃ lost, Tiles offset t (Lexer.spansFrom offset (lexer.pieces t)) lost ∧
      (lost = [] ∨ IsUnclosed lost) := by
  match t with
  | [] =>
    rw [Lexer.pieces_nil]
    exact ⟨[], .done, .inl rfl⟩
  | c :: t =>
    rcases hstep : lexer.step c t with ⟨_ | token, taken, rest⟩
    · obtain ⟨unclosed, -⟩ := isUnclosed_of_step hstep
      rw [spansFrom_of_isUnclosed unclosed]
      exact ⟨c :: t, .done, .inr unclosed⟩
    · have shorter : rest.length ≤ t.length := length_rest_le lexer hstep
      obtain ⟨lost, tiles, ends⟩ := exists_lost (offset + Text.bytes taken) rest
      exact ⟨lost, .of_step _ hstep (stands_of_step hstep) tiles, ends⟩
termination_by t.length
decreasing_by exact Nat.lt_succ_of_le shorter

/-- Where a tag is reached that does not end, the lexer does not come to the end. -/
theorem Tiles.not_tiles (h : Tiles offset t tokens rest) (unclosed : IsUnclosed rest) :
    ¬Tiles offset t (Lexer.spansFrom offset (lexer.pieces t)) [] := by
  have stuck {offset : Nat} {t : Text} (unclosed : IsUnclosed t) :
      ¬Tiles offset t (Lexer.spansFrom offset (lexer.pieces t)) [] := fun all => by
    obtain ⟨inner, isTag, -⟩ := id unclosed
    rw [spansFrom_of_isUnclosed unclosed] at all
    rw [all.eq_of_nil] at isTag
    cases isTag
  induction h with
  | done => exact stuck unclosed
  | @token offset token taken rest lost tokens stands later ih =>
    intro all
    obtain ⟨c, t, rfl⟩ := List.exists_cons_of_ne_nil stands.taken_ne_nil
    have whole := wholeStep_of_stands stands rfl
    -- A lone `<` stands in front of a tag that does not end.
    rcases hstep : lexer.step c (t ++ rest) with ⟨_ | token', taken', rest'⟩
    · exact stuck (isUnclosed_of_step hstep).1 all
    · cases (wholeStep_of_some hstep).symm.trans whole
      rw [List.cons_append, spansFrom_of_step lexer hstep, ← List.cons_append] at all
      exact ih unclosed (all.later stands)

/-- The lexer makes the whole row just when every tag that begins in it ends. -/
theorem tiles_spansFrom_iff : Tiles offset t (Lexer.spansFrom offset (lexer.pieces t)) [] ↔
    ¬∃ tokens rest, Tiles offset t tokens rest ∧ IsUnclosed rest := by
  constructor
  · rintro all ⟨tokens, rest, tiles, unclosed⟩
    exact tiles.not_tiles unclosed all
  · intro ends
    obtain ⟨lost, tiles, rfl | unclosed⟩ := exists_lost offset t
    · exact tiles
    · exact absurd ⟨_, _, tiles, unclosed⟩ ends

/-- Every text is a row of tokens in one way only, each of them where it may stand and as long as it
can be. The lexer makes this row up to the first `<` that begins a tag without an end, and all of it
just when there is none. -/
theorem tiles_spans (t : Text) :
    (∃! tokens, Tiles 0 t tokens []) ∧
      (∃ lost, Tiles 0 t (lexer.spans t) lost ∧ (lost = [] ∨ IsUnclosed lost)) ∧
      (Tiles 0 t (lexer.spans t) [] ↔
        ¬∃ tokens rest, Tiles 0 t tokens rest ∧ IsUnclosed rest) :=
  ⟨⟨_, tiles_whole 0 t, fun _ => Tiles.eq_whole⟩, exists_lost 0 t, tiles_spansFrom_iff⟩

/-- A `<` before a digit begins a tag, and where no `>` follows the lexer makes no token of it. -/
theorem not_tiles_spans : ¬∀ t, Tiles 0 t (lexer.spans t) [] := by
  intro all
  have first : Stands (.text "i ".toList) "i ".toList "<10".toList :=
    ⟨rfl, by decide, by decide, atBracket_cons.mpr rfl⟩
  have unclosed : IsUnclosed "<10".toList := isUnclosed_iff.mpr ⟨"10".toList, rfl, rfl, rfl⟩
  have row : Tiles 0 "i <10".toList [(.text "i ".toList, ⟨0, 2⟩)] "<10".toList :=
    .token first .done
  exact row.not_tiles unclosed (all "i <10".toList)

end LiveMarkup.Token
