import LiveMarkup.Markup.Tree
import LiveMarkup.Proofs.Markup.Quotes
import LiveMarkup.Proofs.Text.Spans

/-!
# Steps of the markup lexer

`Token.Steps` lists the six things that one step of the lexer can do, each with its condition;
`steps_step` and `eq_of_steps` say that these are all of them and that they exclude one another.
From it follow the equations by which the tokens of a document are read off its text.
-/

namespace LiveMarkup

namespace Token

/-- A `<` before `t` starts neither a comment nor a tag. -/
def opensNothing (t : Text) : Bool :=
  (Text.after? commentOpen ('<' :: t)).isNone && !startsTag t

/-- One step at the character `c` with `t` after it. -/
inductive Steps : Char → Text → Reading Token → Prop
  | text {c : Char} {t : Text} : c ≠ '<' →
    Steps c t ⟨some (.text (c :: t.takeWhile (· ≠ '<'))), c :: t.takeWhile (· ≠ '<'),
      t.dropWhile (· ≠ '<')⟩
  | comment {t inside body rest : Text} : Text.after? commentOpen ('<' :: t) = some inside →
    Text.cut? commentClose inside = some (body, rest) →
    Steps '<' t ⟨some (.comment body), commentOpen ++ (body ++ commentClose), rest⟩
  | commentToEnd {t inside : Text} : Text.after? commentOpen ('<' :: t) = some inside →
    Text.cut? commentClose inside = none → Steps '<' t ⟨some (.comment inside), '<' :: t, []⟩
  | tag {t inner rest : Text} : startsTag t = true → tagEnd? none t = some (inner, rest) →
    Steps '<' t ⟨some (.tag ('<' :: inner)), '<' :: inner, rest⟩
  | lost {t : Text} : startsTag t = true → tagEnd? none t = none →
    Steps '<' t ⟨none, '<' :: t, []⟩
  | lone {t : Text} : opensNothing t = true → Steps '<' t ⟨some .lone, ['<'], t⟩

/-- What starts a tag starts no comment. -/
theorem after?_commentOpen_of_startsTag {t : Text} (h : startsTag t = true) :
    Text.after? commentOpen ('<' :: t) = none := by
  cases hopen : Text.after? commentOpen ('<' :: t) with
  | none => rfl
  | some inside =>
    have ht : t = '!' :: '-' :: '-' :: inside :=
      (List.cons.inj (Text.eq_append_of_after? hopen)).2
    rw [ht] at h
    exact absurd h (by simp [startsTag])

theorem steps_step (c : Char) (t : Text) : Steps c t (step c t) := by
  unfold step
  split
  · next hc =>
    subst hc
    split
    · next hopen =>
      split
      · next hcut => exact .comment hopen hcut
      · next hcut => exact .commentToEnd hopen hcut
    · next hopen =>
      split
      · next hstart =>
        split
        · next hend => exact .tag hstart hend
        · next hend => exact .lost hstart hend
      · next hstart => exact .lone (by simp [opensNothing, hopen, hstart])
  · next hc => exact .text hc

theorem eq_of_steps {c : Char} {t : Text} {r : Reading Token} (h : Steps c t r) : step c t = r := by
  cases h with
  | text hc => simp only [step, hc, if_false]
  | comment hopen hcut => simp only [step, if_true, hopen, hcut]
  | commentToEnd hopen hcut => simp only [step, if_true, hopen, hcut]
  | tag hstart hend =>
    simp only [step, if_true, after?_commentOpen_of_startsTag hstart, hstart, hend]
  | lost hstart hend =>
    simp only [step, if_true, after?_commentOpen_of_startsTag hstart, hstart, hend]
  | lone h =>
    simp only [opensNothing, Bool.and_eq_true, Option.isNone_iff_eq_none, Bool.not_eq_true'] at h
    simp only [step, if_true, h.1, h.2, Bool.false_eq_true, if_false]

/-- A comment ends at the mark behind a body that does not hold it: no two characters at the end
of the body begin the mark. -/
theorem cut?_commentClose {body : Text} (h : ¬commentClose <:+: body) (rest : Text) :
    Text.cut? commentClose (body ++ (commentClose ++ rest)) = some (body, rest) := by
  induction body with
  | nil => simp [Text.cut?, Text.after?, commentClose]
  | cons c body ih =>
    rw [List.infix_cons_iff, not_or] at h
    have hafter : Text.after? commentClose (c :: (body ++ (commentClose ++ rest))) = none := by
      rw [Text.after?_eq_none_iff]
      intro hpre
      rcases body with _ | ⟨d, _ | ⟨e, body⟩⟩
      · simp [commentClose] at hpre
      · simp [commentClose] at hpre
      · refine h.1 ?_
        simpa only [commentClose, List.cons_append, List.cons_prefix_cons, List.nil_prefix]
          using hpre
    rw [List.cons_append, Text.cut?, hafter, ih h.2]
    rfl

/-! ## Where a text ends -/

/-- The text is at its end or goes on with a `<`. -/
def AtBracket (t : Text) : Prop := ∀ c ∈ t.head?, c = '<'

theorem atBracket_nil : AtBracket [] := by
  simp [AtBracket]

theorem atBracket_cons {c : Char} {t : Text} : AtBracket (c :: t) ↔ c = '<' := by
  simp [AtBracket]

/-- What stops before a `<` goes on over no other character. -/
theorem AtBracket.stops {t : Text} (h : AtBracket t) : Text.Stops (· ≠ '<') t := by
  intro c hc
  simp [h c hc]

/-- Whether a `<` opens something does not depend on what stands behind the next one. -/
theorem opensNothing_append {rest : Text} (h : AtBracket rest) (t : Text) :
    opensNothing (t ++ rest) = opensNothing (t ++ rest.take 1) := by
  cases rest with
  | nil => rfl
  | cons c rest =>
    obtain rfl := atBracket_cons.mp h
    match t with
    | [] => simp [opensNothing, startsTag, Text.after?, commentOpen]
    | [a] =>
      by_cases ha : a = '!' <;> simp [opensNothing, startsTag, Text.after?, commentOpen, ha]
    | [a, b] =>
      by_cases ha : a = '!' <;> by_cases hb : b = '-' <;>
        simp [opensNothing, startsTag, Text.after?, commentOpen, ha, hb]
    | a :: b :: c :: t =>
      by_cases ha : a = '!' <;> by_cases hb : b = '-' <;> by_cases hc : c = '-' <;>
        simp [opensNothing, startsTag, Text.after?, commentOpen, ha, hb, hc, eq_comm (b := a),
          eq_comm (b := b), eq_comm (b := c)]

/-- What starts a tag does so whatever follows. -/
theorem startsTag_append {t : Text} (h : startsTag t = true) (s : Text) :
    startsTag (t ++ s) = true := by
  match t with
  | [] => simp [startsTag] at h
  | [a] =>
    by_cases ha : a = '!'
    · subst ha
      simp [startsTag, Text.isAlphanum] at h
    · simp_all [startsTag]
  | [a, b] =>
    by_cases ha : a = '!' <;> by_cases hb : b = '-' <;> simp_all [startsTag]
  | a :: b :: c :: t =>
    by_cases ha : a = '!' <;> by_cases hb : b = '-' <;> simp_all [startsTag]

end Token

end LiveMarkup
