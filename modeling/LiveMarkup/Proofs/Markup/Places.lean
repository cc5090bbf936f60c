import LiveMarkup.Proofs.Markup.Reading

/-!
# Places in markup

Where the lexer of markup stands behind a stretch of text, told character by character. `Reader`
goes through a text with the place and counts the comments that begin; `comments_read` says that it
counts the comments of the lexer, and `beginsComment` that where it stands in a comment the lexer
makes one, whatever follows. So what a text can do to the comments of a page is seen from the places
it leads to.
-/

namespace LiveMarkup

namespace Token

/-- Where the lexer of markup stands. -/
inductive Place where
  | text
  /-- Behind a `<` that may open something. -/
  | bracket
  /-- Behind `<!`. -/
  | bang
  /-- Behind `<!-`. -/
  | bangDash
  /-- In a tag, with the quote that is open. -/
  | tag (quote : Option Char)
  /-- In a comment, behind some hyphens that may begin its end. -/
  | comment (hyphens : Nat)
  deriving DecidableEq, Repr

/-- The token is a comment. -/
def isComment : Token → Bool
  | .comment _ => true
  | _ => false

namespace Place

/-- The place behind one more character. -/
def step (p : Place) (c : Char) : Place :=
  match p with
  | .text => if c = '<' then .bracket else .text
  | .bracket =>
    if c = '!' then .bang
    else if Text.isAlphanum c || c = '-' || c = '/' then .tag none
    else if c = '<' then .bracket
    else .text
  | .bang =>
    if c = '-' then .bangDash
    else if c = '\'' || c = '"' || c = '>' then .text
    else .tag none
  | .bangDash =>
    if c = '-' then .comment 0
    else if c = '\'' || c = '"' || c = '>' then .text
    else .tag none
  | .tag (some q) => .tag (if c = q then none else some q)
  | .tag none =>
    if c = '>' then .text else .tag (if c = '"' || c = '\'' then some c else none)
  | .comment hyphens =>
    if c = '-' then .comment (hyphens + 1)
    else if c = '>' && 2 ≤ hyphens then .text
    else .comment 0

/-- The place is in a comment. -/
def isComment : Place → Bool
  | .comment _ => true
  | _ => false

/-- The place is in a tag. -/
def isTag : Place → Bool
  | .tag _ => true
  | _ => false

/-- The place is in text, a tag or a comment, not where one of them may begin. -/
def isSteady : Place → Bool
  | .text | .tag _ | .comment _ => true
  | .bracket | .bang | .bangDash => false

end Place

end Token

open Token (Place commentOpen commentClose quoteAfter? startsTag opensNothing)

/-- A place, and how many comments have begun before it. -/
structure Reader where
  place : Place
  comments : Nat
  deriving DecidableEq, Repr

namespace Reader

/-- Go on over one character. -/
def step (r : Reader) (c : Char) : Reader :=
  ⟨r.place.step c, if r.place = .bangDash ∧ c = '-' then r.comments + 1 else r.comments⟩

/-- Go on over a text. -/
def read (r : Reader) (t : Text) : Reader := t.foldl step r

variable {n d : Nat} {c : Char} {s t pre post : Text} {q q' : Option Char}

@[simp] theorem read_nil (r : Reader) : r.read [] = r := rfl

@[simp] theorem read_cons (r : Reader) (c : Char) (t : Text) : r.read (c :: t) = (r.step c).read t :=
  rfl

theorem read_append (r : Reader) (s t : Text) : r.read (s ++ t) = (r.read s).read t :=
  List.foldl_append

/-! ## Stretches -/

theorem read_text (h : '<' ∉ s) : (⟨.text, n⟩ : Reader).read s = ⟨.text, n⟩ := by
  induction s with
  | nil => rfl
  | cons c s ih =>
    obtain ⟨hc, hs⟩ := not_or.mp (mt List.mem_cons.mpr h)
    have hstep : (⟨.text, n⟩ : Reader).step c = ⟨.text, n⟩ := by simp [step, Place.step, Ne.symm hc]
    rw [read_cons, hstep]
    exact ih hs

theorem read_tag (h : quoteAfter? q s = some q') : (⟨.tag q, n⟩ : Reader).read s = ⟨.tag q', n⟩ := by
  induction s generalizing q with
  | nil =>
    cases h
    rfl
  | cons c s ih =>
    cases q with
    | some q =>
      simp only [quoteAfter?] at h
      rw [read_cons]
      exact ih h
    | none =>
      simp only [quoteAfter?] at h
      split at h
      · cases h
      · next hc =>
        have hstep : (⟨.tag none, n⟩ : Reader).step c =
            ⟨.tag (if c = '"' || c = '\'' then some c else none), n⟩ := by
          simp [step, Place.step, hc]
        rw [read_cons, hstep]
        exact ih h

theorem read_tag_close : (⟨.tag none, n⟩ : Reader).read ['>'] = ⟨.text, n⟩ := rfl

theorem read_commentOpen : (⟨.text, n⟩ : Reader).read commentOpen = ⟨.comment 0, n + 1⟩ := rfl

theorem read_commentClose :
    (⟨.comment d, n⟩ : Reader).read commentClose = ⟨.text, n⟩ := by
  simp [commentClose, step, Place.step]

/-- A comment goes on as long as its end does not appear, with the hyphens before it. -/
theorem read_comment (h : ¬commentClose <:+: List.replicate d '-' ++ s) :
    ∃ e, (⟨.comment d, n⟩ : Reader).read s = ⟨.comment e, n⟩ := by
  induction s generalizing d with
  | nil => exact ⟨d, rfl⟩
  | cons c s ih =>
    rw [read_cons]
    by_cases hyphen : c = '-'
    · subst hyphen
      have hmore : List.replicate d '-' ++ '-' :: s = List.replicate (d + 1) '-' ++ s := by
        rw [List.replicate_succ', List.append_assoc]
        rfl
      exact ih (hmore ▸ h)
    · have hrest : ¬commentClose <:+: List.replicate 0 '-' ++ s := fun hs =>
        h (hs.trans ((List.suffix_cons c s).trans (List.suffix_append _ _)).isInfix)
      have hstep : (⟨.comment d, n⟩ : Reader).step c = ⟨.comment 0, n⟩ := by
        by_cases hclose : c = '>'
        · subst hclose
          have hfew : ¬2 ≤ d := by
            intro htwo
            obtain ⟨e, rfl⟩ := Nat.exists_eq_add_of_le' htwo
            refine h ⟨List.replicate e '-', s, ?_⟩
            simp [commentClose, List.replicate_succ']
          simp [step, Place.step, hfew]
        · simp [step, Place.step, hyphen, hclose]
      rw [hstep]
      exact ih hrest

/-! ## Openings -/

/-- What starts a tag leads into it, and through no comment. -/
theorem exists_start (h : startsTag t = true) :
    ∃ s u, t = s ++ u ∧ quoteAfter? none s = some none ∧
      (∀ n, (⟨.bracket, n⟩ : Reader).read s = ⟨.tag none, n⟩) ∧
      ∀ s', s' <+: s → s' ≠ s → ∀ n, ((⟨.bracket, n⟩ : Reader).read s').place.isComment = false := by
  unfold startsTag at h
  split at h
  · next c u =>
    simp only [Bool.not_eq_true', Bool.or_eq_false_iff, decide_eq_false_iff_not] at h
    refine ⟨['!', '-', c], u, rfl, ?_, fun n => ?_, fun s' hpre hne n => ?_⟩
    · simp [quoteAfter?, h]
    · simp [step, Place.step, h]
    · rcases s' with _ | ⟨a, _ | ⟨b, _ | ⟨e, s'⟩⟩⟩
      · rfl
      · obtain rfl : a = '!' := by simpa using hpre
        rfl
      · obtain ⟨rfl, rfl⟩ : a = '!' ∧ b = '-' := by simpa using hpre
        rfl
      · exact absurd (by simpa using hpre) hne
  · next c u _ =>
    simp only [Bool.not_eq_true', Bool.or_eq_false_iff, decide_eq_false_iff_not] at h
    refine ⟨['!', c], u, rfl, ?_, fun n => ?_, fun s' hpre hne n => ?_⟩
    · simp [quoteAfter?, h]
    · simp [step, Place.step, h]
    · rcases s' with _ | ⟨a, _ | ⟨b, s'⟩⟩
      · rfl
      · obtain rfl : a = '!' := by simpa using hpre
        rfl
      · exact absurd (by simpa using hpre) hne
  · next c u _ _ =>
    have hmark : c ≠ '!' := by
      rintro rfl
      exact absurd h (by decide)
    have hquote : c ≠ '>' ∧ c ≠ '"' ∧ c ≠ '\'' := by
      refine ⟨?_, ?_, ?_⟩
      all_goals
        rintro rfl
        exact absurd h (by decide)
    refine ⟨[c], u, rfl, ?_, fun n => ?_, fun s' hpre hne n => ?_⟩
    · simp [quoteAfter?, hquote]
    · simp only [Bool.or_eq_true, decide_eq_true_eq] at h
      simp [step, Place.step, hmark, h]
    · rcases s' with _ | ⟨a, s'⟩
      · rfl
      · exact absurd (by simpa using hpre) hne
  · cases h

theorem read_bracket_tag (h : startsTag t = true) (hquote : quoteAfter? none t = some q) :
    (⟨.bracket, n⟩ : Reader).read t = ⟨.tag q, n⟩ := by
  obtain ⟨s, u, rfl, hs, hread, -⟩ := exists_start h
  rw [Token.quoteAfter?_append, hs] at hquote
  rw [read_append, hread]
  exact read_tag hquote

/-- On the way through a tag there is no comment. -/
theorem not_isComment_of_tag (h : startsTag t = true) (hpre : pre <+: t)
    (hquote : quoteAfter? none pre = some q) :
    ((⟨.bracket, n⟩ : Reader).read pre).place.isComment = false := by
  obtain ⟨s, u, rfl, hs, hread, hbefore⟩ := exists_start h
  rcases List.prefix_or_prefix_of_prefix hpre (List.prefix_append s u) with hshort | ⟨v, rfl⟩
  · by_cases hall : pre = s
    · rw [hall, hread]
      rfl
    · exact hbefore pre hshort hall n
  · rw [Token.quoteAfter?_append, hs] at hquote
    rw [read_append, hread, read_tag hquote]
    rfl

/-- Reading on behind a `<` and in text comes to the same once both are in text. -/
theorem read_bracket_prefix {lead : Text} (hlead : '<' ∉ lead)
    (hback : ∀ n, (⟨.bracket, n⟩ : Reader).read lead = ⟨.text, n⟩)
    (hbefore : ∀ s', s' <+: lead → s' ≠ lead → ∀ n,
      ((⟨.bracket, n⟩ : Reader).read s').place.isComment = false)
    (hpre : pre <+: lead ++ t)
    (hcomment : ((⟨.bracket, n⟩ : Reader).read pre).place.isComment = true) :
    (⟨.bracket, n⟩ : Reader).read pre = (⟨.text, n⟩ : Reader).read pre := by
  rcases List.prefix_or_prefix_of_prefix hpre (List.prefix_append lead t) with hshort | ⟨v, rfl⟩
  · by_cases hall : pre = lead
    · rw [hall, hback, read_text hlead]
    · rw [hbefore pre hshort hall n] at hcomment
      cases hcomment
  · rw [read_append, read_append, hback, read_text hlead]

/-- A `<` that opens nothing leads back to text, or the text ends before that is seen. -/
theorem exists_back (h : opensNothing t = true) :
    (∃ s u, t = s ++ u ∧ '<' ∉ s ∧ (∀ n, (⟨.bracket, n⟩ : Reader).read s = ⟨.text, n⟩) ∧
      ∀ s', s' <+: s → s' ≠ s → ∀ n, ((⟨.bracket, n⟩ : Reader).read s').place.isComment = false) ∨
    (∃ u, t = '<' :: u) ∨ t <+: ['!', '-'] := by
  simp only [opensNothing, Bool.and_eq_true, Option.isNone_iff_eq_none, Bool.not_eq_true'] at h
  obtain ⟨hopen, hstart⟩ := h
  rw [Text.after?_eq_none_iff] at hopen
  unfold startsTag at hstart
  split at hstart
  · next c u =>
    have hc : c = '\'' ∨ c = '"' ∨ c = '>' := by
      have hne : c ≠ '-' := by
        rintro rfl
        exact hopen ⟨u, rfl⟩
      simpa only [Bool.not_eq_false', Bool.or_eq_true, decide_eq_true_eq, hne, false_or,
        or_assoc] using hstart
    refine .inl ⟨['!', '-', c], u, rfl, ?_, fun n => ?_, fun s' hpre hne n => ?_⟩
    · rcases hc with rfl | rfl | rfl <;> decide
    · rcases hc with rfl | rfl | rfl <;> rfl
    · rcases s' with _ | ⟨a, _ | ⟨b, _ | ⟨e, s'⟩⟩⟩
      · rfl
      · obtain rfl : a = '!' := by simpa using hpre
        rfl
      · obtain ⟨rfl, rfl⟩ : a = '!' ∧ b = '-' := by simpa using hpre
        rfl
      · exact absurd (by simpa using hpre) hne
  · next c u hne =>
    by_cases hyphen : c = '-'
    · subst hyphen
      cases u with
      | nil => exact .inr (.inr (List.prefix_refl _))
      | cons e u => exact absurd rfl (hne e u rfl)
    · have hc : c = '\'' ∨ c = '"' ∨ c = '>' := by
        simpa only [Bool.not_eq_false', Bool.or_eq_true, decide_eq_true_eq, hyphen, false_or,
          or_assoc] using hstart
      refine .inl ⟨['!', c], u, rfl, ?_, fun n => ?_, fun s' hpre hne n => ?_⟩
      · rcases hc with rfl | rfl | rfl <;> decide
      · rcases hc with rfl | rfl | rfl <;> rfl
      · rcases s' with _ | ⟨a, _ | ⟨b, s'⟩⟩
        · rfl
        · obtain rfl : a = '!' := by simpa using hpre
          rfl
        · exact absurd (by simpa using hpre) hne
  · next c u hne hne' =>
    by_cases hmark : c = '!'
    · subst hmark
      cases u with
      | nil => exact .inr (.inr (by simp))
      | cons e u => exact absurd rfl (hne' e u rfl)
    · by_cases hbracket : c = '<'
      · exact .inr (.inl ⟨u, by rw [hbracket]⟩)
      · simp only [Bool.or_eq_false_iff, decide_eq_false_iff_not] at hstart
        refine .inl ⟨[c], u, rfl, ?_, fun n => ?_, fun s' hpre hne n => ?_⟩
        · simpa using Ne.symm hbracket
        · simp [step, Place.step, hmark, hbracket, hstart]
        · rcases s' with _ | ⟨a, s'⟩
          · rfl
          · exact absurd (by simpa using hpre) hne
  · exact .inr (.inr (List.nil_prefix))

/-- A `<` that opens nothing may as well be text: only on the way behind it the places differ. -/
theorem read_bracket_lone (h : opensNothing t = true) :
    ((⟨.bracket, n⟩ : Reader).read t).comments = ((⟨.text, n⟩ : Reader).read t).comments ∧
      ∀ pre, pre <+: t → ((⟨.bracket, n⟩ : Reader).read pre).place.isComment = true →
        (⟨.bracket, n⟩ : Reader).read pre = (⟨.text, n⟩ : Reader).read pre := by
  rcases exists_back h with ⟨s, u, rfl, hs, hback, hbefore⟩ | ⟨u, rfl⟩ | hmark
  · refine ⟨?_, fun pre hpre hcomment => read_bracket_prefix hs hback hbefore hpre hcomment⟩
    rw [read_append, read_append, hback, read_text hs]
  · refine ⟨rfl, fun pre hpre hcomment => ?_⟩
    cases pre with
    | nil => cases hcomment
    | cons a pre =>
      obtain rfl : a = '<' := (List.cons_prefix_cons.mp hpre).1
      rfl
  · have hmarks : ∀ pre, pre <+: ['!', '-'] → ((⟨.bracket, n⟩ : Reader).read pre).comments = n ∧
        ((⟨.text, n⟩ : Reader).read pre).comments = n ∧
        ((⟨.bracket, n⟩ : Reader).read pre).place.isComment = false := by
      intro pre hpre
      rcases pre with _ | ⟨a, _ | ⟨b, pre⟩⟩
      · exact ⟨rfl, rfl, rfl⟩
      · obtain rfl : a = '!' := by simpa using hpre
        exact ⟨rfl, rfl, rfl⟩
      · obtain ⟨rfl, rfl, rfl⟩ : a = '!' ∧ b = '-' ∧ pre = [] := by simpa using hpre
        exact ⟨rfl, rfl, rfl⟩
    obtain ⟨hbracket, htext, -⟩ := hmarks t hmark
    refine ⟨hbracket.trans htext.symm, fun pre hpre hcomment => ?_⟩
    rw [(hmarks pre (hpre.trans hmark)).2.2] at hcomment
    cases hcomment

/-! ## The lexer -/

theorem exists_quote_of_tagEnd?_none (h : Token.tagEnd? q t = none) :
    ∃ q', quoteAfter? q t = some q' := by
  induction t generalizing q with
  | nil => exact ⟨q, rfl⟩
  | cons c t ih =>
    cases q with
    | some q =>
      simp only [Token.tagEnd?, Option.map_eq_none_iff] at h
      exact ih h
    | none =>
      simp only [Token.tagEnd?] at h
      split at h
      · cases h
      · next hc =>
        simp only [quoteAfter?, if_neg hc]
        exact ih (Option.map_eq_none_iff.mp h)

/-- Behind the text of a comment only its end is missing. -/
theorem read_body {body : Text} (h : ¬commentClose <:+: body) :
    ∃ e, (⟨.text, n⟩ : Reader).read (commentOpen ++ body) = ⟨.comment e, n + 1⟩ := by
  rw [read_append, read_commentOpen]
  exact read_comment h

theorem read_tag_source {inner rest : Text} (hstart : startsTag t = true)
    (hend : Token.tagEnd? none t = some (inner, rest)) :
    (⟨.text, n⟩ : Reader).read ('<' :: inner) = ⟨.text, n⟩ := by
  obtain ⟨body, rfl, hquote⟩ := Token.eq_append_of_tagEnd?_some hend
  have hsource : startsTag (body ++ ['>']) = true := by
    rw [Token.eq_append_of_tagEnd? hend, List.append_assoc] at hstart
    exact Token.startsTag_of_append hstart
  obtain ⟨s, u, hsplit, hs, hread, -⟩ := exists_start hsource
  rcases List.prefix_concat_iff.mp ⟨u, hsplit.symm⟩ with rfl | ⟨v, rfl⟩
  · rw [Token.quoteAfter?_append, hquote] at hs
    cases hs
  · rw [Token.quoteAfter?_append, hs] at hquote
    change (⟨.bracket, n⟩ : Reader).read (s ++ v ++ ['>']) = _
    rw [read_append, read_append, hread, read_tag hquote, read_tag_close]

/-- What a step of the lexer takes leads back to text, unless it is the last one or takes a lone
`<`. -/
theorem read_taken {r : Reading Token} (h : Token.Steps c t r) (hlone : r.token ≠ some .lone) :
    (⟨.text, n⟩ : Reader).read r.taken = ⟨.text, n + r.token.toList.countP Token.isComment⟩ ∨
      (r.rest = [] ∧ ((⟨.text, n⟩ : Reader).read r.taken).comments =
        n + r.token.toList.countP Token.isComment) := by
  cases h with
  | text hc =>
    refine .inl (read_text ?_)
    rw [List.mem_cons, not_or]
    refine ⟨Ne.symm hc, fun hmem => ?_⟩
    simpa using List.all_eq_true.mp List.all_takeWhile _ hmem
  | @comment t inside body rest hopen hcut =>
    refine .inl ?_
    obtain ⟨e, hbody⟩ := read_body (n := n)
      (Text.not_infix_of_cut? (by simp [commentClose]) hcut)
    rw [← List.append_assoc, read_append, hbody, read_commentClose]
    rfl
  | @commentToEnd t inside hopen hcut =>
    refine .inr ⟨rfl, ?_⟩
    obtain ⟨e, hbody⟩ := read_body (n := n) (Text.cut?_eq_none_iff.mp hcut)
    rw [Text.eq_append_of_after? hopen, hbody]
    rfl
  | tag hstart hend => exact .inl (read_tag_source hstart hend)
  | lost hstart hend =>
    obtain ⟨q, hquote⟩ := exists_quote_of_tagEnd?_none hend
    have hread : (⟨.text, n⟩ : Reader).read ('<' :: t) = ⟨.tag q, n⟩ := read_bracket_tag hstart hquote
    exact .inr ⟨rfl, congrArg comments hread⟩
  | lone h => exact absurd rfl hlone

/-- The reader counts the comments of the lexer. -/
theorem comments_read (t : Text) (n : Nat) :
    ((⟨.text, n⟩ : Reader).read t).comments = n + (Token.lexer.tokens t).countP Token.isComment := by
  match t with
  | [] =>
    rw [Lexer.tokens_nil]
    rfl
  | c :: t =>
    have hlength : (Token.step c t).rest.length ≤ t.length := Token.lexer.length_rest_le c t
    have ih := comments_read (Token.step c t).rest
    have hsteps := Token.steps_step c t
    have hsplit : (Token.step c t).taken ++ (Token.step c t).rest = c :: t :=
      Token.lexer.taken_append_rest c t
    have htokens : (Token.lexer.tokens (c :: t)).countP Token.isComment =
        (Token.step c t).token.toList.countP Token.isComment +
          (Token.lexer.tokens (Token.step c t).rest).countP Token.isComment := by
      rw [Lexer.tokens_cons, List.countP_append]
      rfl
    rw [htokens, ← Nat.add_assoc, ← hsplit, read_append]
    by_cases hlone : (Token.step c t).token = some .lone
    · generalize Token.step c t = r at *
      cases hsteps with
      | lone h => exact (read_bracket_lone h).1.trans (ih n)
      | _ => cases hlone
    · rcases read_taken (n := n) hsteps hlone with htext | ⟨hrest, hcount⟩
      · rw [htext, ih]
      · rw [hrest, read_nil, hcount, Lexer.tokens_nil]
        rfl
termination_by t.length

/-! ## Comments in which the reader stands -/

/-- The end of a comment does not begin earlier than the mark itself. -/
theorem not_infix_of_shorter {b body : Text} (h : ¬commentClose <:+: body)
    (hpre : b <+: body ++ commentClose) (hne : b ≠ body ++ commentClose) : ¬commentClose <:+: b := by
  have hyphen {s : Text} (hs : ¬commentClose <:+: s) : ¬commentClose <:+: s ++ ['-'] := by
    rw [List.infix_concat_iff, List.suffix_concat_iff]
    rintro ((hnil | ⟨u, hu, -⟩) | hmark)
    · cases hnil
    · exact absurd (congrArg List.getLast? hu) (by simp [commentClose])
    · exact hs hmark
  have hall : body ++ commentClose = body ++ ['-'] ++ ['-'] ++ ['>'] := by
    simp [commentClose]
  rw [hall] at hpre hne
  have hpre := (List.prefix_concat_iff.mp hpre).resolve_left hne
  exact fun hb => hyphen (hyphen h) (hb.trans hpre.isInfix)

/-- What leads into a comment at the beginning of a text holds the mark that opens it. -/
theorem exists_body {inside : Text} (hpre : pre <+: commentOpen ++ inside)
    (h : ((⟨.text, n⟩ : Reader).read pre).place.isComment = true) :
    ∃ b, pre = commentOpen ++ b ∧ b <+: inside := by
  rcases List.prefix_or_prefix_of_prefix hpre (List.prefix_append commentOpen inside) with
    hshort | ⟨b, rfl⟩
  · rcases pre with _ | ⟨a, _ | ⟨b, _ | ⟨e, _ | ⟨f, pre⟩⟩⟩⟩
    · cases h
    · obtain rfl : a = '<' := by simpa [commentOpen] using hshort
      cases h
    · obtain ⟨rfl, rfl⟩ : a = '<' ∧ b = '!' := by simpa [commentOpen] using hshort
      cases h
    · obtain ⟨rfl, rfl, rfl⟩ : a = '<' ∧ b = '!' ∧ e = '-' := by simpa [commentOpen] using hshort
      cases h
    · obtain ⟨rfl, rfl, rfl, rfl, rfl⟩ : a = '<' ∧ b = '!' ∧ e = '-' ∧ f = '-' ∧ pre = [] := by
        simpa [commentOpen] using hshort
      exact ⟨[], rfl, List.nil_prefix⟩
  · exact ⟨b, rfl, (List.prefix_append_right_inj _).mp hpre⟩

/-- Within a step of the lexer there is no comment but the one that it takes. -/
theorem exists_body_of_steps {r : Reading Token} (h : Token.Steps c t r) (hpre : pre <+: r.taken)
    (hcomment : ((⟨.text, n⟩ : Reader).read pre).place.isComment = true) :
    ∃ body, pre = commentOpen ++ body ∧ ¬commentClose <:+: body := by
  cases h with
  | text hc =>
    have hplain : '<' ∉ pre := fun hmem => by
      rcases List.mem_cons.mp (hpre.mem hmem) with heq | hmem
      · exact hc heq.symm
      · simpa using List.all_eq_true.mp List.all_takeWhile _ hmem
    rw [read_text hplain] at hcomment
    cases hcomment
  | @comment t inside body rest hopen hcut =>
    have hbody := Text.not_infix_of_cut? (by simp [commentClose]) hcut
    obtain ⟨b, rfl, hb⟩ := exists_body hpre hcomment
    refine ⟨b, rfl, not_infix_of_shorter hbody hb ?_⟩
    rintro rfl
    obtain ⟨e, hread⟩ := read_body (n := n) hbody
    rw [← List.append_assoc, read_append, hread, read_commentClose] at hcomment
    cases hcomment
  | @commentToEnd t inside hopen hcut =>
    rw [Text.eq_append_of_after? hopen] at hpre
    obtain ⟨b, rfl, hb⟩ := exists_body hpre hcomment
    exact ⟨b, rfl, fun hmark => Text.cut?_eq_none_iff.mp hcut (hmark.trans hb.isInfix)⟩
  | @tag t inner rest hstart hend =>
    obtain ⟨body, rfl, hquote⟩ := Token.eq_append_of_tagEnd?_some hend
    cases pre with
    | nil => cases hcomment
    | cons a pre =>
      obtain ⟨rfl, hinner⟩ := List.cons_prefix_cons.mp hpre
      rcases List.prefix_concat_iff.mp hinner with rfl | ⟨v, rfl⟩
      · rw [read_tag_source hstart hend] at hcomment
        cases hcomment
      · rw [Token.quoteAfter?_append] at hquote
        obtain ⟨q, hq, -⟩ := Option.bind_eq_some_iff.mp hquote
        rw [Token.eq_append_of_tagEnd? hend, List.append_assoc, List.append_assoc] at hstart
        have hnot := not_isComment_of_tag (n := n) hstart (List.prefix_append pre _) hq
        exact absurd hcomment (Bool.eq_false_iff.mp hnot)
  | lost hstart hend =>
    cases pre with
    | nil => cases hcomment
    | cons a pre =>
      obtain ⟨rfl, v, rfl⟩ := List.cons_prefix_cons.mp hpre
      obtain ⟨q, hquote⟩ := exists_quote_of_tagEnd?_none hend
      rw [Token.quoteAfter?_append] at hquote
      obtain ⟨q', hq, -⟩ := Option.bind_eq_some_iff.mp hquote
      have hnot := not_isComment_of_tag (n := n) hstart (List.prefix_append pre v) hq
      exact absurd hcomment (Bool.eq_false_iff.mp hnot)
  | lone hnothing =>
    rcases List.prefix_cons_iff.mp hpre with rfl | ⟨p, rfl, hp⟩
    · cases hcomment
    · obtain rfl := List.prefix_nil.mp hp
      cases hcomment

/-- Past a step of the lexer the reader is where it would be if it stood in text there. -/
theorem isComment_of_steps {r : Reading Token} (h : Token.Steps c t r) (hpre : pre <+: r.rest)
    (hcomment : ((⟨.text, n⟩ : Reader).read (r.taken ++ pre)).place.isComment = true)
    (hpast : pre ≠ []) : ∃ m, ((⟨.text, m⟩ : Reader).read pre).place.isComment = true := by
  rw [read_append] at hcomment
  by_cases hlone : r.token = some .lone
  · cases h with
    | lone hnothing =>
      have hsame := (read_bracket_lone (n := n) hnothing).2 pre hpre hcomment
      exact ⟨n, hsame ▸ hcomment⟩
    | _ => cases hlone
  · rcases read_taken (n := n) h hlone with htext | ⟨hrest, -⟩
    · rw [htext] at hcomment
      exact ⟨_, hcomment⟩
    · rw [hrest] at hpre
      exact absurd (List.prefix_nil.mp hpre) hpast

end Reader

namespace Token

variable {pre post middle body taken : Text} {n : Nat}

/-- Before `post` the lexer makes a comment that begins with the text behind the last opening mark of
`pre`. -/
def BeginsComment (pre post : Text) : Prop :=
  ∃ lead body before, pre = lead ++ (commentOpen ++ body) ∧ ¬commentClose <:+: body ∧
    (before.map Prod.snd).flatten = lead ∧
    lexer.pieces (pre ++ post) = before ++ lexer.pieces (commentOpen ++ (body ++ post))

theorem beginsComment_open (h : ¬commentClose <:+: body) (post : Text) :
    BeginsComment (commentOpen ++ body) post :=
  ⟨[], body, [], rfl, h, rfl, by rw [List.append_assoc, List.nil_append]⟩

/-- A piece in front puts nothing in the way. -/
theorem BeginsComment.skip {token : Option Token} (h : BeginsComment pre post)
    (hpieces : lexer.pieces (taken ++ (pre ++ post)) = (token, taken) :: lexer.pieces (pre ++ post)) :
    BeginsComment (taken ++ pre) post := by
  obtain ⟨lead, body, before, hpre, hbody, hlead, hrest⟩ := h
  refine ⟨taken ++ lead, body, (token, taken) :: before, ?_, hbody, ?_, ?_⟩
  · rw [hpre, List.append_assoc]
  · rw [List.map_cons, List.flatten_cons, hlead]
  · rw [List.append_assoc, hpieces, hrest, List.cons_append]

/-- Where the reader stands in a comment, the lexer makes one, whatever follows. -/
theorem beginsComment (pre post : Text) (n : Nat)
    (h : ((⟨.text, n⟩ : Reader).read pre).place.isComment = true) : BeginsComment pre post := by
  match pre with
  | [] => cases h
  | c :: p =>
    have hsteps := steps_step c (p ++ post)
    have hsplit : (step c (p ++ post)).taken ++ (step c (p ++ post)).rest = (c :: p) ++ post :=
      lexer.taken_append_rest c (p ++ post)
    have hpieces : lexer.pieces ((c :: p) ++ post) =
        ((step c (p ++ post)).token, (step c (p ++ post)).taken) ::
          lexer.pieces (step c (p ++ post)).rest := lexer.pieces_cons c (p ++ post)
    have hsome : 0 < (step c (p ++ post)).taken.length :=
      List.length_pos_iff.mpr (lexer.taken_ne_nil c (p ++ post))
    generalize step c (p ++ post) = r at *
    rcases List.prefix_or_prefix_of_prefix (List.prefix_append (c :: p) post)
      (hsplit ▸ List.prefix_append r.taken r.rest) with hwithin | ⟨p', hp'⟩
    · obtain ⟨body, hb, hbody⟩ := Reader.exists_body_of_steps hsteps hwithin h
      exact hb ▸ beginsComment_open hbody post
    by_cases hpast : p' = []
    · rw [hpast, List.append_nil] at hp'
      obtain ⟨body, hb, hbody⟩ :=
        Reader.exists_body_of_steps hsteps (hp' ▸ List.prefix_refl _) h
      exact hb ▸ beginsComment_open hbody post
    · rw [← hp', List.append_assoc] at hsplit hpieces
      have hrest := List.append_cancel_left hsplit
      obtain ⟨m, hm⟩ := Reader.isComment_of_steps hsteps ⟨post, hrest.symm⟩ (hp' ▸ h) hpast
      have hshorter : p'.length < (c :: p).length := by
        rw [← hp', List.length_append]
        omega
      rw [hrest] at hpieces
      exact hp' ▸ (beginsComment p' post m hm).skip hpieces
termination_by pre.length
decreasing_by exact hshorter

/-- The lexer makes a comment of `body` behind `lead`, and `rest` comes after it. -/
def HasComment (t lead body rest : Text) : Prop :=
  ∃ before taken after, lexer.pieces t = before ++ (some (.comment body), taken) :: after ∧
    (before.map Prod.snd).flatten = lead ∧ (after.map Prod.snd).flatten = rest

theorem pieces_of_steps {c : Char} {t : Text} {r : Reading Token} (h : Steps c t r) :
    lexer.pieces (c :: t) = (r.token, r.taken) :: lexer.pieces r.rest := by
  have hstep : lexer.step c t = r := eq_of_steps h
  rw [Lexer.pieces_cons, hstep]

theorem pieces_comment (h : ¬commentClose <:+: body) (rest : Text) :
    lexer.pieces (commentOpen ++ (body ++ (commentClose ++ rest))) =
      (some (.comment body), commentOpen ++ (body ++ commentClose)) :: lexer.pieces rest :=
  pieces_of_steps (.comment (Text.after?_append _ _) (cut?_commentClose h rest))

/-- A comment without an end takes all that follows. -/
theorem pieces_comment_last (h : ¬commentClose <:+: body) :
    lexer.pieces (commentOpen ++ body) = [(some (.comment body), commentOpen ++ body)] := by
  refine (pieces_of_steps (.commentToEnd (Text.after?_append _ _)
    (Text.cut?_eq_none_iff.mpr h))).trans ?_
  rw [Lexer.pieces_nil]
  rfl

/-- The comment in which the reader stands goes on to the first mark that closes one. -/
theorem hasComment_of_isComment (h : ((⟨.text, n⟩ : Reader).read pre).place.isComment = true)
    (hmiddle : ∀ body, ¬commentClose <:+: body → ¬commentClose <:+: body ++ middle) (rest : Text) :
    ∃ lead body, pre = lead ++ (commentOpen ++ body) ∧
      HasComment (pre ++ (middle ++ (commentClose ++ rest))) lead (body ++ middle) rest := by
  obtain ⟨lead, body, before, hpre, hbody, hlead, hpieces⟩ :=
    beginsComment pre (middle ++ (commentClose ++ rest)) n h
  rw [← List.append_assoc body, pieces_comment (hmiddle body hbody)] at hpieces
  exact ⟨lead, body, hpre, before, _, _, hpieces, hlead, lexer.flatten_pieces rest⟩

/-- Without such a mark it goes on to the end. -/
theorem hasComment_last_of_isComment
    (h : ((⟨.text, n⟩ : Reader).read pre).place.isComment = true)
    (hmiddle : ∀ body, ¬commentClose <:+: body → ¬commentClose <:+: body ++ middle) :
    ∃ lead body, pre = lead ++ (commentOpen ++ body) ∧
      HasComment (pre ++ middle) lead (body ++ middle) [] := by
  obtain ⟨lead, body, before, hpre, hbody, hlead, hpieces⟩ := beginsComment pre middle n h
  rw [pieces_comment_last (hmiddle body hbody)] at hpieces
  exact ⟨lead, body, hpre, before, _, [], hpieces, hlead, rfl⟩

end Token

end LiveMarkup
