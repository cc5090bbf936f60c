import LiveMarkup.Proofs.Markup.Steps
import LiveMarkup.Proofs.Text.Pattern

/-!
# The pattern of a tag

The lexer finds a tag by the character behind its `<` and by the first `>` outside quotes.
`takes_tagPattern_iff` says that this is what the regular expression of a tag takes, so it can take
one stretch at most at a place (`tagEnd?_of_takes`).
-/

namespace LiveMarkup.Token

open Pattern CharClass

/-! ## The pattern -/

/-- The characters `[^\-'">]`. -/
def declarationChar : CharClass := except ['-', '\'', '"', '>']

/-- The characters `[a-zA-Z0-9/\-]`. -/
def nameStart : CharClass :=
  { ranges := [('a', 'z'), ('A', 'Z'), ('0', '9'), ('/', '/'), ('-', '-')] }

/-- What stands behind the `<` of a tag: `[a-zA-Z0-9/\-]|![^\-'">]|!-[^\-'">]`. -/
def tagLead : Pattern :=
  .or (.one nameStart)
    (.or (.seq (.one (only ['!'])) (.one declarationChar))
      (.seq (.one (only ['!'])) (.seq (.one (only ['-'])) (.one declarationChar))))

/-- A text between two quotes. -/
def quotedPiece (q : Char) : Pattern :=
  .seq (.one (only [q])) (.seq (.many (.one (except [q]))) (.one (only [q])))

/-- A piece of a tag: `"[^"]*"|'[^']*'|[^'">]`. -/
def tagPiece : Pattern :=
  .or (quotedPiece '"') (.or (quotedPiece '\'') (.one (except ['\'', '"', '>'])))

/-- The pattern `<([a-zA-Z0-9/\-]|![^\-'">]|!-[^\-'">])("[^"]*"|'[^']*'|[^'">])*>`. -/
def tagPattern : Pattern :=
  .seq (.one (only ['<'])) (.seq tagLead (.seq (.many tagPiece) (.one (only ['>']))))

/-- The pattern of a tag takes something off the front of `t`. -/
def TagAt (t : Text) : Prop :=
  ∃ source after, t = source ++ after ∧ tagPattern.Takes source after []

/-! ## The beginning of a tag -/

variable {t rest : Text} {gs : List Text}

theorem takes_only_iff {c : Char} : Takes (.one (only [c])) t rest gs ↔ t = [c] ∧ gs = [] := by
  simp only [takes_one_iff, holds_only, List.mem_singleton, exists_eq_left]

theorem holds_nameStart {c : Char} :
    nameStart.holds c = (Text.isAlphanum c || c = '-' || c = '/') := by
  have alphanum : Text.isAlphanum c = (decide ('A'.val ≤ c.val ∧ c.val ≤ 'Z'.val) ||
      (decide ('a'.val ≤ c.val) && decide (c.val ≤ 'z'.val)) ||
      (decide ('0'.val ≤ c.val) && decide (c.val ≤ '9'.val))) := rfl
  rw [Bool.eq_iff_iff, alphanum]
  simp only [nameStart, holds, Bool.false_bne, List.any_cons, List.any_nil, Bool.or_false,
    inRange_self]
  simp only [inRange, Char.toNat, UInt32.le_iff_toNat_le, Bool.or_eq_true, Bool.and_eq_true,
    decide_eq_true_eq]
  tauto

theorem holds_declarationChar {c : Char} : declarationChar.holds c =
    !(c = '-' || c = '\'' || c = '"' || c = '>') := by
  rw [Bool.eq_iff_iff, declarationChar, holds_except]
  simp [and_assoc]

/-- The three ways in which a tag can begin. -/
theorem takes_tagLead_iff : tagLead.Takes t rest gs ↔ gs = [] ∧
    ((∃ c, t = [c] ∧ nameStart.holds c = true) ∨
      (∃ c, t = ['!', c] ∧ declarationChar.holds c = true) ∨
      ∃ c, t = ['!', '-', c] ∧ declarationChar.holds c = true) := by
  simp only [tagLead, takes_or_iff, takes_seq_iff, takes_only_iff]
  simp only [takes_one_iff]
  constructor
  · rintro (⟨c, hc, rfl, rfl⟩ | ⟨_, _, _, _, rfl, rfl, ⟨rfl, rfl⟩, c, hc, rfl, rfl⟩ |
      ⟨_, _, _, _, rfl, rfl, ⟨rfl, rfl⟩, _, _, _, _, rfl, rfl, ⟨rfl, rfl⟩, c, hc, rfl, rfl⟩)
    · exact ⟨rfl, .inl ⟨c, rfl, hc⟩⟩
    · exact ⟨rfl, .inr (.inl ⟨c, rfl, hc⟩)⟩
    · exact ⟨rfl, .inr (.inr ⟨c, rfl, hc⟩)⟩
  · rintro ⟨rfl, ⟨c, rfl, hc⟩ | ⟨c, rfl, hc⟩ | ⟨c, rfl, hc⟩⟩
    · exact .inl ⟨c, hc, rfl, rfl⟩
    · exact .inr (.inl ⟨['!'], [c], [], [], rfl, rfl, ⟨rfl, rfl⟩, c, hc, rfl, rfl⟩)
    · exact .inr (.inr ⟨['!'], ['-', c], [], [], rfl, rfl, ⟨rfl, rfl⟩,
        ['-'], [c], [], [], rfl, rfl, ⟨rfl, rfl⟩, c, hc, rfl, rfl⟩)

theorem startsTag_iff :
    startsTag t = true ↔ ∃ lead rest, t = lead ++ rest ∧ tagLead.Takes lead rest [] := by
  simp only [takes_tagLead_iff, true_and]
  constructor
  · intro h
    unfold startsTag at h
    split at h
    · next c rest =>
      exact ⟨_, rest, rfl, .inr (.inr ⟨c, rfl, by simpa [holds_declarationChar] using h⟩)⟩
    · next c rest _ =>
      exact ⟨_, rest, rfl, .inr (.inl ⟨c, rfl, by simpa [holds_declarationChar] using h⟩)⟩
    · next c rest _ _ =>
      exact ⟨_, rest, rfl, .inl ⟨c, rfl, by simpa [holds_nameStart] using h⟩⟩
    · cases h
  · rintro ⟨_, rest, rfl, ⟨c, rfl, hc⟩ | ⟨c, rfl, hc⟩ | ⟨c, rfl, hc⟩⟩
    · have noMark : c ≠ '!' := by
        rintro rfl
        cases hc
      rw [holds_nameStart] at hc
      simpa [startsTag, noMark] using hc
    · rw [holds_declarationChar] at hc
      have noDash : c ≠ '-' := by
        rintro rfl
        cases hc
      simpa [startsTag, noDash] using hc
    · rw [holds_declarationChar] at hc
      simpa [startsTag] using hc

theorem isPlain_of_holds_nameStart {c : Char} (h : nameStart.holds c = true) :
    isPlain c = true := by
  by_contra hc
  simp only [isPlain, Bool.not_eq_true', Bool.or_eq_true, decide_eq_true_eq,
    Bool.not_eq_false] at hc
  obtain (rfl | rfl) | rfl := hc <;> cases h

/-- No character of the beginning opens a quote or ends the tag. -/
theorem isPlain_of_takes_tagLead {lead : Text} (h : tagLead.Takes lead rest gs) :
    ∀ c ∈ lead, isPlain c = true := by
  have declared {c : Char} (hc : declarationChar.holds c = true) : isPlain c = true := by
    rw [holds_declarationChar] at hc
    simp only [isPlain, Bool.not_eq_true', Bool.or_eq_false_iff] at hc ⊢
    exact ⟨⟨hc.1.2, hc.1.1.2⟩, hc.2⟩
  obtain ⟨-, ⟨c, rfl, hc⟩ | ⟨c, rfl, hc⟩ | ⟨c, rfl, hc⟩⟩ := takes_tagLead_iff.mp h
  · simpa using isPlain_of_holds_nameStart hc
  · simpa [isPlain] using declared hc
  · simpa [isPlain] using declared hc

/-! ## The body of a tag -/

/-- An open quote that is closed was closed by the next such quote. -/
theorem exists_close {q : Char} (h : quoteAfter? (some q) t = some none) :
    ∃ s u, t = s ++ q :: u ∧ q ∉ s ∧ quoteAfter? none u = some none := by
  induction t with
  | nil => cases h
  | cons c t ih =>
    simp only [quoteAfter?] at h
    split at h
    · next same => exact ⟨[], t, by rw [same]; rfl, List.not_mem_nil, h⟩
    · next other =>
      obtain ⟨s, u, rfl, hs, hu⟩ := ih h
      exact ⟨c :: s, u, rfl, List.not_mem_cons_of_ne_of_not_mem (Ne.symm other) hs, hu⟩

theorem takes_quotedPiece_iff {q : Char} : (quotedPiece q).Takes t rest gs ↔
    ∃ s, t = q :: (s ++ [q]) ∧ q ∉ s ∧ gs = [] := by
  simp only [quotedPiece, takes_seq_iff, takes_only_iff, takes_many_one_iff, holds_except,
    List.mem_singleton]
  constructor
  · rintro ⟨_, _, _, _, rfl, rfl, ⟨rfl, rfl⟩, s, _, _, _, rfl, rfl, ⟨hs, rfl⟩, rfl, rfl⟩
    exact ⟨s, rfl, fun hq => hs q hq rfl, rfl⟩
  · rintro ⟨s, rfl, hs, rfl⟩
    exact ⟨[q], s ++ [q], [], [], rfl, rfl, ⟨rfl, rfl⟩, s, [q], [], [], rfl, rfl,
      ⟨fun c hc heq => hs (heq ▸ hc), rfl⟩, rfl, rfl⟩

theorem holds_isPlain {c : Char} : (except ['\'', '"', '>']).holds c = isPlain c := by
  rw [Bool.eq_iff_iff, holds_except]
  simp [isPlain]
  tauto

theorem takes_tagPiece_quoted {q : Char} (hq : q = '"' ∨ q = '\'') {s : Text} (h : q ∉ s) :
    tagPiece.Takes (q :: (s ++ [q])) rest [] := by
  have piece : (quotedPiece q).Takes (q :: (s ++ [q])) rest [] :=
    takes_quotedPiece_iff.mpr ⟨s, rfl, h, rfl⟩
  obtain rfl | rfl := hq
  · exact .left piece
  · exact .right (.left piece)

theorem isPlain_of_quoteAfter? {c : Char} (noQuote : ¬(c = '"' ∨ c = '\''))
    (h : quoteAfter? none (c :: t) = some none) :
    isPlain c = true ∧ quoteAfter? none t = some none := by
  simp only [quoteAfter?] at h
  split at h
  · cases h
  · next noEnd =>
    rw [not_or] at noQuote
    simp only [noQuote, decide_false, Bool.or_self, Bool.false_eq_true, if_false] at h
    exact ⟨by simp [isPlain, noQuote, noEnd], h⟩

/-- A piece leaves no quote open. -/
theorem quoteAfter?_of_takes_tagPiece (h : tagPiece.Takes t rest gs) :
    quoteAfter? none t = some none ∧ gs = [] := by
  simp only [tagPiece, takes_or_iff, takes_quotedPiece_iff, takes_one_iff, holds_isPlain] at h
  obtain ⟨s, rfl, hs, rfl⟩ | ⟨s, rfl, hs, rfl⟩ | ⟨c, hc, rfl, rfl⟩ := h
  · exact ⟨quoteAfter?_quoted (.inl rfl) hs, rfl⟩
  · exact ⟨quoteAfter?_quoted (.inr rfl) hs, rfl⟩
  · exact ⟨quoteAfter?_plain (by simpa using hc), rfl⟩

/-- The pieces of a tag are what leaves no quote open. -/
theorem takes_many_tagPiece_iff : (Pattern.many tagPiece).Takes t rest gs ↔
    quoteAfter? none t = some none ∧ gs = [] := by
  constructor
  · intro h
    generalize hp : Pattern.many tagPiece = p at h
    induction h with
    | stop => exact ⟨rfl, rfl⟩
    | again first later ihFirst ihLater =>
      cases hp
      obtain ⟨hfirst, rfl⟩ := quoteAfter?_of_takes_tagPiece first
      obtain ⟨hlater, rfl⟩ := ihLater rfl
      exact ⟨by rw [quoteAfter?_append, hfirst]; exact hlater, rfl⟩
    | _ => cases hp
  · rintro ⟨h, rfl⟩
    -- A quoted piece takes several characters at once.
    induction hn : t.length using Nat.strongRecOn generalizing t with
    | ind n ih =>
      match t with
      | [] => exact .stop
      | c :: t =>
        by_cases hc : c = '"' ∨ c = '\''
        · have opened : quoteAfter? (some c) t = some none := by
            obtain rfl | rfl := hc <;> exact h
          obtain ⟨s, u, rfl, hs, hu⟩ := exists_close opened
          have first : tagPiece.Takes (c :: (s ++ [c])) (u ++ rest) [] :=
            takes_tagPiece_quoted hc hs
          have later := ih u.length (by simp at hn; omega) hu rfl
          simpa using Takes.again first later
        · obtain ⟨plain, closed⟩ := isPlain_of_quoteAfter? hc h
          have first : tagPiece.Takes [c] (t ++ rest) [] :=
            .right (.right (.one (holds_isPlain.trans plain)))
          exact .again first (ih t.length (by simp at hn; omega) closed rfl)

/-! ## The whole tag -/

/-- What begins a tag lies before the `>` that ends it. -/
theorem exists_body {lead after inner : Text} (plain : ∀ c ∈ lead, isPlain c = true)
    (h : inner ++ '>' :: rest = lead ++ after) :
    ∃ body, inner = lead ++ body ∧ after = body ++ '>' :: rest := by
  obtain ⟨x, rfl, hx⟩ | ⟨body, rfl, hbody⟩ := List.append_eq_append_iff.mp h
  · cases x with
    | nil => exact ⟨[], by simp, by simpa using hx.symm⟩
    | cons c x =>
      obtain ⟨rfl, -⟩ := List.cons.inj hx
      cases plain '>' (by simp)
  · exact ⟨body, rfl, hbody⟩

/-- A tag is a `<`, a beginning and pieces, and a `>` where no quote is open. -/
theorem takes_tagPattern_iff {source : Text} : tagPattern.Takes source rest gs ↔
    gs = [] ∧ ∃ inner, source = '<' :: (inner ++ ['>']) ∧
      startsTag (inner ++ '>' :: rest) = true ∧ quoteAfter? none inner = some none := by
  simp only [tagPattern, takes_seq_iff, takes_only_iff, takes_many_tagPiece_iff]
  constructor
  · rintro ⟨_, _, _, _, rfl, rfl, ⟨rfl, rfl⟩, lead, _, _, _, rfl, rfl, begins, body, _, _, _, rfl,
      rfl, ⟨closed, rfl⟩, rfl, rfl⟩
    obtain ⟨rfl, -⟩ := takes_tagLead_iff.mp begins
    refine ⟨rfl, lead ++ body, by simp, ?_, ?_⟩
    · exact startsTag_iff.mpr ⟨lead, body ++ '>' :: rest, by simp, by simpa using begins⟩
    · rw [quoteAfter?_append, quoteAfter?_plain (isPlain_of_takes_tagLead begins)]
      exact closed
  · rintro ⟨rfl, inner, rfl, starts, closed⟩
    obtain ⟨lead, after, hsplit, begins⟩ := startsTag_iff.mp starts
    have plain := isPlain_of_takes_tagLead begins
    obtain ⟨body, rfl, rfl⟩ := exists_body plain hsplit
    rw [quoteAfter?_append, quoteAfter?_plain plain] at closed
    refine ⟨['<'], lead ++ (body ++ ['>']), [], [], by simp, rfl, ⟨rfl, rfl⟩,
      lead, body ++ ['>'], [], [], rfl, rfl, by simpa using begins,
      body, ['>'], [], [], rfl, rfl, ⟨closed, rfl⟩, rfl, rfl⟩

/-- What the pattern takes is what is found by the first `>` outside quotes. -/
theorem tagEnd?_of_takes {source : Text} (h : tagPattern.Takes source rest []) :
    ∃ t inner, source ++ rest = '<' :: t ∧ source = '<' :: inner ∧ startsTag t = true ∧
      tagEnd? none t = some (inner, rest) := by
  obtain ⟨-, inner, rfl, starts, closed⟩ := takes_tagPattern_iff.mp h
  refine ⟨inner ++ '>' :: rest, inner ++ ['>'], by simp, rfl, starts, ?_⟩
  rw [tagEnd?_append closed, tagEnd?_close]
  rfl

theorem takes_of_tagEnd? {inner : Text} (starts : startsTag t = true)
    (ends : tagEnd? none t = some (inner, rest)) : tagPattern.Takes ('<' :: inner) rest [] := by
  obtain rfl := eq_append_of_tagEnd? ends
  obtain ⟨body, rfl, closed⟩ := eq_append_of_tagEnd?_some ends
  exact takes_tagPattern_iff.mpr ⟨rfl, body, rfl, by simpa using starts, closed⟩

theorem tagAt_iff : TagAt ('<' :: t) ↔ startsTag t = true ∧ tagEnd? none t ≠ none := by
  constructor
  · rintro ⟨source, rest, whole, taken⟩
    obtain ⟨t', inner, whole', -, starts, ends⟩ := tagEnd?_of_takes taken
    obtain rfl := (List.cons.inj (whole.trans whole')).2
    exact ⟨starts, by simp [ends]⟩
  · rintro ⟨starts, ends⟩
    obtain ⟨⟨inner, rest⟩, ends⟩ := Option.ne_none_iff_exists'.mp ends
    exact ⟨'<' :: inner, rest, by rw [eq_append_of_tagEnd? ends]; rfl, takes_of_tagEnd? starts ends⟩

end LiveMarkup.Token
