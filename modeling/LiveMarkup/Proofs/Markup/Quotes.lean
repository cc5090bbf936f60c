import LiveMarkup.Markup.Node
import LiveMarkup.Markup.Token

/-!
# Quotes inside tags

Where a tag ends depends on the quotes in it. `Token.quoteAfter?` follows the quotes through a
stretch of a tag, so that `Token.tagEnd?` can be read off piece by piece: `tagEnd?_append` steps
over a stretch without an end, and `eq_append_of_tagEnd?_some` says that whatever `tagEnd?` finds
is such a stretch and one `>`. Written attributes leave no quote open behind a name that leaves
none open, and never close one that a name has left open.
-/

namespace LiveMarkup

namespace Token

/-- The quote that is open behind `t`; nothing when a `>` outside quotes ends the tag in `t`. -/
def quoteAfter? (quote : Option Char) : Text → Option (Option Char)
  | [] => some quote
  | c :: t =>
    match quote with
    | some q => quoteAfter? (if c = q then none else some q) t
    | none =>
      if c = '>' then none
      else quoteAfter? (if c = '"' || c = '\'' then some c else none) t

theorem quoteAfter?_append (quote : Option Char) (s t : Text) :
    quoteAfter? quote (s ++ t) = (quoteAfter? quote s).bind fun quote => quoteAfter? quote t := by
  induction s generalizing quote with
  | nil => rfl
  | cons c s ih =>
    rw [List.cons_append]
    cases quote with
    | some q =>
      simp only [quoteAfter?]
      exact ih _
    | none =>
      simp only [quoteAfter?]
      split
      · rfl
      · exact ih _

/-- A stretch in which the tag does not end is stepped over. -/
theorem tagEnd?_append {quote after : Option Char} {s : Text} (h : quoteAfter? quote s = some after)
    (t : Text) : tagEnd? quote (s ++ t) = (tagEnd? after t).map fun p => (s ++ p.1, p.2) := by
  induction s generalizing quote with
  | nil =>
    cases h
    simp
  | cons c s ih =>
    cases quote with
    | some q =>
      simp only [quoteAfter?] at h
      simp only [List.cons_append, tagEnd?, ih h, Option.map_map]
      rfl
    | none =>
      simp only [quoteAfter?] at h
      split at h
      · contradiction
      · next hc =>
        simp only [List.cons_append, tagEnd?, hc, if_false, ih h, Option.map_map]
        rfl

theorem tagEnd?_close (t : Text) : tagEnd? none ('>' :: t) = some (['>'], t) := rfl

/-- A tag that ends consists of a stretch that leaves no quote open and its `>`. -/
theorem eq_append_of_tagEnd?_some {quote : Option Char} {t inner rest : Text}
    (h : tagEnd? quote t = some (inner, rest)) :
    ∃ body, inner = body ++ ['>'] ∧ quoteAfter? quote body = some none := by
  induction t generalizing quote inner with
  | nil => simp [tagEnd?] at h
  | cons c t ih =>
    simp only [tagEnd?] at h
    split at h
    · simp only [Option.map_eq_some_iff, Prod.mk.injEq] at h
      obtain ⟨⟨i, r⟩, hi, rfl, rfl⟩ := h
      obtain ⟨body, rfl, hbody⟩ := ih hi
      exact ⟨c :: body, rfl, by simpa only [quoteAfter?] using hbody⟩
    · split at h
      · next hc =>
        simp only [Option.some.injEq, Prod.mk.injEq] at h
        exact ⟨[], by rw [← h.1, hc]; rfl, rfl⟩
      · next hc =>
        simp only [Option.map_eq_some_iff, Prod.mk.injEq] at h
        obtain ⟨⟨i, r⟩, hi, rfl, rfl⟩ := h
        obtain ⟨body, rfl, hbody⟩ := ih hi
        exact ⟨c :: body, rfl, by simpa only [quoteAfter?, hc, if_false] using hbody⟩

/-- Whether a stretch is stepped over does not depend on what follows it. -/
theorem quoteAfter?_eq_of_tagEnd? {s t : Text}
    (h : tagEnd? none (s ++ '>' :: t) = some (s ++ ['>'], t)) : quoteAfter? none s = some none := by
  obtain ⟨body, hbody, open_⟩ := eq_append_of_tagEnd?_some h
  rw [List.append_cancel_right hbody]
  exact open_

/-! ## Stretches that appear in tags -/

/-- A character that neither opens a quote nor ends a tag. -/
def isPlain (c : Char) : Bool := !(c = '"' || c = '\'' || c = '>')

theorem isPlain_of_isSpace {c : Char} (h : Text.isSpace c = true) : isPlain c = true := by
  simp only [Text.isSpace, Bool.or_eq_true, decide_eq_true_eq] at h
  rcases h with (((rfl | rfl) | rfl) | rfl) | rfl <;> rfl

theorem quoteAfter?_plain {t : Text} (h : ∀ c ∈ t, isPlain c = true) :
    quoteAfter? none t = some none := by
  induction t with
  | nil => rfl
  | cons c t ih =>
    have hc := h c List.mem_cons_self
    simp only [isPlain, Bool.not_eq_true', Bool.or_eq_false_iff, decide_eq_false_iff_not] at hc
    simp only [quoteAfter?, hc.2, hc.1.1, hc.1.2, if_false, decide_false, Bool.or_self,
      Bool.false_eq_true]
    exact ih fun d hd => h d (List.mem_cons_of_mem c hd)

/-- An open quote stays open over a text without it. -/
theorem quoteAfter?_inside {q : Char} {t : Text} (h : q ∉ t) :
    quoteAfter? (some q) t = some (some q) := by
  induction t with
  | nil => rfl
  | cons c t ih =>
    obtain ⟨hc, ht⟩ := not_or.mp (mt List.mem_cons.mpr h)
    simp only [quoteAfter?, if_neg (Ne.symm hc)]
    exact ih ht

/-- A text in quotes of its own leaves no quote open. -/
theorem quoteAfter?_quoted {q : Char} (hq : q = '"' ∨ q = '\'') {t : Text} (h : q ∉ t) :
    quoteAfter? none (q :: (t ++ [q])) = some none := by
  have hopen : quoteAfter? none (q :: (t ++ [q])) = quoteAfter? (some q) (t ++ [q]) := by
    rcases hq with rfl | rfl <;> rfl
  rw [hopen, quoteAfter?_append, quoteAfter?_inside h]
  simp [quoteAfter?]

/-! ## Quotes left open -/

/-- The quote that is open behind a stretch was open before it or is opened in it. -/
theorem eq_or_mem_of_quoteAfter? {quote : Option Char} {q : Char} {t : Text}
    (h : quoteAfter? quote t = some (some q)) :
    quote = some q ∨ (q ∈ t ∧ (q = '"' ∨ q = '\'')) := by
  induction t generalizing quote with
  | nil => exact .inl (Option.some.inj h)
  | cons c t ih =>
    cases quote with
    | some q₀ =>
      simp only [quoteAfter?] at h
      rcases ih h with heq | ⟨hmem, hq⟩
      · split at heq
        · contradiction
        · exact .inl heq
      · exact .inr ⟨List.mem_cons_of_mem c hmem, hq⟩
    | none =>
      simp only [quoteAfter?] at h
      split at h
      · contradiction
      · rcases ih h with heq | ⟨hmem, hq⟩
        · split at heq
          · next hc =>
            cases Option.some.inj heq
            exact .inr ⟨List.mem_cons_self, by simpa using hc⟩
          · contradiction
        · exact .inr ⟨List.mem_cons_of_mem c hmem, hq⟩

/-- Unless the tag ends before, a quote is open. -/
def IsOpen (after : Option (Option Char)) : Prop :=
  ∀ quote, after = some quote → ∃ q, quote = some q ∧ (q = '"' ∨ q = '\'')

theorem IsOpen.bind {after : Option (Option Char)} (h : IsOpen after) {t : Text}
    (step : ∀ q, (q = '"' ∨ q = '\'') → IsOpen (quoteAfter? (some q) t)) :
    IsOpen (after.bind fun quote => quoteAfter? quote t) := by
  cases after with
  | none => intro quote heq; contradiction
  | some quote =>
    obtain ⟨q, rfl, hq⟩ := h quote rfl
    exact step q hq

/-- A text in quotes behind an open quote leaves a quote open: when its first quote closes the one
that was open, its last one opens another. -/
theorem isOpen_quoted {q₀ q : Char} (hq₀ : q₀ = '"' ∨ q₀ = '\'') (hq : q = '"' ∨ q = '\'')
    {t : Text} (h : q ∉ t) : IsOpen (quoteAfter? (some q₀) (q :: (t ++ [q]))) := by
  -- The quote at the end opens itself unless another one is open.
  have last : ∀ {quote : Option Char}, (∀ q', quoteAfter? quote t = some (some q') → q' ≠ q ∧
      (q' = '"' ∨ q' = '\'')) → IsOpen (quoteAfter? quote (t ++ [q])) := by
    intro quote hopen
    rw [quoteAfter?_append]
    cases hbody : quoteAfter? quote t with
    | none => intro after heq; contradiction
    | some after =>
      cases after with
      | none =>
        intro after heq
        refine ⟨q, ?_, hq⟩
        rcases hq with rfl | rfl <;> exact (Option.some.inj heq).symm
      | some q' =>
        obtain ⟨hne, hq'⟩ := hopen q' hbody
        intro after heq
        refine ⟨q', ?_, hq'⟩
        simpa [quoteAfter?, Ne.symm hne] using heq.symm
  simp only [quoteAfter?]
  by_cases heq : q = q₀
  · rw [if_pos heq]
    refine last fun q' hbody => ?_
    rcases eq_or_mem_of_quoteAfter? hbody with hnone | ⟨hmem, hq'⟩
    · contradiction
    · exact ⟨fun hqq => h (hqq ▸ hmem), hq'⟩
  · rw [if_neg heq]
    refine last fun q' hbody => ?_
    rcases eq_or_mem_of_quoteAfter? hbody with hsome | ⟨hmem, hq'⟩
    · cases Option.some.inj hsome
      exact ⟨Ne.symm heq, hq₀⟩
    · exact ⟨fun hqq => h (hqq ▸ hmem), hq'⟩

end Token

end LiveMarkup
