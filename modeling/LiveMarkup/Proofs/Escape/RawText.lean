import LiveMarkup.Proofs.Text.Spans
import LiveMarkup.Resolve

/-!
# Text in script and style bodies

The body of a script or style element may hold no close tag of such an element and no start of a
comment. Each text that goes there is escaped for itself. What this comes to character by character
is `Text.escapeRawText_cons`; from it follows that one escaped text holds none of these marks, and
that several one after the other hold one exactly when it stands across a seam between them.
-/

namespace LiveMarkup

namespace Text

/-- What the body of a script or style element may not hold, in lower case. -/
def rawTextMarks : List Text := ["</script".toList, "</style".toList, "<!--".toList]

/-- The text is one of the marks, in any case. -/
def IsRawTextMark (t : Text) : Prop := lower t ∈ rawTextMarks

instance (t : Text) : Decidable (IsRawTextMark t) :=
  inferInstanceAs (Decidable (lower t ∈ rawTextMarks))

/-- The text holds one of the marks. -/
def BreaksRawText (t : Text) : Prop := ∃ mark, IsRawTextMark mark ∧ mark <:+: t

/-- One of the marks begins in one of the texts and ends in a later one. -/
def Straddled (ts : List Text) : Prop :=
  ∃ xs ys before left right after, ts = xs ++ ys ∧ xs.flatten = before ++ left ∧
    ys.flatten = right ++ after ∧ left ≠ [] ∧ right ≠ [] ∧ IsRawTextMark (left ++ right)

/-! ## Marks by their first character -/

/-- What follows the `<` at the start of a comment. -/
def commentTail : Text := ['!', '-', '-']

/-- What follows the `<` of a mark. -/
def markTails : List Text := ["/script".toList, "/style".toList, commentTail]

/-- A `<` in front of `t` starts a mark. -/
def completesMark (t : Text) : Bool := markTails.any (startsLowered · t)

theorem completesMark_iff {t : Text} :
    completesMark t = true ↔ ∃ tail ∈ markTails, tail <+: lower t := by
  simp only [completesMark, List.any_eq_true, startsLowered_iff]

theorem isRawTextMark_iff {t : Text} :
    IsRawTextMark t ↔ ∃ u, t = '<' :: u ∧ lower u ∈ markTails := by
  have hmarks : rawTextMarks = markTails.map ('<' :: ·) := rfl
  rw [IsRawTextMark, hmarks, List.mem_map]
  constructor
  · rintro ⟨tail, htail, heq⟩
    cases t with
    | nil => cases heq
    | cons c u =>
      obtain ⟨hc, rfl⟩ := List.cons.inj heq
      exact ⟨u, by rw [eq_of_toLower hc.symm rfl], htail⟩
  · rintro ⟨u, rfl, hu⟩
    exact ⟨lower u, hu, rfl⟩

/-- No character of a mark but its first one is a `<` or a backslash. -/
theorem ne_of_mem_markTails {tail : Text} (h : tail ∈ markTails) : '<' ∉ tail ∧ '\\' ∉ tail := by
  simp only [markTails, List.mem_cons, List.not_mem_nil, or_false] at h
  rcases h with rfl | rfl | rfl <;> decide

/-- The mark that a `<` starts. -/
theorem exists_mark {t : Text} (h : completesMark t = true) :
    ∃ mark after, IsRawTextMark mark ∧ '<' :: t = mark ++ after := by
  obtain ⟨tail, htail, hpre⟩ := completesMark_iff.mp h
  have hmark : lower (t.take tail.length) = tail := by
    rw [lower, List.map_take]
    exact (List.prefix_iff_eq_take.mp hpre).symm
  rw [← hmark] at htail
  refine ⟨'<' :: t.take tail.length, t.drop tail.length, isRawTextMark_iff.mpr ⟨_, rfl, htail⟩, ?_⟩
  rw [List.cons_append, List.take_append_drop]

theorem breaksRawText_iff {t : Text} :
    BreaksRawText t ↔ ∃ a u, t = a ++ '<' :: u ∧ completesMark u = true := by
  constructor
  · rintro ⟨mark, hmark, a, b, rfl⟩
    obtain ⟨u, rfl, hu⟩ := isRawTextMark_iff.mp hmark
    refine ⟨a, u ++ b, by simp, completesMark_iff.mpr ⟨lower u, hu, ?_⟩⟩
    rw [lower, lower, List.map_append]
    exact List.prefix_append _ _
  · rintro ⟨a, u, rfl, hu⟩
    obtain ⟨mark, after, hmark, heq⟩ := exists_mark hu
    exact ⟨mark, hmark, a, after, by rw [heq, List.append_assoc]⟩

/-- A mark goes on over the end of a text only when the text lies in it. -/
theorem lower_prefix_of_completesMark_append {t r : Text} (h : completesMark (t ++ r) = true)
    (hnot : completesMark t = false) :
    ∃ tail ∈ markTails, ∃ rest, tail = lower t ++ rest ∧ rest ≠ [] ∧ rest <+: lower r := by
  obtain ⟨tail, htail, hpre⟩ := completesMark_iff.mp h
  have hlower : lower (t ++ r) = lower t ++ lower r := List.map_append
  rw [hlower] at hpre
  have hshort : ¬tail <+: lower t := fun hpre =>
    absurd (completesMark_iff.mpr ⟨tail, htail, hpre⟩) (by simp [hnot])
  rcases List.prefix_or_prefix_of_prefix hpre (List.prefix_append (lower t) (lower r)) with
    hpre' | ⟨rest, rfl⟩
  · exact absurd hpre' hshort
  · refine ⟨_, htail, rest, rfl, ?_, (List.prefix_append_right_inj _).mp hpre⟩
    rintro rfl
    exact hshort (by simp)

theorem not_mem_of_lower_start {t tail rest : Text} (htail : tail ∈ markTails)
    (heq : tail = lower t ++ rest) : '<' ∉ t := by
  intro hmem
  have hlower : '<' ∈ lower t := List.mem_map_of_mem (f := Char.toLower) hmem
  exact (ne_of_mem_markTails htail).1 (heq ▸ List.mem_append_left _ hlower)

/-! ## Escaping character by character -/

/-- What the character `c` becomes in front of `t`. -/
def rawEntity (c : Char) (t : Text) : Text :=
  if c = '<' && completesMark t then
    if startsLowered commentTail t then "\\x3C".toList else ['<', '\\']
  else [c]

theorem startsLowered_commentTail {t : Text} :
    startsLowered commentTail t = true ↔ ∃ u, t = '!' :: '-' :: '-' :: u := by
  constructor
  · intro h
    rcases t with _ | ⟨a, _ | ⟨b, _ | ⟨c, u⟩⟩⟩
    · cases h
    · simp [commentTail, startsLowered] at h
    · simp [commentTail, startsLowered] at h
    · simp only [commentTail, startsLowered, Bool.and_eq_true, decide_eq_true_eq, and_true] at h
      exact ⟨u, by rw [eq_of_toLower h.1.symm rfl, eq_of_toLower h.2.1.symm rfl,
        eq_of_toLower h.2.2.symm rfl]⟩
  · rintro ⟨u, rfl⟩
    rfl

theorem completesMark_slash (t : Text) : completesMark ('/' :: t) = startsRawName t := by
  have hcomment : startsLowered commentTail ('/' :: t) = false := rfl
  simp [completesMark, markTails, startsRawName, startsLowered, hcomment]

theorem cases_of_completesMark {t : Text} (h : completesMark t = true) :
    (∃ u, t = '/' :: u) ∨ ∃ u, t = '!' :: '-' :: '-' :: u := by
  cases t with
  | nil => simp [completesMark, markTails, commentTail, startsLowered] at h
  | cons c u =>
    by_cases hc : c = '/'
    · exact .inl ⟨u, by rw [hc]⟩
    · have hslash : '/' ≠ c.toLower := fun heq => hc (eq_of_toLower heq.symm rfl)
      right
      apply startsLowered_commentTail.mp
      simpa [completesMark, markTails, startsLowered, hslash] using h

theorem breakMarks_of_ne {c : Char} (hc : c ≠ '<') (t : Text) :
    breakMarks (c :: t) = c :: breakMarks t := by
  rw [breakMarks.eq_def]
  split
  · contradiction
  · next heq => exact absurd (List.cons.inj heq).1 hc
  · next heq => exact absurd (List.cons.inj heq).1 hc
  · next heq =>
    obtain ⟨rfl, rfl⟩ := List.cons.inj heq
    rfl

theorem breakMarks_cons (c : Char) (t : Text) :
    breakMarks (c :: t) = rawEntity c t ++ breakMarks t := by
  rw [breakMarks.eq_def]
  split
  · contradiction
  · next u heq =>
    obtain ⟨rfl, rfl⟩ := List.cons.inj heq
    have hcomment : startsLowered commentTail ('/' :: u) = false := rfl
    rw [rawEntity, completesMark_slash, hcomment, breakMarks_of_ne (by decide)]
    cases startsRawName u <;> rfl
  · next u heq =>
    obtain ⟨rfl, rfl⟩ := List.cons.inj heq
    have hcomment : startsLowered commentTail ('!' :: '-' :: '-' :: u) = true := rfl
    have hmark : completesMark ('!' :: '-' :: '-' :: u) = true := by
      simp [completesMark, markTails, hcomment]
    rw [rawEntity, hmark, hcomment, breakMarks_of_ne (by decide), breakMarks_of_ne (by decide),
      breakMarks_of_ne (by decide)]
    rfl
  · next d u hslash hcomment heq =>
    obtain ⟨rfl, rfl⟩ := List.cons.inj heq
    have hplain : ¬(decide (c = '<') && completesMark t) = true := by
      rw [Bool.and_eq_true, decide_eq_true_eq]
      rintro ⟨rfl, hmark⟩
      rcases cases_of_completesMark hmark with ⟨u, rfl⟩ | ⟨u, rfl⟩
      · exact hslash u rfl rfl
      · exact hcomment u rfl rfl
    rw [rawEntity, if_neg hplain]
    rfl

/-- A text without marks is left as it is. -/
theorem breakMarks_of_not_breaksRawText {t : Text} (h : ¬BreaksRawText t) : breakMarks t = t := by
  induction t with
  | nil => rfl
  | cons c t ih =>
    have hplain : ¬(decide (c = '<') && completesMark t) = true := by
      rw [Bool.and_eq_true, decide_eq_true_eq]
      rintro ⟨rfl, hmark⟩
      exact h (breaksRawText_iff.mpr ⟨[], t, rfl, hmark⟩)
    have hlater : ¬BreaksRawText t := by
      rintro ⟨mark, hmark, hinfix⟩
      exact h ⟨mark, hmark, hinfix.trans (List.suffix_cons c t).isInfix⟩
    rw [breakMarks_cons, rawEntity, if_neg hplain, ih hlater, List.singleton_append]

/-- A text with a mark in it holds a close tag or the start of a comment. -/
theorem BreaksRawText.holds {t : Text} (h : BreaksRawText t) :
    holds "</".toList t = true ∨ holds "<!--".toList t = true := by
  obtain ⟨a, u, rfl, hmark⟩ := breaksRawText_iff.mp h
  rcases cases_of_completesMark hmark with ⟨v, rfl⟩ | ⟨v, rfl⟩
  · exact .inl (holds_iff.mpr ⟨a, v, by simp⟩)
  · exact .inr (holds_iff.mpr ⟨a, v, by simp⟩)

/-- It makes no difference that a text without close tags and comments is not gone through. -/
theorem escapeRawText_eq (t : Text) : escapeRawText t = breakMarks t := by
  unfold escapeRawText
  split
  · rfl
  · next hnot =>
    rw [Bool.or_eq_true] at hnot
    exact (breakMarks_of_not_breaksRawText (mt BreaksRawText.holds hnot)).symm

theorem escapeRawText_of_ne {c : Char} (hc : c ≠ '<') (t : Text) :
    escapeRawText (c :: t) = c :: escapeRawText t := by
  rw [escapeRawText_eq, escapeRawText_eq, breakMarks_of_ne hc]

theorem escapeRawText_cons (c : Char) (t : Text) :
    escapeRawText (c :: t) = rawEntity c t ++ escapeRawText t := by
  rw [escapeRawText_eq, escapeRawText_eq, breakMarks_cons]

/-- What the escaping makes of the first character does not depend on what stands before it. -/
theorem exists_escapeRawText_append (s t : Text) :
    ∃ a, escapeRawText (s ++ t) = a ++ escapeRawText t := by
  induction s with
  | nil => exact ⟨[], rfl⟩
  | cons c s ih =>
    obtain ⟨a, ha⟩ := ih
    exact ⟨rawEntity c (s ++ t) ++ a, by rw [List.cons_append, escapeRawText_cons, ha, List.append_assoc]⟩

theorem escapeRawText_of_not_mem {t : Text} (h : '<' ∉ t) : escapeRawText t = t := by
  induction t with
  | nil => rfl
  | cons c t ih =>
    obtain ⟨hc, ht⟩ := not_or.mp (mt List.mem_cons.mpr h)
    rw [escapeRawText_of_ne (Ne.symm hc), ih ht]

/-! ## Texts that cannot be told apart by the tail of a mark -/

/-- Both texts go on alike as long as neither a `<` nor a backslash is met. -/
def Alike (s t : Text) : Prop :=
  ∀ lead : Text, '<' ∉ lead → '\\' ∉ lead → startsLowered lead s = startsLowered lead t

theorem Alike.completesMark {s t : Text} (h : Alike s t) : completesMark s = completesMark t := by
  rw [Text.completesMark, Text.completesMark, Bool.eq_iff_iff, List.any_eq_true, List.any_eq_true]
  refine exists_congr fun tail => and_congr_right fun htail => ?_
  obtain ⟨hbracket, hslash⟩ := ne_of_mem_markTails htail
  rw [h tail hbracket hslash]

theorem Alike.cons {s t : Text} (h : Alike s t) (c : Char) : Alike (c :: s) (c :: t) := by
  intro lead hbracket hslash
  cases lead with
  | nil => rfl
  | cons l lead =>
    simp only [List.mem_cons, not_or] at hbracket hslash
    rw [startsLowered, startsLowered, h lead hbracket.2 hslash.2]

theorem Alike.append_left {s t : Text} (h : Alike s t) (u : Text) : Alike (u ++ s) (u ++ t) := by
  induction u with
  | nil => exact h
  | cons c u ih => exact ih.cons c

/-- A `<` or a backslash goes on with nothing that could matter. -/
theorem alike_stop {c d : Char} (hc : c = '<' ∨ c = '\\') (hd : d = '<' ∨ d = '\\') (s t : Text) :
    Alike (c :: s) (d :: t) := by
  intro lead hbracket hslash
  cases lead with
  | nil => rfl
  | cons l lead =>
    simp only [List.mem_cons, not_or] at hbracket hslash
    have hstop : ∀ {c : Char}, c = '<' ∨ c = '\\' → (decide (l = c.toLower)) = false := by
      rintro c (rfl | rfl)
      · exact decide_eq_false (Ne.symm hbracket.1)
      · exact decide_eq_false (Ne.symm hslash.1)
    rw [startsLowered, startsLowered, hstop hc, hstop hd]
    rfl

/-- Escaping changes nothing before the first `<`. -/
theorem alike_escapeRawText_append {r r' : Text} (h : Alike r r') (t : Text) :
    Alike (escapeRawText t ++ r) (t ++ r') := by
  induction t with
  | nil => exact h
  | cons c t ih =>
    by_cases hc : c = '<'
    · subst hc
      rw [escapeRawText_cons, rawEntity]
      split
      · split
        · exact alike_stop (.inr rfl) (.inl rfl) _ _
        · exact alike_stop (.inl rfl) (.inl rfl) _ _
      · exact alike_stop (.inl rfl) (.inl rfl) _ _
    · rw [escapeRawText_of_ne hc]
      exact ih.cons c

theorem alike_flatMap_escapeRawText (ts : List Text) :
    Alike (ts.flatMap escapeRawText) ts.flatten := by
  induction ts with
  | nil => exact fun _ _ _ => rfl
  | cons t ts ih => exact alike_escapeRawText_append ih t

/-! ## Seams -/

/-- What a `<` comes from that is left by the escaping of one character. -/
theorem cases_of_rawEntity {c : Char} {t a v : Text} (h : rawEntity c t = a ++ '<' :: v) :
    v = ['\\'] ∨ v = [] ∧ completesMark t = false ∧ c = '<' := by
  rw [rawEntity] at h
  split at h
  · split at h
    · have hmem : '<' ∈ a ++ '<' :: v := List.mem_append_right _ List.mem_cons_self
      rw [← h] at hmem
      exact absurd hmem (by decide)
    · cases a with
      | nil => exact .inl (List.cons.inj h).2.symm
      | cons b a =>
        rw [List.cons_append, List.cons.injEq] at h
        have hmem : '<' ∈ a ++ '<' :: v := List.mem_append_right _ List.mem_cons_self
        rw [← h.2] at hmem
        exact absurd hmem (by decide)
  · next hplain =>
    cases a with
    | nil =>
      obtain ⟨rfl, rfl⟩ := List.cons.inj h
      exact .inr ⟨rfl, by simpa using hplain, rfl⟩
    | cons b a => simp at h

/-- A backslash stops every mark. -/
theorem completesMark_backslash (t : Text) : completesMark ('\\' :: t) = false := by
  simp [completesMark, markTails, commentTail, startsLowered]

theorem completesMark_escapeRawText_append (t r : Text) :
    completesMark (escapeRawText t ++ r) = completesMark (t ++ r) :=
  (alike_escapeRawText_append (fun _ _ _ => rfl) t).completesMark

/-- A `<` that is left by the escaping of a text starts no mark in it; where more text makes it
start one, it stands in the text as it was, and so does all that follows it. -/
theorem bracket_of_escapeRawText {t a u : Text} (h : escapeRawText t = a ++ '<' :: u) :
    completesMark u = false ∧
      ∀ r, completesMark (u ++ r) = true → ∃ b, t = b ++ '<' :: u := by
  induction t generalizing a with
  | nil =>
    have hnil : escapeRawText [] = [] := rfl
    simp [hnil] at h
  | cons c t ih =>
    have hlater : ∀ a', escapeRawText t = a' ++ '<' :: u → completesMark u = false ∧
        ∀ r, completesMark (u ++ r) = true → ∃ b, c :: t = b ++ '<' :: u := by
      intro a' hrest
      obtain ⟨hu, hmore⟩ := ih hrest
      refine ⟨hu, fun r hr => ?_⟩
      obtain ⟨b, rfl⟩ := hmore r hr
      exact ⟨c :: b, rfl⟩
    rw [escapeRawText_cons] at h
    rcases List.append_eq_append_iff.mp h with ⟨a', -, hrest⟩ | ⟨_ | ⟨d, v⟩, hentity, hrest⟩
    · exact hlater _ hrest
    · exact hlater [] hrest.symm
    · rw [List.cons_append] at hrest
      obtain ⟨rfl, rfl⟩ := List.cons.inj hrest
      rcases cases_of_rawEntity hentity with rfl | ⟨rfl, hmark, rfl⟩
      · refine ⟨completesMark_backslash _, fun r hr => ?_⟩
        rw [List.append_assoc, List.cons_append, completesMark_backslash] at hr
        cases hr
      · refine ⟨?_, fun r hr => ⟨[], ?_⟩⟩
        · simpa [hmark] using completesMark_escapeRawText_append t []
        · rw [List.nil_append, completesMark_escapeRawText_append] at hr
          obtain ⟨tail, htail, rest, heq, -⟩ := lower_prefix_of_completesMark_append hr hmark
          simp [escapeRawText_of_not_mem (not_mem_of_lower_start htail heq)]

/-! ## Seams -/

theorem completesMark_append {t : Text} (h : completesMark t = true) (r : Text) :
    completesMark (t ++ r) = true := by
  obtain ⟨tail, htail, hpre⟩ := completesMark_iff.mp h
  refine completesMark_iff.mpr ⟨tail, htail, ?_⟩
  rw [lower, List.map_append]
  exact hpre.trans (List.prefix_append _ _)

/-- What is left of a mark before a seam is no mark. -/
theorem completesMark_of_lower_append {t rest : Text} (h : lower t ++ rest ∈ markTails)
    (hrest : rest ≠ []) : completesMark t = false := by
  rw [Bool.eq_false_iff]
  intro hmark
  obtain ⟨tail, htail, hpre⟩ := completesMark_iff.mp hmark
  have hapart : ∀ tail ∈ markTails, ∀ tail' ∈ markTails, tail <+: tail' → tail = tail' := by decide
  have heq := hapart tail htail _ h (hpre.trans (List.prefix_append _ _))
  have hlen := hpre.length_le
  rw [heq, List.length_append] at hlen
  exact hrest (List.length_eq_zero_iff.mp (by omega))

/-- A `<` in what several texts become stands in what one of them becomes. -/
theorem exists_bracket_of_flatMap {ts : List Text} {a u : Text}
    (h : ts.flatMap escapeRawText = a ++ '<' :: u) :
    ∃ xs t ys, ts = xs ++ t :: ys ∧ ∃ a' v, escapeRawText t = a' ++ '<' :: v ∧
      u = v ++ ys.flatMap escapeRawText := by
  induction ts generalizing a with
  | nil => simp at h
  | cons t ts ih =>
    have hlater : ∀ a', ts.flatMap escapeRawText = a' ++ '<' :: u →
        ∃ xs t' ys, t :: ts = xs ++ t' :: ys ∧ ∃ a' v, escapeRawText t' = a' ++ '<' :: v ∧
          u = v ++ ys.flatMap escapeRawText := by
      intro a' hrest
      obtain ⟨xs, t', ys, rfl, hbracket⟩ := ih hrest
      exact ⟨t :: xs, t', ys, rfl, hbracket⟩
    rw [List.flatMap_cons] at h
    rcases List.append_eq_append_iff.mp h with ⟨a', -, hrest⟩ | ⟨_ | ⟨c, v⟩, ht, hrest⟩
    · exact hlater _ hrest
    · exact hlater [] hrest.symm
    · rw [List.cons_append] at hrest
      obtain ⟨rfl, rfl⟩ := List.cons.inj hrest
      exact ⟨[], t, ts, rfl, a, v, ht, rfl⟩

/-- The last `<` of several texts is left as it is when it starts no mark in them. -/
theorem flatMap_escapeRawText_of_bracket {ts : List Text} {b u : Text}
    (h : ts.flatten = b ++ '<' :: u) (hlast : '<' ∉ u) (hmark : completesMark u = false) :
    ∃ a, ts.flatMap escapeRawText = a ++ '<' :: u := by
  induction ts generalizing b with
  | nil => simp at h
  | cons t ts ih =>
    rw [List.flatMap_cons]
    have hlater : ∀ b', ts.flatten = b' ++ '<' :: u →
        ∃ a, escapeRawText t ++ ts.flatMap escapeRawText = a ++ '<' :: u := by
      intro b' hrest
      obtain ⟨a, ha⟩ := ih hrest
      exact ⟨escapeRawText t ++ a, by rw [ha, List.append_assoc]⟩
    rw [List.flatten_cons] at h
    rcases List.append_eq_append_iff.mp h with ⟨b', -, hrest⟩ | ⟨_ | ⟨c, v⟩, rfl, hrest⟩
    · exact hlater _ hrest
    · exact hlater [] hrest.symm
    · rw [List.cons_append] at hrest
      obtain ⟨rfl, rfl⟩ := List.cons.inj hrest
      have hv : completesMark v = false := by
        rw [Bool.eq_false_iff]
        intro hv
        simp [completesMark_append hv] at hmark
      obtain ⟨hlastv, hlastr⟩ := not_or.mp (mt List.mem_append.mpr hlast)
      have hrest : ts.flatMap escapeRawText = ts.flatten := by
        rw [List.flatMap_def, ← List.map_id ts, List.map_map]
        refine congrArg List.flatten (List.map_congr_left fun t ht => ?_)
        exact escapeRawText_of_not_mem fun hmem => hlastr (List.mem_flatten_of_mem ht hmem)
      obtain ⟨a, ha⟩ := exists_escapeRawText_append b ('<' :: v)
      refine ⟨a, ?_⟩
      rw [ha, escapeRawText_cons, rawEntity, hv, escapeRawText_of_not_mem hlastv, hrest]
      simp

/-- Texts escaped one by one hold a mark together exactly when one stands across a seam between
the texts as they were. -/
theorem breaksRawText_flatMap_escapeRawText (ts : List Text) :
    BreaksRawText (ts.flatMap escapeRawText) ↔ Straddled ts := by
  rw [breaksRawText_iff]
  constructor
  · rintro ⟨a, u, h, hmark⟩
    obtain ⟨xs, t, ys, rfl, a', v, ht, rfl⟩ := exists_bracket_of_flatMap h
    have hseam : completesMark (v ++ ys.flatten) = true :=
      ((alike_flatMap_escapeRawText ys).append_left v).completesMark ▸ hmark
    obtain ⟨hv, hmore⟩ := bracket_of_escapeRawText ht
    obtain ⟨b, rfl⟩ := hmore _ hmark
    obtain ⟨_, htail, rest, rfl, hrest, hpre⟩ := lower_prefix_of_completesMark_append hseam hv
    refine ⟨xs ++ [b ++ '<' :: v], ys, xs.flatten ++ b, '<' :: v, ys.flatten.take rest.length,
      ys.flatten.drop rest.length, by simp, by simp, by simp, by simp, ?_, ?_⟩
    · rw [List.prefix_iff_eq_take] at hpre
      intro hnil
      apply hrest
      rw [hpre, lower, ← List.map_take, hnil, List.map_nil]
    · refine isRawTextMark_iff.mpr ⟨v ++ ys.flatten.take rest.length, rfl, ?_⟩
      rw [List.prefix_iff_eq_take, lower, ← List.map_take] at hpre
      rw [lower, List.map_append, ← hpre]
      exact htail
  · rintro ⟨xs, ys, before, left, right, after, rfl, hxs, hys, hleft, hright, hmark⟩
    cases left with
    | nil => contradiction
    | cons c v =>
      obtain ⟨u, heq, hu⟩ := isRawTextMark_iff.mp hmark
      rw [List.cons_append] at heq
      obtain ⟨rfl, rfl⟩ := List.cons.inj heq
      have hsplit : lower (v ++ right) = lower v ++ lower right := List.map_append
      rw [hsplit] at hu
      have hv : completesMark v = false :=
        completesMark_of_lower_append hu (by simpa [lower] using hright)
      obtain ⟨a, ha⟩ := flatMap_escapeRawText_of_bracket hxs (not_mem_of_lower_start hu rfl) hv
      refine ⟨a, v ++ ys.flatMap escapeRawText, by simp [ha], ?_⟩
      rw [((alike_flatMap_escapeRawText ys).append_left v).completesMark, hys, ← List.append_assoc]
      refine completesMark_append (completesMark_iff.mpr ⟨_, hu, ?_⟩) after
      exact ⟨[], by rw [List.append_nil, hsplit]⟩

/-- One escaped text holds no mark. -/
theorem not_breaksRawText_escapeRawText (t : Text) : ¬BreaksRawText (escapeRawText t) := by
  rw [breaksRawText_iff]
  rintro ⟨a, u, h, hmark⟩
  simp [(bracket_of_escapeRawText h).1] at hmark

end Text

end LiveMarkup
