import LiveMarkup.Proofs.Escape.RawText

/-!
# Marks broken up

A text for the body of a script or style element is changed where a mark stands in it and nowhere
else. Marks do not overlap, since only the first character of a mark is a `<`; so a text can be cut
into segments of which each mark is one (`CutAtMarks`), and escaping it is going from segment to
segment and breaking up those that are marks (`escape_rawText_exact`).
-/

namespace LiveMarkup

namespace Text

variable {s t u before after mark segment : Text} {segments : List Text}

/-! ## Where marks stand -/

theorem not_mem_tail (h : IsRawTextMark ('<' :: u)) : '<' ∉ u := by
  obtain ⟨v, heq, htail⟩ := isRawTextMark_iff.mp h
  obtain ⟨-, rfl⟩ := List.cons.inj heq
  exact not_mem_of_lower_start htail (List.append_nil _).symm

/-- Only one mark starts at a place. -/
theorem eq_of_marks {other : Text} (hmark : IsRawTextMark mark) (hother : IsRawTextMark other)
    (h : mark ++ s = other ++ t) : mark = other := by
  have hapart : ∀ m ∈ rawTextMarks, ∀ m' ∈ rawTextMarks, m <+: m' → m = m' := by decide
  have hone : ∀ {m m' : Text}, IsRawTextMark m → IsRawTextMark m' → m <+: m' → m = m' := by
    intro m m' hm hm' hpre
    have hlower : lower m = lower m' := hapart _ hm _ hm' (hpre.map Char.toLower)
    have hlength : m.length = m'.length := by simpa [lower] using congrArg List.length hlower
    exact hpre.eq_of_length hlength
  have hpre : mark <+: other ++ t := h ▸ List.prefix_append mark s
  rcases List.prefix_or_prefix_of_prefix hpre (List.prefix_append other t) with hle | hge
  · exact hone hmark hother hle
  · exact (hone hother hmark hge).symm

/-- A mark in a text that starts with one is this one, or it stands behind it. -/
theorem cases_of_mark {other : Text} (hmark : IsRawTextMark mark) (hother : IsRawTextMark other)
    (h : mark ++ t = before ++ (other ++ after)) :
    before = [] ∧ other = mark ∨ ∃ b, before = mark ++ b := by
  cases before with
  | nil => exact .inl ⟨rfl, (eq_of_marks hmark hother h).symm⟩
  | cons c b =>
    right
    obtain ⟨u, rfl, -⟩ := isRawTextMark_iff.mp hmark
    obtain ⟨v, rfl, -⟩ := isRawTextMark_iff.mp hother
    rw [List.cons_append, List.cons_append] at h
    obtain ⟨rfl, hbehind⟩ := List.cons.inj h
    rcases List.append_eq_append_iff.mp hbehind with ⟨w, rfl, -⟩ | ⟨_ | ⟨d, w⟩, rfl, hrest⟩
    · exact ⟨w, rfl⟩
    · exact ⟨[], by simp⟩
    · rw [List.cons_append, List.cons_append] at hrest
      obtain ⟨rfl, -⟩ := List.cons.inj hrest
      exact absurd (List.mem_append_right b List.mem_cons_self) (not_mem_tail hmark)

/-! ## Segments -/

/-- The segments make up the text, and each mark in the text is one of them. -/
structure CutAtMarks (t : Text) (segments : List Text) : Prop where
  flatten : segments.flatten = t
  mark : ∀ before mark after, t = before ++ (mark ++ after) → IsRawTextMark mark →
    ∃ xs ys, segments = xs ++ mark :: ys ∧ xs.flatten = before

theorem CutAtMarks.cons (hcut : CutAtMarks t segments)
    (hfirst : ∀ before mark after, segment ++ t = before ++ (mark ++ after) → IsRawTextMark mark →
      before = [] ∧ mark = segment ∨ ∃ b, before = segment ++ b) :
    CutAtMarks (segment ++ t) (segment :: segments) where
  flatten := by rw [List.flatten_cons, hcut.flatten]
  mark before mark after heq hmark := by
    rcases hfirst before mark after heq hmark with ⟨rfl, rfl⟩ | ⟨b, rfl⟩
    · exact ⟨[], segments, rfl, rfl⟩
    · rw [List.append_assoc] at heq
      obtain ⟨xs, ys, rfl, rfl⟩ := hcut.mark b mark after (List.append_cancel_left heq) hmark
      exact ⟨segment :: xs, ys, rfl, rfl⟩

/-- The segments behind the first one cut the rest of the text. -/
theorem CutAtMarks.tail (hcut : CutAtMarks t (segment :: segments)) :
    CutAtMarks segments.flatten segments where
  flatten := rfl
  mark before mark after heq hmark := by
    have hwhole : t = (segment ++ before) ++ (mark ++ after) := by
      rw [← hcut.flatten, List.flatten_cons, heq, List.append_assoc]
    obtain ⟨xs, ys, hsegments, hflatten⟩ := hcut.mark _ mark after hwhole hmark
    cases xs with
    | nil =>
      obtain ⟨rfl, -⟩ := List.cons.inj hsegments
      obtain ⟨u, rfl, -⟩ := isRawTextMark_iff.mp hmark
      cases hflatten
    | cons x xs =>
      rw [List.cons_append] at hsegments
      obtain ⟨rfl, rfl⟩ := List.cons.inj hsegments
      exact ⟨xs, ys, rfl, List.append_cancel_left hflatten⟩

theorem exists_cutAtMarks (t : Text) : ∃ segments, CutAtMarks t segments := by
  induction hn : t.length using Nat.strongRecOn generalizing t with
  | ind n ih =>
    subst hn
    cases t with
    | nil =>
      refine ⟨[], rfl, fun before mark after heq hmark => ?_⟩
      obtain ⟨u, rfl, -⟩ := isRawTextMark_iff.mp hmark
      simp at heq
    | cons c t =>
      by_cases hstart : ∃ mark rest, IsRawTextMark mark ∧ c :: t = mark ++ rest
      · obtain ⟨mark, rest, hmark, heq⟩ := hstart
        have hshorter : rest.length < (c :: t).length := by
          obtain ⟨u, rfl, -⟩ := isRawTextMark_iff.mp hmark
          rw [heq, List.length_append, List.length_cons]
          omega
        obtain ⟨segments, hcut⟩ := ih _ hshorter rest rfl
        rw [heq]
        exact ⟨mark :: segments, hcut.cons fun _ _ _ h hother => cases_of_mark hmark hother h⟩
      · obtain ⟨segments, hcut⟩ := ih _ (Nat.lt_succ_self _) t rfl
        have hlater : CutAtMarks ([c] ++ t) ([c] :: segments) := by
          refine hcut.cons fun before mark after heq hmark => .inr ?_
          cases before with
          | nil => exact absurd ⟨mark, after, hmark, heq⟩ hstart
          | cons d b =>
            obtain ⟨rfl, -⟩ := List.cons.inj heq
            exact ⟨b, rfl⟩
        exact ⟨_, hlater⟩

/-! ## Breaking up -/

/-- A mark broken up: the start of a comment gets the code of its first character in place of it,
and the start of a close tag a backslash in front of the slash. Any other segment stays. -/
def broken (segment : Text) : Text :=
  if IsRawTextMark segment then
    if segment = "<!--".toList then "\\x3C!--".toList else "<\\/".toList ++ segment.drop 2
  else segment

/-- A stretch in which no mark begins is left as it is. -/
theorem breakMarks_append (h : ∀ a b, s = a ++ '<' :: b → completesMark (b ++ t) = false) :
    breakMarks (s ++ t) = s ++ breakMarks t := by
  induction s with
  | nil => rfl
  | cons c s ih =>
    have hplain : rawEntity c (s ++ t) = [c] := by
      unfold rawEntity
      rw [if_neg]
      rw [Bool.and_eq_true, decide_eq_true_eq]
      rintro ⟨rfl, hmark⟩
      rw [h [] s rfl] at hmark
      cases hmark
    have hlater := ih fun a b hs => h (c :: a) b (by rw [hs, List.cons_append])
    rw [List.cons_append, breakMarks_cons, hplain, hlater, List.singleton_append, List.cons_append]

/-- A mark is broken up and what follows it is gone through as a text of its own. -/
theorem breakMarks_mark (hmark : IsRawTextMark mark) (t : Text) :
    breakMarks (mark ++ t) = broken mark ++ breakMarks t := by
  have hbroken : broken mark =
      if mark = "<!--".toList then "\\x3C!--".toList else "<\\/".toList ++ mark.drop 2 := if_pos hmark
  obtain ⟨u, rfl, hu⟩ := isRawTextMark_iff.mp hmark
  have hrest : breakMarks (u ++ t) = u ++ breakMarks t := by
    refine breakMarks_append fun a b heq => ?_
    exact absurd (heq ▸ List.mem_append_right a List.mem_cons_self) (not_mem_tail hmark)
  have hcompletes : completesMark u = true := completesMark_iff.mpr ⟨_, hu, List.prefix_refl _⟩
  have hentity : rawEntity '<' (u ++ t) =
      if startsLowered commentTail (u ++ t) then "\\x3C".toList else ['<', '\\'] := by
    unfold rawEntity
    rw [completesMark_append hcompletes]
    rfl
  rw [List.cons_append, breakMarks_cons, hentity, hrest, hbroken, ← List.append_assoc]
  congr 1
  rcases cases_of_completesMark hcompletes with ⟨v, rfl⟩ | ⟨v, rfl⟩
  · have hcomment : '<' :: '/' :: v ≠ "<!--".toList := by simp
    rw [if_neg hcomment]
    rfl
  · have hv : v = [] := by simpa [markTails, commentTail, lower] using hu
    subst hv
    rfl

/-- A text that is cut at its marks is gone through segment by segment. -/
theorem CutAtMarks.breakMarks_eq (hcut : CutAtMarks t segments) :
    breakMarks t = segments.flatMap broken := by
  induction segments generalizing t with
  | nil =>
    obtain rfl := hcut.flatten
    rfl
  | cons segment segments ih =>
    rw [← hcut.flatten, List.flatten_cons, List.flatMap_cons, ← ih hcut.tail]
    by_cases hmark : IsRawTextMark segment
    · exact breakMarks_mark hmark _
    · have hself : broken segment = segment := if_neg hmark
      rw [hself]
      refine breakMarks_append fun a b heq => Bool.eq_false_iff.mpr fun hcompletes => hmark ?_
      obtain ⟨mark, after, hstart, hafter⟩ := exists_mark hcompletes
      -- a mark that began in the segment would have to be a segment that begins there
      have hwhole : t = a ++ (mark ++ after) := by
        rw [← hcut.flatten, List.flatten_cons, heq, List.append_assoc, List.cons_append, hafter]
      obtain ⟨xs, ys, hsegments, hflatten⟩ := hcut.mark a mark after hwhole hstart
      cases xs with
      | nil =>
        obtain ⟨rfl, -⟩ := List.cons.inj hsegments
        exact hstart
      | cons x xs =>
        rw [List.cons_append] at hsegments
        obtain ⟨rfl, -⟩ := List.cons.inj hsegments
        have hlength := congrArg List.length heq
        rw [← hflatten, List.flatten_cons] at hlength
        simp only [List.length_append, List.length_cons] at hlength
        omega

/-! ## Script and style bodies -/

/-- Escaping for the body of a script or style element is complete and changes no more than it
must. However a text is cut at its marks, and it can be, each mark is broken up and what is between
the marks stays. What comes of it holds no mark and is not changed by escaping it once more, and
what is given back unchanged is what going through it would have given. -/
theorem escape_rawText_exact (s : Text) :
    (∃ segments, CutAtMarks s segments) ∧
    (∀ segments, CutAtMarks s segments → escape .rawText s = segments.flatMap broken) ∧
    ¬BreaksRawText (escape .rawText s) ∧
    escape .rawText (escape .rawText s) = escape .rawText s ∧
    escape .rawText s = breakMarks s := by
  have hescape : ∀ t, escape .rawText t = breakMarks t := escapeRawText_eq
  have hunbroken : ¬BreaksRawText (escape .rawText s) := not_breaksRawText_escapeRawText s
  refine ⟨exists_cutAtMarks s, fun segments hcut => ?_, hunbroken, ?_, hescape s⟩
  · rw [hescape, hcut.breakMarks_eq]
  · rw [hescape (escape .rawText s), breakMarks_of_not_breaksRawText hunbroken]

/-- Candidates that run into each other: two that are none, a close tag and a comment. -/
theorem escape_rawText_exact_crowded : ∃ segments,
    CutAtMarks "</<</ScRiPt<!--é".toList segments ∧
      segments.flatMap broken = "</<<\\/ScRiPt\\x3C!--é".toList := by
  obtain ⟨⟨segments, hcut⟩, hbroken, -⟩ := escape_rawText_exact "</<</ScRiPt<!--é".toList
  refine ⟨segments, hcut, ?_⟩
  rw [← hbroken segments hcut]
  decide

end Text

end LiveMarkup
