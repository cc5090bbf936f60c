import LiveMarkup.Proofs.Template.Leads
import LiveMarkup.Proofs.Text.Pattern

/-!
# The pattern of an open attribute

The attribute that a fragment ends in is specified by a pattern. The scanner takes runs that are as
long as they can be and never tries again; a search for the pattern may try all sorts of runs. Both
come to the same (`ofText?_leftmost`), because every run of the pattern has to end where the scanner
ends it: no character of a name is a space or an equals sign, no character of a value without quotes
is a space or a quote, and no quoted value holds its quote.
-/

namespace LiveMarkup.OpenAttribute

/-! ## The pattern -/

/-- `[ \t\n\f\r]` -/
def spaceClass : CharClass := .only [' ', '\t', '\n', '\x0C', '\r']

/-- `[^\0-\x1F\x7F-\x9F "'>=/]` -/
def nameClass : CharClass where
  ranges := [('\x00', '\x1F'), ('\x7F', '\x9F'), (' ', ' '), ('"', '"'), ('\'', '\''), ('>', '>'),
    ('=', '='), ('/', '/')]
  negated := true

/-- ``[^ \t\n\f\r"'`<>=]`` -/
def unquotedClass : CharClass :=
  .except [' ', '\t', '\n', '\x0C', '\r', '"', '\'', '\x60', '<', '>', '=']

/-- `[ \t\n\f\r]*=[ \t\n\f\r]*` -/
def equalsPattern : Pattern :=
  .seq (.many (.one spaceClass)) (.seq (.one (.only ['='])) (.many (.one spaceClass)))

/-- A value without quotes. -/
def unquotedPattern : Pattern := .many (.one unquotedClass)

/-- A value behind the quote `q`, which is not closed. -/
def quotedPattern (q : Char) : Pattern := .seq (.one (.only [q])) (.many (.one (.except [q])))

/-- ``(?:[^ \t\n\f\r"'`<>=]*|"[^"]*|'[^']*)`` -/
def valuePattern : Pattern := .or unquotedPattern (.or (quotedPattern '"') (quotedPattern '\''))

/-- The equals sign of an attribute and the beginning of its value. -/
def suffixPattern : Pattern := .seq equalsPattern valuePattern

/-- The space in front of an attribute, its name, and the equals sign with what follows, up to the
end of the text. -/
def attributePattern : Pattern :=
  .seq (.group (.one spaceClass)) (.seq (.group (.plus (.one nameClass)))
    (.seq (.group suffixPattern) .atEnd))

/-! ## What the pattern takes -/

theorem holds_spaceClass {c : Char} : spaceClass.holds c = true ↔ Text.isSpace c = true := by
  rw [spaceClass, CharClass.holds_only]
  simp [Text.isSpace, or_assoc]

theorem holds_nameClass {c : Char} : nameClass.holds c = true ↔ isNameChar c = true := by
  simp only [nameClass, CharClass.holds, List.any_cons, List.any_nil, Bool.true_bne,
    CharClass.inRange_self, Bool.or_false, isNameChar, Bool.or_assoc]
  rfl

theorem holds_unquotedClass {c : Char} :
    unquotedClass.holds c = true ↔ isUnquotedChar c = true := by
  rw [unquotedClass, CharClass.holds_except]
  simp [isUnquotedChar, Text.isSpace, and_assoc]

variable {t rest name suffix value gap inner : Text} {gs : List Text} {q : Char}

theorem takes_equalsPattern_iff : equalsPattern.Takes t rest gs ↔
    ∃ gap gap', t = gap ++ '=' :: gap' ∧ gs = [] ∧ (∀ c ∈ gap, Text.isSpace c = true) ∧
      ∀ c ∈ gap', Text.isSpace c = true := by
  simp only [equalsPattern, Pattern.takes_seq_iff, Pattern.takes_many_one_iff,
    Pattern.takes_one_iff, CharClass.holds_only, List.mem_singleton, holds_spaceClass]
  constructor
  · rintro ⟨gap, v, gs₁, gs₂, rfl, rfl, ⟨hgap, rfl⟩, u, gap', gs₃, gs₄, rfl, rfl,
      ⟨c, rfl, rfl, rfl⟩, hgap', rfl⟩
    exact ⟨gap, gap', rfl, rfl, hgap, hgap'⟩
  · rintro ⟨gap, gap', rfl, rfl, hgap, hgap'⟩
    exact ⟨gap, '=' :: gap', [], [], rfl, rfl, ⟨hgap, rfl⟩, ['='], gap', [], [], rfl, rfl,
      ⟨'=', rfl, rfl, rfl⟩, hgap', rfl⟩

theorem takes_unquotedPattern_iff : unquotedPattern.Takes t rest gs ↔
    (∀ c ∈ t, isUnquotedChar c = true) ∧ gs = [] := by
  simp only [unquotedPattern, Pattern.takes_many_one_iff, holds_unquotedClass]

theorem takes_quotedPattern_iff : (quotedPattern q).Takes t rest gs ↔
    ∃ inner, t = q :: inner ∧ q ∉ inner ∧ gs = [] := by
  simp only [quotedPattern, Pattern.takes_seq_iff, Pattern.takes_one_iff,
    Pattern.takes_many_one_iff, CharClass.holds_only, CharClass.holds_except, List.mem_singleton]
  constructor
  · rintro ⟨u, inner, gs₁, gs₂, rfl, rfl, ⟨c, rfl, rfl, rfl⟩, hinner, rfl⟩
    exact ⟨inner, rfl, fun hmem => hinner _ hmem rfl, rfl⟩
  · rintro ⟨inner, rfl, hmem, rfl⟩
    exact ⟨[q], inner, [], [], rfl, rfl, ⟨q, rfl, rfl, rfl⟩, fun c hc heq => hmem (heq ▸ hc), rfl⟩

/-- A value is one that begins with a quote and does not close it, or one without quotes. -/
theorem takes_valuePattern_iff : valuePattern.Takes t rest gs ↔
    gs = [] ∧ ((∃ q inner, t = q :: inner ∧ (q = '"' ∨ q = '\'') ∧ q ∉ inner) ∨
      ∀ c ∈ t, isUnquotedChar c = true) := by
  simp only [valuePattern, Pattern.takes_or_iff, takes_unquotedPattern_iff,
    takes_quotedPattern_iff]
  constructor
  · rintro (⟨hall, rfl⟩ | ⟨inner, rfl, hmem, rfl⟩ | ⟨inner, rfl, hmem, rfl⟩)
    · exact ⟨rfl, .inr hall⟩
    · exact ⟨rfl, .inl ⟨'"', inner, rfl, .inl rfl, hmem⟩⟩
    · exact ⟨rfl, .inl ⟨'\'', inner, rfl, .inr rfl, hmem⟩⟩
  · rintro ⟨rfl, ⟨q, inner, rfl, rfl | rfl, hmem⟩ | hall⟩
    · exact .inr (.inl ⟨inner, rfl, hmem, rfl⟩)
    · exact .inr (.inr ⟨inner, rfl, hmem, rfl⟩)
    · exact .inl ⟨hall, rfl⟩

theorem takes_suffixPattern_iff : suffixPattern.Takes t rest gs ↔ gs = [] ∧
    ∃ gap gap' value, t = gap ++ '=' :: (gap' ++ value) ∧ (∀ c ∈ gap, Text.isSpace c = true) ∧
      (∀ c ∈ gap', Text.isSpace c = true) ∧
      ((∃ q inner, value = q :: inner ∧ (q = '"' ∨ q = '\'') ∧ q ∉ inner) ∨
        ∀ c ∈ value, isUnquotedChar c = true) := by
  simp only [suffixPattern, Pattern.takes_seq_iff, takes_equalsPattern_iff, takes_valuePattern_iff]
  constructor
  · rintro ⟨_, value, _, _, rfl, rfl, ⟨gap, gap', rfl, rfl, hgap, hgap'⟩, rfl, hvalue⟩
    exact ⟨rfl, gap, gap', value, by simp, hgap, hgap', hvalue⟩
  · rintro ⟨rfl, gap, gap', value, rfl, hgap, hgap', hvalue⟩
    exact ⟨gap ++ '=' :: gap', value, [], [], by simp, rfl, ⟨gap, gap', rfl, rfl, hgap, hgap'⟩, rfl,
      hvalue⟩

/-- What follows a name as far as the pattern goes follows it as far as the scanner goes. -/
theorem split?_iff : split? (name ++ suffix) = some (name, suffix) ↔
    IsKey name ∧ suffixPattern.Takes suffix [] [] := by
  rw [takes_suffixPattern_iff]
  constructor
  · intro h
    obtain ⟨hname, gap, gap', value, htext, hgap, hgap', -, hopen⟩ := exists_of_split? h
    exact ⟨hname, rfl, gap, gap', value, List.append_cancel_left htext, hgap, hgap',
      cases_of_isOpenValue hopen⟩
  · rintro ⟨hname, -, gap, gap', value, rfl, hgap, hgap', hvalue⟩
    have hopen : Text.Stops Text.isSpace value ∧ isOpenValue value = true := by
      rcases hvalue with ⟨q, inner, rfl, hq, hmem⟩ | hall
      · exact ⟨stops_isSpace_quoted hq, isOpenValue_quoted hq hmem⟩
      · exact ⟨fun c hc => isSpace_of_isUnquotedChar (hall c (List.mem_of_mem_head? hc)),
          isOpenValue_unquoted hall⟩
    have hfound := ofText?_attribute (by decide : Text.isSpace ' ' = true) hname hgap hgap' hopen.1
      hopen.2
    exact (eq_append_of_ofText? hfound).2.2

/-- The groups of the pattern are a space, a name and a suffix as the scanner finds them, and they
reach to the end of the text. -/
theorem takes_attributePattern_iff : attributePattern.Takes t rest gs ↔ rest = [] ∧
    ∃ leading name suffix, t = leading :: (name ++ suffix) ∧ Text.isSpace leading = true ∧
      split? (name ++ suffix) = some (name, suffix) ∧ gs = [[leading], name, suffix] := by
  constructor
  · intro h
    obtain ⟨_, _, _, _, rfl, rfl, hspace, h⟩ := Pattern.takes_seq_iff.mp h
    obtain ⟨_, _, _, _, rfl, rfl, hname, h⟩ := Pattern.takes_seq_iff.mp h
    obtain ⟨suffix, _, _, _, rfl, rfl, hsuffix, hend⟩ := Pattern.takes_seq_iff.mp h
    obtain ⟨rfl, rfl, rfl⟩ := Pattern.takes_atEnd_iff.mp hend
    obtain ⟨_, rfl, hone⟩ := Pattern.takes_group_iff.mp hspace
    obtain ⟨leading, hleading, rfl, rfl⟩ := Pattern.takes_one_iff.mp hone
    obtain ⟨_, rfl, hplus⟩ := Pattern.takes_group_iff.mp hname
    obtain ⟨hne, hchars, rfl⟩ := Pattern.takes_plus_one_iff.mp hplus
    obtain ⟨_, rfl, htakes⟩ := Pattern.takes_group_iff.mp hsuffix
    obtain ⟨rfl, -⟩ := takes_suffixPattern_iff.mp htakes
    have hkey : IsKey _ := ⟨hne, fun c hc => holds_nameClass.mp (hchars c hc)⟩
    exact ⟨rfl, leading, _, suffix, by simp, holds_spaceClass.mp hleading,
      split?_iff.mpr ⟨hkey, htakes⟩, rfl⟩
  · rintro ⟨rfl, leading, name, suffix, rfl, hleading, hsplit, rfl⟩
    obtain ⟨hkey, hsuffix⟩ := split?_iff.mp hsplit
    have hname : (Pattern.one nameClass).plus.Takes name (suffix ++ []) [] :=
      Pattern.takes_plus_one_iff.mpr
        ⟨hkey.ne_nil, fun c hc => holds_nameClass.mpr (hkey.chars c hc), rfl⟩
    have hrest := Pattern.Takes.seq (.group hname)
      (by simpa using Pattern.Takes.seq (.group hsuffix) .atEnd)
    exact .seq (.group (.one (holds_spaceClass.mpr hleading))) hrest

/-- The pattern matches behind `before` where the scanner finds an attribute there. -/
theorem matchesAt_attributePattern_iff {before : Text} {groups : List Text} :
    attributePattern.MatchesAt t before groups ↔ ∃ leading name suffix,
      t = before ++ leading :: (name ++ suffix) ∧ Text.isSpace leading = true ∧
        split? (name ++ suffix) = some (name, suffix) ∧ groups = [[leading], name, suffix] := by
  constructor
  · rintro ⟨taken, rest, rfl, h⟩
    obtain ⟨rfl, leading, name, suffix, rfl, hfound⟩ := takes_attributePattern_iff.mp h
    exact ⟨leading, name, suffix, by simp, hfound⟩
  · rintro ⟨leading, name, suffix, rfl, hfound⟩
    exact ⟨leading :: (name ++ suffix), [], by simp,
      takes_attributePattern_iff.mpr ⟨rfl, leading, name, suffix, rfl, hfound⟩⟩

/-! ## The leftmost match -/

/-- Where a space is followed by an attribute up to the end, one is found there or before. -/
theorem exists_ofText? {before rest : Text} {leading : Char} {found : Text × Text}
    (hleading : Text.isSpace leading = true) (hsplit : split? rest = some found) :
    ∃ a, ofText? (before ++ leading :: rest) = some a ∧ a.before.length ≤ before.length := by
  induction before with
  | nil =>
    rw [List.nil_append, ofText?, if_pos hleading, hsplit]
    exact ⟨_, rfl, Nat.le_refl _⟩
  | cons c before ih =>
    obtain ⟨a, ha, hle⟩ := ih
    have hlater : ∃ a', (ofText? (before ++ leading :: rest)).map
        (fun a => { a with before := c :: a.before }) = some a' ∧
        a'.before.length ≤ (c :: before).length := by
      rw [ha]
      exact ⟨_, rfl, Nat.succ_le_succ hle⟩
    rw [List.cons_append, ofText?]
    split
    · split
      · exact ⟨_, rfl, Nat.zero_le _⟩
      · exact hlater
    · exact hlater

/-- What is found is a match of the pattern. -/
theorem matchesAt_of_ofText? {a : OpenAttribute} (h : ofText? t = some a) :
    attributePattern.MatchesAt t a.before [[a.leading], a.name, a.suffix] :=
  have hfound := eq_append_of_ofText? h
  matchesAt_attributePattern_iff.mpr ⟨_, _, _, hfound.1, hfound.2.1, hfound.2.2, rfl⟩

/-- A match of the pattern begins where an attribute is found, or later. -/
theorem exists_of_matchesAt {before : Text} {groups : List Text}
    (h : attributePattern.MatchesAt t before groups) :
    ∃ a, ofText? t = some a ∧ a.before.length ≤ before.length := by
  obtain ⟨leading, name, suffix, rfl, hleading, hsplit, -⟩ := matchesAt_attributePattern_iff.mp h
  exact exists_ofText? hleading hsplit

/-- Two matches that begin at the same place keep the same. -/
theorem matchesAt_unique {before before' : Text} {groups groups' : List Text}
    (h : attributePattern.MatchesAt t before groups)
    (h' : attributePattern.MatchesAt t before' groups') (hlength : before.length = before'.length) :
    before = before' ∧ groups = groups' := by
  obtain ⟨leading, name, suffix, rfl, -, hsplit, rfl⟩ := matchesAt_attributePattern_iff.mp h
  obtain ⟨leading', name', suffix', htext, -, hsplit', rfl⟩ := matchesAt_attributePattern_iff.mp h'
  obtain ⟨rfl, hbehind⟩ := List.append_inj htext hlength
  obtain ⟨rfl, hrest⟩ := List.cons.inj hbehind
  rw [hrest, hsplit', Option.some.injEq, Prod.mk.injEq] at hsplit
  obtain ⟨rfl, rfl⟩ := hsplit
  exact ⟨rfl, rfl⟩

/-- What is found is the leftmost match, and there is no other one. -/
theorem isLeftmost_iff {a : OpenAttribute} (h : ofText? t = some a) {before : Text}
    {groups : List Text} : attributePattern.IsLeftmost t before groups ↔
      before = a.before ∧ groups = [[a.leading], a.name, a.suffix] := by
  have hfirst {before' : Text} {groups' : List Text}
      (hmatch : attributePattern.MatchesAt t before' groups') :
      a.before.length ≤ before'.length := by
    obtain ⟨a', ha', hle⟩ := exists_of_matchesAt hmatch
    rw [h, Option.some.injEq] at ha'
    exact ha' ▸ hle
  constructor
  · intro hleftmost
    have hle := hleftmost.first _ _ (matchesAt_of_ofText? h)
    exact matchesAt_unique hleftmost.matchesAt (matchesAt_of_ofText? h)
      (Nat.le_antisymm hle (hfirst hleftmost.matchesAt))
  · rintro ⟨rfl, rfl⟩
    exact ⟨matchesAt_of_ofText? h, fun _ _ => hfirst⟩

/-! ## The quote of the value -/

section Quote

variable {a : OpenAttribute}

/-- The quote behind the equals sign is found. -/
theorem quote?_of_takes (hsuffix : a.suffix = gap ++ q :: inner)
    (hgap : equalsPattern.Takes gap rest gs) (hq : q = '"' ∨ q = '\'') :
    a.quote? = some (q, inner) := by
  obtain ⟨before, behind, rfl, -, hbefore, hbehind⟩ := takes_equalsPattern_iff.mp hgap
  calc
    a.quote? = quote? ⟨a.before, a.leading, a.name, a.suffix⟩ := rfl
    _ = quote? ⟨a.before, a.leading, a.name, before ++ '=' :: (behind ++ q :: inner)⟩ := by
      rw [hsuffix, List.append_assoc, List.cons_append]
    _ = quote? ⟨a.before, a.leading, a.name, q :: inner⟩ := quote?_gaps hbefore hbehind ..
    _ = some (q, inner) := quote?_quoted hq

/-- Where no quote stands behind the equals sign, none is found. -/
theorem quote?_eq_none_of_takes (hsuffix : a.suffix = gap ++ value)
    (hgap : equalsPattern.Takes gap rest gs) (hvalue : unquotedPattern.Takes value [] []) :
    a.quote? = none := by
  obtain ⟨before, behind, rfl, -, hbefore, hbehind⟩ := takes_equalsPattern_iff.mp hgap
  calc
    a.quote? = quote? ⟨a.before, a.leading, a.name, a.suffix⟩ := rfl
    _ = quote? ⟨a.before, a.leading, a.name, before ++ '=' :: (behind ++ value)⟩ := by
      rw [hsuffix, List.append_assoc, List.cons_append]
    _ = quote? ⟨a.before, a.leading, a.name, value⟩ := quote?_gaps hbefore hbehind ..
    _ = none := quote?_unquoted (takes_unquotedPattern_iff.mp hvalue).1

/-- The pattern takes the suffix in one of two ways: up to a quote with the value behind it, or up
to a value without quotes. -/
theorem exists_takes_suffix (h : ofText? t = some a) :
    ∃ gap value, a.suffix = gap ++ value ∧ equalsPattern.Takes gap value [] ∧
      ((∃ q inner, value = q :: inner ∧ (q = '"' ∨ q = '\'') ∧
        (quotedPattern q).Takes value [] []) ∨ unquotedPattern.Takes value [] []) := by
  have hsuffix := (split?_iff.mp (eq_append_of_ofText? h).2.2).2
  obtain ⟨-, gap, gap', value, hsuffix, hgap, hgap', hvalue⟩ := takes_suffixPattern_iff.mp hsuffix
  refine ⟨gap ++ '=' :: gap', value, by simp [hsuffix],
    takes_equalsPattern_iff.mpr ⟨gap, gap', rfl, rfl, hgap, hgap'⟩, ?_⟩
  rcases hvalue with ⟨q, inner, rfl, hq, hmem⟩ | hall
  · exact .inl ⟨q, inner, rfl, hq, takes_quotedPattern_iff.mpr ⟨inner, rfl, hmem, rfl⟩⟩
  · exact .inr (takes_unquotedPattern_iff.mpr ⟨hall, rfl⟩)

/-- The quote that is found is the one that opens the value. -/
theorem quote?_eq_some_iff (h : ofText? t = some a) :
    a.quote? = some (q, inner) ↔ (q = '"' ∨ q = '\'') ∧ ∃ gap,
      a.suffix = gap ++ q :: inner ∧ equalsPattern.Takes gap (q :: inner) [] ∧
        (quotedPattern q).Takes (q :: inner) [] [] := by
  constructor
  · intro hquote
    obtain ⟨gap, value, hsuffix, hgap, ⟨q', inner', rfl, hq, hvalue⟩ | hvalue⟩ :=
      exists_takes_suffix h
    · rw [quote?_of_takes hsuffix hgap hq, Option.some.injEq, Prod.mk.injEq] at hquote
      obtain ⟨rfl, rfl⟩ := hquote
      exact ⟨hq, gap, hsuffix, hgap, hvalue⟩
    · rw [quote?_eq_none_of_takes hsuffix hgap hvalue] at hquote
      cases hquote
  · rintro ⟨hq, gap, hsuffix, hgap, -⟩
    exact quote?_of_takes hsuffix hgap hq

/-- No quote is found just when the value has none. -/
theorem quote?_eq_none_iff (h : ofText? t = some a) :
    a.quote? = none ↔ ∃ gap value, a.suffix = gap ++ value ∧ equalsPattern.Takes gap value [] ∧
      unquotedPattern.Takes value [] [] := by
  constructor
  · intro hquote
    obtain ⟨gap, value, hsuffix, hgap, ⟨q, inner, rfl, hq, -⟩ | hvalue⟩ := exists_takes_suffix h
    · rw [quote?_of_takes hsuffix hgap hq] at hquote
      cases hquote
    · exact ⟨gap, value, hsuffix, hgap, hvalue⟩
  · rintro ⟨gap, value, hsuffix, hgap, hvalue⟩
    exact quote?_eq_none_of_takes hsuffix hgap hvalue

end Quote

/-- An attribute is found in a text just when the pattern matches it. What is found is then the
leftmost match, with its place, its space, its name and its suffix; and the quote that is found is
the one that opens the value of the match, or none when the value has no quotes. -/
theorem ofText?_leftmost (t : Text) :
    ((ofText? t).isSome = true ↔ ∃ before groups, attributePattern.MatchesAt t before groups) ∧
      ∀ a, ofText? t = some a →
        (∀ before groups, attributePattern.IsLeftmost t before groups ↔
          before = a.before ∧ groups = [[a.leading], a.name, a.suffix]) ∧
        (∀ q inner, a.quote? = some (q, inner) ↔ (q = '"' ∨ q = '\'') ∧ ∃ gap,
          a.suffix = gap ++ q :: inner ∧ equalsPattern.Takes gap (q :: inner) [] ∧
            (quotedPattern q).Takes (q :: inner) [] []) ∧
        (a.quote? = none ↔ ∃ gap value, a.suffix = gap ++ value ∧
          equalsPattern.Takes gap value [] ∧ unquotedPattern.Takes value [] []) := by
  refine ⟨⟨fun hsome => ?_, ?_⟩, fun a h => ⟨fun before groups => isLeftmost_iff h,
    fun q inner => quote?_eq_some_iff h, quote?_eq_none_iff h⟩⟩
  · obtain ⟨a, h⟩ := Option.isSome_iff_exists.mp hsome
    exact ⟨_, _, matchesAt_of_ofText? h⟩
  · rintro ⟨before, groups, hmatch⟩
    obtain ⟨a, h, -⟩ := exists_of_matchesAt hmatch
    exact Option.isSome_iff_exists.mpr ⟨a, h⟩

/-- An attribute that begins earlier is passed over, because its value is closed: the match begins
at the title, whose value opens with an apostrophe. -/
theorem ofText?_leftmost_title :
    attributePattern.IsLeftmost "<p id=\"a\" title = 'say \"".toList "<p id=\"a\"".toList
        [[' '], "title".toList, " = 'say \"".toList] ∧
      quote? ⟨"<p id=\"a\"".toList, ' ', "title".toList, " = 'say \"".toList⟩ =
        some ('\'', "say \"".toList) := by
  have hfound : ofText? "<p id=\"a\" title = 'say \"".toList =
      some ⟨"<p id=\"a\"".toList, ' ', "title".toList, " = 'say \"".toList⟩ := by decide +kernel
  obtain ⟨hleftmost, hquoted, -⟩ := (ofText?_leftmost _).2 _ hfound
  refine ⟨(hleftmost _ _).mpr ⟨rfl, rfl⟩, (hquoted _ _).mpr ⟨.inr rfl, " = ".toList, rfl, ?_, ?_⟩⟩
  · have hspace : ∀ c ∈ [' '], Text.isSpace c = true := List.all_eq_true.mp rfl
    exact takes_equalsPattern_iff.mpr ⟨[' '], [' '], rfl, rfl, hspace, hspace⟩
  · exact takes_quotedPattern_iff.mpr ⟨_, rfl, by decide, rfl⟩

end LiveMarkup.OpenAttribute
