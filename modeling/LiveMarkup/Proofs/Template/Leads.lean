import LiveMarkup.Proofs.Text.Spans
import LiveMarkup.Template
import Mathlib.Data.List.TakeWhile

/-!
# Leads

What stands in a fragment before the attribute that it ends in. The scanner takes the attribute that
begins first, so what is written like an attribute before it must have its quotes closed: a text in
which every such quote is closed again is `Closed`. Behind a closed text the attribute is found where
it stands (`ofText?_lead`).
-/

namespace LiveMarkup.OpenAttribute

/-- The name of an attribute as it is written. -/
structure IsKey (key : Text) : Prop where
  ne_nil : key ≠ []
  chars : ∀ c ∈ key, isNameChar c = true

/-- The attribute with more text before it. -/
def behind (s : Text) (a : OpenAttribute) : OpenAttribute := { a with before := s ++ a.before }

theorem behind_comp_behind (s t : Text) : behind s ∘ behind t = behind (s ++ t) := by
  funext a
  simp [behind]

theorem isSpace_of_isNameChar {c : Char} (h : isNameChar c = true) : Text.isSpace c = false := by
  cases hspace : Text.isSpace c with
  | false => rfl
  | true =>
    simp only [Text.isSpace, Bool.or_eq_true, decide_eq_true_eq] at hspace
    rcases hspace with (((rfl | rfl) | rfl) | rfl) | rfl <;> exact absurd h (by decide)

/-- Whatever in `v` is written like an attribute with a quoted value has its quote closed in `v`. -/
def Closed (v : Text) : Prop :=
  ∀ (before : Text) (leading : Char) (name gap gap' : Text) (q : Char) (value : Text),
    v = before ++ leading :: (name ++ (gap ++ '=' :: (gap' ++ q :: value))) →
    Text.isSpace leading = true → IsKey name → (∀ c ∈ gap, Text.isSpace c = true) →
    (∀ c ∈ gap', Text.isSpace c = true) → (q = '"' ∨ q = '\'') → q ∈ value

theorem closed_of_not_mem {v : Text} (h : '=' ∉ v) : Closed v := by
  rintro before leading name gap gap' q value rfl
  simp at h

theorem Closed.tail {c : Char} {v : Text} (h : Closed (c :: v)) : Closed v := by
  intro before leading name gap gap' q value hv
  exact h (c :: before) leading name gap gap' q value (congrArg (c :: ·) hv)

/-! ## What an attribute is -/

theorem cases_of_isOpenValue {t : Text} (h : isOpenValue t = true) :
    (∃ q value, t = q :: value ∧ (q = '"' ∨ q = '\'') ∧ q ∉ value) ∨
      ∀ c ∈ t, isUnquotedChar c = true := by
  unfold isOpenValue at h
  split at h
  · next value => exact .inl ⟨'"', value, rfl, .inl rfl, by simpa using h⟩
  · next value => exact .inl ⟨'\'', value, rfl, .inr rfl, by simpa using h⟩
  · exact .inr (List.all_eq_true.mp h)

theorem isOpenValue_quoted {q : Char} {value : Text} (hq : q = '"' ∨ q = '\'') (h : q ∉ value) :
    isOpenValue (q :: value) = true := by
  rcases hq with rfl | rfl <;> simpa [isOpenValue] using h

theorem isOpenValue_unquoted {value : Text} (h : ∀ c ∈ value, isUnquotedChar c = true) :
    isOpenValue value = true := by
  unfold isOpenValue
  split
  · exact absurd (h '"' List.mem_cons_self) (by decide)
  · exact absurd (h '\'' List.mem_cons_self) (by decide)
  · exact List.all_eq_true.mpr h

theorem stops_isSpace_quoted {q : Char} {value : Text} (hq : q = '"' ∨ q = '\'') :
    Text.Stops Text.isSpace (q :: value) := by
  rcases hq with rfl | rfl <;> exact Text.stops_cons.mpr rfl

/-- A name, an equals sign with spaces around it, and a value that is open. -/
theorem exists_of_split? {t name suffix : Text} (h : split? t = some (name, suffix)) :
    IsKey name ∧ ∃ gap gap' value, t = name ++ (gap ++ '=' :: (gap' ++ value)) ∧
      (∀ c ∈ gap, Text.isSpace c = true) ∧ (∀ c ∈ gap', Text.isSpace c = true) ∧
      Text.Stops Text.isSpace value ∧ isOpenValue value = true := by
  simp only [split?, Option.ite_none_right_eq_some, Option.some.injEq, Prod.mk.injEq,
    Bool.and_eq_true, Bool.not_eq_true'] at h
  obtain ⟨⟨hne, hsuffix⟩, rfl, rfl⟩ := h
  refine ⟨⟨by simpa using hne, List.all_eq_true.mp List.all_takeWhile⟩, ?_⟩
  have hname := List.takeWhile_append_dropWhile (p := isNameChar) (l := t)
  generalize t.dropWhile isNameChar = suffix at hname hsuffix
  unfold isSuffix at hsuffix
  split at hsuffix
  · next rest hrest =>
    have hgap := List.takeWhile_append_dropWhile (p := Text.isSpace) (l := suffix)
    have hgap' := List.takeWhile_append_dropWhile (p := Text.isSpace) (l := rest)
    refine ⟨suffix.takeWhile Text.isSpace, rest.takeWhile Text.isSpace,
      rest.dropWhile Text.isSpace, ?_, List.all_eq_true.mp List.all_takeWhile,
      List.all_eq_true.mp List.all_takeWhile, Text.stops_dropWhile _ _, hsuffix⟩
    rw [hgap', ← hrest, hgap, hname]
  · cases hsuffix

/-! ## Where the value is quoted -/

section Quote

variable {before key gap gap' value : Text} {leading q : Char}

/-- The equals sign and the spaces around it are skipped. -/
theorem quote?_gaps (hgap : ∀ c ∈ gap, Text.isSpace c = true)
    (hgap' : ∀ c ∈ gap', Text.isSpace c = true) (before value : Text) :
    quote? ⟨before, leading, key, gap ++ '=' :: (gap' ++ value)⟩ =
      quote? ⟨before, leading, key, value⟩ := by
  have hspace : ∀ {c}, Text.isSpace c = true → (!(c = '"' || c = '\'')) = true := by
    intro c hc
    by_cases hquote : c = '"' ∨ c = '\''
    · rcases hquote with rfl | rfl <;> exact absurd hc (by decide)
    · simpa using hquote
  have hgaps : ∀ c ∈ gap ++ '=' :: gap', (!(c = '"' || c = '\'')) = true := by
    intro c hc
    rcases List.mem_append.mp hc with hc | hc
    · exact hspace (hgap c hc)
    rcases List.mem_cons.mp hc with rfl | hc
    · rfl
    · exact hspace (hgap' c hc)
  have hsplit : gap ++ '=' :: (gap' ++ value) = (gap ++ '=' :: gap') ++ value := by simp
  rw [hsplit, quote?, quote?, List.dropWhile_append_of_pos hgaps]

theorem quote?_quoted (hq : q = '"' ∨ q = '\'') :
    quote? ⟨before, leading, key, q :: value⟩ = some (q, value) := by
  rcases hq with rfl | rfl <;> rfl

theorem quote?_unquoted (h : ∀ c ∈ value, isUnquotedChar c = true) :
    quote? ⟨before, leading, key, value⟩ = none := by
  have hplain : ∀ c ∈ value, (!(c = '"' || c = '\'')) = true := by
    intro c hc
    have hchar := h c hc
    simp only [isUnquotedChar, Bool.not_eq_true', Bool.or_eq_false_iff] at hchar
    simp [hchar]
  simp only [quote?, List.dropWhile_eq_nil_iff.mpr hplain]

end Quote

/-! ## What is found -/

theorem eq_append_of_split? {t name suffix : Text} (h : split? t = some (name, suffix)) :
    t = name ++ suffix := by
  simp only [split?, Option.ite_none_right_eq_some, Option.some.injEq, Prod.mk.injEq] at h
  rw [← h.2.1, ← h.2.2, List.takeWhile_append_dropWhile]

/-- What is found is all of the text behind what comes before it, and a space stands in front. -/
theorem eq_append_of_ofText? {t : Text} {a : OpenAttribute} (h : ofText? t = some a) :
    t = a.before ++ a.leading :: (a.name ++ a.suffix) ∧ Text.isSpace a.leading = true ∧
      split? (a.name ++ a.suffix) = some (a.name, a.suffix) := by
  induction t generalizing a with
  | nil => cases h
  | cons c t ih =>
    have hlater : (ofText? t).map (fun a => { a with before := c :: a.before }) = some a →
        c :: t = a.before ++ a.leading :: (a.name ++ a.suffix) ∧ Text.isSpace a.leading = true ∧
          split? (a.name ++ a.suffix) = some (a.name, a.suffix) := by
      intro h
      obtain ⟨a', ha', rfl⟩ := Option.map_eq_some_iff.mp h
      exact ⟨congrArg (c :: ·) (ih ha').1, (ih ha').2⟩
    rw [ofText?] at h
    split at h
    · next hspace =>
      split at h
      · next hsplit =>
        cases h
        have htext := eq_append_of_split? hsplit
        exact ⟨congrArg (c :: ·) htext, hspace, htext ▸ hsplit⟩
      · exact hlater h
    · exact hlater h

/-- Behind the equals sign stands a quote with the beginning of the value, or a value without
quotes. -/
theorem exists_suffix {t : Text} {a : OpenAttribute} (h : ofText? t = some a) :
    ∃ gap gap' value, a.suffix = gap ++ '=' :: (gap' ++ value) ∧
      (∀ c ∈ gap, Text.isSpace c = true) ∧ (∀ c ∈ gap', Text.isSpace c = true) ∧
      ((∃ q first, value = q :: first ∧ (q = '"' ∨ q = '\'') ∧ a.quote? = some (q, first)) ∨
        (∀ c ∈ value, isUnquotedChar c = true) ∧ a.quote? = none) := by
  obtain ⟨-, gap, gap', value, htext, hgap, hgap', -, hopen⟩ :=
    exists_of_split? (eq_append_of_ofText? h).2.2
  have hsuffix := List.append_cancel_left htext
  have hquote : a.quote? = quote? ⟨a.before, a.leading, a.name, value⟩ :=
    calc
      a.quote? = quote? ⟨a.before, a.leading, a.name, a.suffix⟩ := rfl
      _ = quote? ⟨a.before, a.leading, a.name, gap ++ '=' :: (gap' ++ value)⟩ := by rw [hsuffix]
      _ = quote? ⟨a.before, a.leading, a.name, value⟩ := quote?_gaps hgap hgap' ..
  refine ⟨gap, gap', value, hsuffix, hgap, hgap', ?_⟩
  rcases cases_of_isOpenValue hopen with ⟨q, first, rfl, hq, -⟩ | hunquoted
  · exact .inl ⟨q, first, rfl, hq, hquote.trans (quote?_quoted hq)⟩
  · exact .inr ⟨hunquoted, hquote.trans (quote?_unquoted hunquoted)⟩

/-! ## The first attribute -/

variable {v key gap rest : Text} {leading : Char}

/-- What begins with a space and goes on with a name does not end a name and the spaces behind
it. -/
theorem append_ne_of_leading {name gap' : Text} (hname : ∀ c ∈ name, isNameChar c = true)
    (hgap' : ∀ c ∈ gap', Text.isSpace c = true) (hleading : Text.isSpace leading = true)
    (hkey : IsKey key) : name ++ gap' ≠ v ++ leading :: (key ++ gap) := by
  intro heq
  obtain ⟨k, key', rfl⟩ := List.exists_cons_of_ne_nil hkey.ne_nil
  have hk := isSpace_of_isNameChar (hkey.chars k List.mem_cons_self)
  rcases List.append_eq_append_iff.mp heq with ⟨m, rfl, rfl⟩ | ⟨m, rfl, hm⟩
  · have hspace := hgap' k (by simp)
    rw [hk] at hspace
    contradiction
  · cases m with
    | nil =>
      have hspace := hgap' k (by rw [List.nil_append] at hm; simp [← hm])
      rw [hk] at hspace
      contradiction
    | cons c m =>
      obtain ⟨rfl, -⟩ := List.cons.inj hm
      have hspace := isSpace_of_isNameChar (hname leading (by simp))
      rw [hleading] at hspace
      contradiction

theorem isSpace_of_isUnquotedChar {c : Char} (h : isUnquotedChar c = true) :
    Text.isSpace c = false := by
  simp only [isUnquotedChar, Bool.not_eq_true', Bool.or_eq_false_iff] at h
  exact h.1.1.1.1.1.1

/-- A text with an attribute at its end is no value: it has a space and then an equals sign. -/
theorem isOpenValue_lead (hleading : Text.isSpace leading = true) (hkey : IsKey key)
    {gap' value : Text} (hgap' : ∀ c ∈ gap', Text.isSpace c = true)
    (hstops : Text.Stops Text.isSpace value) (hopen : isOpenValue value = true)
    (h : gap' ++ value = v ++ leading :: (key ++ (gap ++ '=' :: rest))) :
    ∃ q inner, v = gap' ++ q :: inner ∧ (q = '"' ∨ q = '\'') ∧ q ∉ inner := by
  obtain ⟨k, key', hk⟩ := List.exists_cons_of_ne_nil hkey.ne_nil
  have hnot : value ≠ leading :: (key ++ (gap ++ '=' :: rest)) := by
    rintro rfl
    rw [Text.stops_cons.mp hstops] at hleading
    contradiction
  have hchars := cases_of_isOpenValue hopen
  rcases List.append_eq_append_iff.mp h with ⟨m, rfl, rfl⟩ | ⟨m, rfl, hm⟩
  · cases m with
    | nil => exact absurd rfl hnot
    | cons q inner =>
      rcases hchars with ⟨q', rest', heq, hq, hmem⟩ | hall
      · obtain ⟨rfl, rfl⟩ := List.cons.inj heq
        exact ⟨q, inner, rfl, hq, fun hinner => hmem (List.mem_append_left _ hinner)⟩
      · rw [isSpace_of_isUnquotedChar (hall leading (by simp))] at hleading
        contradiction
  · exfalso
    rcases m with _ | ⟨c, _ | ⟨d, m⟩⟩
    · exact hnot hm.symm
    · have hvalue : value = key ++ (gap ++ '=' :: rest) := (List.cons.inj hm).2.symm
      rcases hchars with ⟨q, inner, heq, hq, -⟩ | hall
      · rw [hvalue, hk] at heq
        have hname := hkey.chars k (by rw [hk]; exact List.mem_cons_self)
        rw [(List.cons.inj heq).1] at hname
        rcases hq with rfl | rfl <;> exact absurd hname (by decide)
      · exact absurd (hall '=' (by simp [hvalue])) (by decide)
    · have hspace := hgap' d (by simp)
      rw [hk] at hm
      rw [← (List.cons.inj (List.cons.inj hm).2).1,
        isSpace_of_isNameChar (hkey.chars k (by rw [hk]; exact List.mem_cons_self))] at hspace
      contradiction

/-- Nothing that is written like an attribute and begins before one reaches over it. -/
theorem split?_lead {c : Char} (hv : Closed (c :: v)) (hc : Text.isSpace c = true)
    (hleading : Text.isSpace leading = true) (hkey : IsKey key)
    (hgap : ∀ c ∈ gap, Text.isSpace c = true) :
    split? (v ++ leading :: (key ++ (gap ++ '=' :: rest))) = none := by
  cases hsplit : split? (v ++ leading :: (key ++ (gap ++ '=' :: rest))) with
  | none => rfl
  | some found =>
    exfalso
    obtain ⟨hname, gap₀, gap₁, value, hwhole, hgap₀, hgap₁, hstops, hopen⟩ :=
      exists_of_split? hsplit
    have hequals : ∀ {name gap : Text}, IsKey name → (∀ c ∈ gap, Text.isSpace c = true) →
        '=' ∉ name ++ gap := by
      intro name gap hname hgap hmem
      rcases List.mem_append.mp hmem with hmem | hmem
      · exact absurd (hname.chars _ hmem) (by decide)
      · exact absurd (hgap _ hmem) (by decide)
    rw [← List.append_assoc found.1] at hwhole
    rcases List.append_eq_append_iff.mp hwhole with ⟨m, hm, hbehind⟩ | ⟨m, rfl, hbehind⟩
    · -- both end in the same equals sign
      have hcut : Text.cutAt? '=' (leading :: (key ++ (gap ++ '=' :: rest))) =
          some (m, gap₁ ++ value) := by
        rw [hbehind]
        exact Text.cutAt?_append (fun hmem => hequals hname hgap₀ (by simp [hm, hmem])) _
      have hcut' : Text.cutAt? '=' (leading :: (key ++ (gap ++ '=' :: rest))) =
          some (leading :: (key ++ gap), rest) := by
        have hmem : '=' ∉ leading :: (key ++ gap) := by
          intro hmem
          rcases List.mem_cons.mp hmem with rfl | hmem
          · exact absurd hleading (by decide)
          · exact hequals hkey hgap hmem
        simpa using Text.cutAt?_append hmem rest
      rw [hcut', Option.some.injEq, Prod.mk.injEq] at hcut
      rw [← hcut.1] at hm
      exact append_ne_of_leading hname.chars hgap₀ hleading hkey hm
    · cases m with
      | nil =>
        rw [List.nil_append] at hbehind
        rw [← (List.cons.inj hbehind).1] at hleading
        exact absurd hleading (by decide)
      | cons e m =>
        rw [List.cons_append] at hbehind
        obtain ⟨rfl, hvalue⟩ := List.cons.inj hbehind
        obtain ⟨q, inner, rfl, hq, hmem⟩ :=
          isOpenValue_lead hleading hkey hgap₁ hstops hopen hvalue
        exact hmem (hv [] c found.1 gap₀ gap₁ q inner (by simp) hc hname hgap₀ hgap₁ hq)

/-- Behind a closed text an attribute is found where it stands. -/
theorem ofText?_lead (hv : Closed v) (hleading : Text.isSpace leading = true) (hkey : IsKey key)
    (hgap : ∀ c ∈ gap, Text.isSpace c = true) :
    ofText? (v ++ leading :: (key ++ (gap ++ '=' :: rest))) =
      (ofText? (leading :: (key ++ (gap ++ '=' :: rest)))).map (behind v) := by
  induction v with
  | nil =>
    have hid : behind [] = id := rfl
    rw [hid, Option.map_id, id, List.nil_append]
  | cons c v ih =>
    have hlater : (ofText? (v ++ leading :: (key ++ (gap ++ '=' :: rest)))).map
        (fun a => { a with before := c :: a.before }) =
        (ofText? (leading :: (key ++ (gap ++ '=' :: rest)))).map (behind (c :: v)) := by
      rw [ih hv.tail, Option.map_map]
      rfl
    rw [List.cons_append, ofText?, hlater]
    split
    · next hc => rw [split?_lead hv hc hleading hkey hgap]
    · rfl

/-- An attribute whose value is open is found. -/
theorem ofText?_attribute (hleading : Text.isSpace leading = true) (hkey : IsKey key)
    (hgap : ∀ c ∈ gap, Text.isSpace c = true) {gap' value : Text}
    (hgap' : ∀ c ∈ gap', Text.isSpace c = true) (hstops : Text.Stops Text.isSpace value)
    (hopen : isOpenValue value = true) :
    ofText? (leading :: (key ++ (gap ++ '=' :: (gap' ++ value)))) =
      some ⟨[], leading, key, gap ++ '=' :: (gap' ++ value)⟩ := by
  have hne : key.isEmpty = false := by simpa using hkey.ne_nil
  have hends : Text.Stops isNameChar (gap ++ '=' :: (gap' ++ value)) := by
    cases gap with
    | nil => exact Text.stops_cons.mpr rfl
    | cons c gap =>
      refine Text.stops_cons.mpr (Bool.eq_false_iff.mpr fun hc => ?_)
      have hspace := hgap c List.mem_cons_self
      rw [isSpace_of_isNameChar hc] at hspace
      contradiction
  have hequals : (gap ++ '=' :: (gap' ++ value)).dropWhile Text.isSpace = '=' :: (gap' ++ value) :=
    Text.dropWhile_append_of_stops hgap (Text.stops_cons.mpr rfl)
  have hsplit : split? (key ++ (gap ++ '=' :: (gap' ++ value))) =
      some (key, gap ++ '=' :: (gap' ++ value)) := by
    simp only [split?, isSuffix, Text.takeWhile_append_of_stops hkey.chars hends,
      Text.dropWhile_append_of_stops hkey.chars hends, hequals,
      Text.dropWhile_append_of_stops hgap' hstops, hopen, hne, Bool.not_false, Bool.and_self,
      if_true]
  rw [ofText?, hsplit, hleading]
  rfl

end LiveMarkup.OpenAttribute
