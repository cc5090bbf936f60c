import LiveMarkup.Escape
import LiveMarkup.Proofs.Template.Leads
import LiveMarkup.Proofs.Template.Stencil

/-!
# Scanning stencils

What the template scanner knows behind a stretch of a written-out stencil. `Outside` and `Inside`
say where the stretch ends, in a text or in an open tag, in a way that does not depend on what
follows: the scan goes on as if it started there. Both also say that the stretch is `Quiet`: an
attribute that is written behind it is found where it stands, and nowhere before.
-/

namespace LiveMarkup

/-! ## Delimiters -/

namespace Delimiter

variable {name : Option Text} {last : Delimiter}

/-- A stretch without angle brackets leaves the scan where it was. -/
theorem scan_append_of_plain {s : Text} (h : ∀ c ∈ s, c ≠ '<' ∧ c ≠ '>') (r : Text) :
    scan name last false (s ++ r) = scan name last false r := by
  induction s with
  | nil => rfl
  | cons c s ih =>
    rw [List.forall_mem_cons] at h
    rw [List.cons_append, scan, ih h.2] <;> simp_all

theorem scan_close (r : Text) :
    scan name last false ('>' :: r) = scan name (.closed name) false r := by
  rw [scan]

theorem scan_open {t : Text} (h : t.head? ≠ some '!') : scan name last false ('<' :: t) =
    scan (some (tagName t)) (.opened (tagName t)) false t := by
  rw [scan]
  rintro t' rfl
  exact h rfl

end Delimiter

/-! ## Attributes at the end -/

namespace OpenAttribute

/-- An attribute is looked for behind a text without equals signs. -/
theorem ofText?_append {v key : Text} (hv : '=' ∉ v) (hkey : IsKey key) (rest : Text) :
    ofText? (v ++ ' ' :: (key ++ '=' :: rest)) =
      (ofText? (' ' :: (key ++ '=' :: rest))).map (behind v) :=
  ofText?_lead (closed_of_not_mem hv) rfl hkey (List.forall_mem_nil _)

/-- An attribute starts with a space. -/
theorem ofText?_append_of_noSpace {s : Text} (hs : ∀ c ∈ s, Text.isSpace c = false) (t : Text) :
    ofText? (s ++ t) = (ofText? t).map (behind s) := by
  induction s with
  | nil =>
    have hid : behind [] = id := rfl
    rw [hid, Option.map_id, id, List.nil_append]
  | cons c s ih =>
    rw [List.forall_mem_cons] at hs
    rw [List.cons_append, ofText?, ih hs.2, Option.map_map, hs.1, if_neg Bool.false_ne_true]
    rfl

theorem takeWhile_key {key : Text} (hkey : IsKey key) (rest : Text) :
    (key ++ '=' :: rest).takeWhile isNameChar = key :=
  Text.takeWhile_append_of_stops hkey.chars (Text.stops_cons.mpr (by decide))

theorem dropWhile_key {key : Text} (hkey : IsKey key) (rest : Text) :
    (key ++ '=' :: rest).dropWhile isNameChar = '=' :: rest :=
  Text.dropWhile_append_of_stops hkey.chars (Text.stops_cons.mpr (by decide))

/-- A value in quotes whose quote is open reaches to the end, and one whose quote is closed does
not. -/
theorem split?_quoted {key : Text} (hkey : IsKey key) (value : Text) :
    split? (key ++ '=' :: '"' :: value) =
      if '"' ∈ value then none else some (key, '=' :: '"' :: value) := by
  have hne : key.isEmpty = false := by simpa using hkey.ne_nil
  have hequals : Text.isSpace '=' = false := by decide
  have hquote : Text.isSpace '"' = false := by decide
  simp only [split?, takeWhile_key hkey, dropWhile_key hkey, isSuffix, hne, Bool.not_false,
    Bool.true_and, List.dropWhile_cons, hequals, hquote, Bool.false_eq_true, if_false, isOpenValue]
  by_cases hmem : '"' ∈ value <;> simp [hmem]

/-- The attribute that a text ends in whose last quote is open. -/
theorem ofText?_open {key value : Text} (hkey : IsKey key) (hvalue : '"' ∉ value) :
    ofText? (' ' :: (key ++ '=' :: '"' :: value)) = some ⟨[], ' ', key, '=' :: '"' :: value⟩ := by
  rw [ofText?, split?_quoted hkey, if_neg hvalue]
  rfl

theorem quote?_open {before key value : Text} {leading : Char} :
    quote? ⟨before, leading, key, '=' :: '"' :: value⟩ = some ('"', value) := by
  rfl

/-- Behind `pre` and a text without equals signs, an attribute is found where it stands. -/
def Quiet (pre : Text) : Prop :=
  ∀ v key rest : Text, '=' ∉ v → IsKey key →
    ofText? (pre ++ (v ++ ' ' :: (key ++ '=' :: rest))) =
      (ofText? (' ' :: (key ++ '=' :: rest))).map (behind (pre ++ v))

theorem quiet_nil : Quiet [] := fun _ _ rest hv hkey => ofText?_append hv hkey rest

theorem Quiet.append {pre s : Text} (h : Quiet pre) (hs : '=' ∉ s) : Quiet (pre ++ s) := by
  intro v key rest hv hkey
  have hsv : '=' ∉ s ++ v := fun hmem => (List.mem_append.mp hmem).elim hs hv
  have hquiet := h (s ++ v) key rest hsv hkey
  simpa only [List.append_assoc] using hquiet

/-- A written attribute is passed over. -/
theorem Quiet.attribute {pre key value : Text} (h : Quiet pre) (hkey : IsKey key)
    (hequals : '=' ∉ value) :
    Quiet (pre ++ ' ' :: (key ++ '=' :: '"' :: (value ++ ['"']))) := by
  intro v key' rest hv hkey'
  have hvalue : '=' ∉ value ++ '"' :: v := by
    intro hmem
    rcases List.mem_append.mp hmem with hmem | hmem
    · exact hequals hmem
    rcases List.mem_cons.mp hmem with hmem | hmem
    · exact absurd hmem (by decide)
    · exact hv hmem
  have hsteps : ∀ c ∈ key ++ ['=', '"'], Text.isSpace c = false := by
    intro c hc
    rcases List.mem_append.mp hc with hc | hc
    · exact isSpace_of_isNameChar (hkey.chars c hc)
    · rcases List.mem_cons.mp hc with rfl | hc
      · decide
      · rw [List.mem_singleton.mp hc]
        decide
  have hbehind := h [] key ('"' :: (value ++ '"' :: (v ++ ' ' :: (key' ++ '=' :: rest))))
    List.not_mem_nil hkey
  have hlater :
      ofText? (key ++ '=' :: '"' :: (value ++ '"' :: (v ++ ' ' :: (key' ++ '=' :: rest)))) =
      (ofText? (' ' :: (key' ++ '=' :: rest))).map
        (behind (key ++ '=' :: '"' :: (value ++ '"' :: v))) := by
    have hskip := ofText?_append_of_noSpace hsteps
      (value ++ '"' :: (v ++ ' ' :: (key' ++ '=' :: rest)))
    have hfind := ofText?_append hvalue hkey' rest
    simp only [List.append_assoc, List.cons_append, List.nil_append] at hskip hfind
    rw [hskip, hfind, Option.map_map, behind_comp_behind]
    simp
  -- the value is closed, so the attribute itself is not the open one
  have hstart : ofText? (' ' :: (key ++ '=' :: '"' ::
      (value ++ '"' :: (v ++ ' ' :: (key' ++ '=' :: rest))))) =
      (ofText? (' ' :: (key' ++ '=' :: rest))).map
        (behind (' ' :: (key ++ '=' :: '"' :: (value ++ '"' :: v)))) := by
    have hmem : '"' ∈ value ++ '"' :: (v ++ ' ' :: (key' ++ '=' :: rest)) := by simp
    rw [ofText?, split?_quoted hkey, if_pos hmem, hlater, Option.map_map]
    rfl
  simp only [List.nil_append, List.append_nil] at hbehind
  simp only [List.append_assoc, List.cons_append, List.nil_append]
  rw [hbehind, hstart, Option.map_map, behind_comp_behind]

end OpenAttribute

/-! ## Names -/

namespace Stencil

theorem isNameChar_ne {c d : Char} (h : isNameChar c = true) (hd : isNameChar d = false) :
    c ≠ d := by
  rintro rfl
  exact absurd h (by simp [hd])

theorem isAlphanum_of_isNameChar {c : Char} (h : isNameChar c = true) :
    Text.isAlphanum c = true ∨ c = '-' := by
  simp only [isNameChar, Bool.or_eq_true, decide_eq_true_eq] at h
  rcases h with (h | h) | h
  · exact .inl (Text.isAlphanum_of_isLower h)
  · exact .inl (Text.isAlphanum_of_isDigit h)
  · exact .inr h

theorem toNat_of_isNameChar {c : Char} (h : isNameChar c = true) :
    0x2D ≤ c.toNat ∧ c.toNat ≤ 0x7A := by
  rcases isAlphanum_of_isNameChar h with h | rfl
  · rw [Text.isAlphanum_iff] at h
    omega
  · decide

/-- A character of a name is one of an attribute name for the template scanner. -/
theorem isAttributeNameChar {c : Char} (h : isNameChar c = true) :
    OpenAttribute.isNameChar c = true := by
  have hrange := toNat_of_isNameChar h
  have hcontrol : ¬c.toNat ≤ 0x1F := by omega
  have hdelete : ¬0x7F ≤ c.toNat := by omega
  simp [OpenAttribute.isNameChar, hcontrol, hdelete, isNameChar_ne h (d := ' ') rfl,
    isNameChar_ne h (d := '"') rfl, isNameChar_ne h (d := '\'') rfl, isNameChar_ne h (d := '>') rfl,
    isNameChar_ne h (d := '=') rfl, isNameChar_ne h (d := '/') rfl]

/-- A character of a name is one of a tag name for the template scanner. -/
theorem isTagNameChar {c : Char} (h : isNameChar c = true) : Delimiter.isTagNameChar c = true := by
  rcases isAlphanum_of_isNameChar h with h | rfl
  · simp [Delimiter.isTagNameChar, h]
  · rfl

theorem Name.isKey (name : Name) : OpenAttribute.IsKey name.text where
  ne_nil := by
    rintro hnil
    obtain ⟨c, hc, -⟩ := name.start
    rw [hnil] at hc
    cases hc
  chars c hc := isAttributeNameChar (name.chars c hc)

theorem Name.not_mem (name : Name) {d : Char} (hd : isNameChar d = false) : d ∉ name.text :=
  fun hmem => isNameChar_ne (name.chars d hmem) hd rfl

theorem Name.no_brackets (name : Name) : ∀ c ∈ name.text, c ≠ '<' ∧ c ≠ '>' := fun c hc =>
  ⟨isNameChar_ne (name.chars c hc) rfl, isNameChar_ne (name.chars c hc) rfl⟩

theorem Name.head_ne (name : Name) {d : Char} (hd : d.isLower = false) (t : Text) :
    (name.text ++ t).head? ≠ some d := by
  obtain ⟨c, hc, hlower⟩ := name.start
  rw [List.head?_append, hc]
  rintro h
  cases h
  rw [hd] at hlower
  contradiction

theorem Name.tagName_append (name : Name) {r : Text} (hr : Text.Stops Delimiter.isTagNameChar r) :
    Delimiter.tagName (name.text ++ r) = name.text :=
  Text.takeWhile_append_of_stops (fun c hc => isTagNameChar (name.chars c hc)) hr

end Stencil

/-! ## Where a stretch ends -/

/-- Values in the text of an element of this name become entities. -/
def PlainTag (tag : Text) : Prop := EscapeContext.forTextIn tag = .text

theorem plainTag_nil : PlainTag [] := rfl

theorem plainTag_of_not_raw {tag : Text} (h : Node.isRawTextName tag = false) : PlainTag tag := by
  have h : (Text.sameLetters tag "script".toList || Text.sameLetters tag "style".toList) = false :=
    h
  rw [PlainTag, EscapeContext.forTextIn, h]
  rfl

namespace ScanContext

/-- A tag name does not go on. -/
def Breaks (r : Text) : Prop := Text.Stops Delimiter.isTagNameChar r

/-- The scan of `pre` and what follows it, as long as that is `ok`, goes on behind `pre` from `name`
and `last`. -/
structure Scanned (cx : ScanContext) (pre : Text) (ok : Text → Prop) (name : Option Text)
    (last : Delimiter) : Prop where
  comment : cx.inComment = false
  tag : PlainTag cx.tag
  name_plain : ∀ t ∈ name, PlainTag t
  scan : ∀ r, ok r → Delimiter.scan none .none false (pre ++ r) = Delimiter.scan name last false r
  quiet : OpenAttribute.Quiet pre

/-- The scan ends in the text of an element. -/
def Outside (cx : ScanContext) (pre : Text) : Prop :=
  ∃ name last, Scanned cx pre (fun _ => True) name last ∧
    (last = .none ∧ cx.inTag = false ∨ ∃ t : Option Text, last = .closed t ∧ ∀ u ∈ t, PlainTag u)

/-- The scan ends in an open tag, behind its name or behind one of its attributes. -/
def Inside (cx : ScanContext) (pre : Text) : Prop :=
  ∃ name last, Scanned cx pre Breaks name last ∧
    (last = .none ∧ cx.inTag = true ∨ ∃ t, last = .opened t ∧ PlainTag t)

variable {cx : ScanContext} {pre : Text}

theorem outside_nil {tag : Text} (h : PlainTag tag) : Outside ⟨false, false, tag⟩ [] :=
  ⟨none, .none, ⟨rfl, h, fun _ ht => (nomatch ht), fun _ _ => rfl, OpenAttribute.quiet_nil⟩,
    .inl ⟨rfl, rfl⟩⟩

theorem inside_nil {tag : Text} (h : PlainTag tag) : Inside ⟨true, false, tag⟩ [] :=
  ⟨none, .none, ⟨rfl, h, fun _ ht => (nomatch ht), fun _ _ => rfl, OpenAttribute.quiet_nil⟩,
    .inl ⟨rfl, rfl⟩⟩

/-- A literal of a text leads to the text again. -/
theorem Outside.text (h : Outside cx pre) {s : Text}
    (hs : ∀ c ∈ s, Stencil.isBarredInText c = false) : Outside cx (pre ++ s) := by
  obtain ⟨name, last, hscan, hlast⟩ := h
  have hbrackets : ∀ c ∈ s, c ≠ '<' ∧ c ≠ '>' := by
    intro c hc
    have := hs c hc
    simp_all [Stencil.isBarredInText]
  have hequals : '=' ∉ s := fun hmem => absurd (hs _ hmem) (by decide)
  refine ⟨name, last,
    { hscan with scan := fun r _ => ?_, quiet := hscan.quiet.append hequals }, hlast⟩
  rw [List.append_assoc, hscan.scan _ trivial, Delimiter.scan_append_of_plain hbrackets]

/-- The context behind a text is that of a text. -/
theorem Outside.advance (h : Outside cx pre) :
    ∃ tag, PlainTag tag ∧ cx.advance pre = ⟨false, false, tag⟩ := by
  obtain ⟨name, last, hscan, hlast⟩ := h
  have hend := hscan.scan [] trivial
  rw [List.append_nil, Delimiter.scan] at hend
  unfold ScanContext.advance
  rw [hscan.comment, hend]
  rcases hlast with ⟨rfl, htag⟩ | ⟨t, rfl, ht⟩
  · exact ⟨cx.tag, hscan.tag, by simp [htag]⟩
  · refine ⟨t.getD cx.tag, ?_, rfl⟩
    cases t with
    | none => exact hscan.tag
    | some t => exact ht t rfl

/-- The context behind an open tag, and maybe an attribute that is begun, is that of an open tag. -/
theorem Inside.advance (h : Inside cx pre) {s : Text} (hbreaks : Breaks s)
    (hs : ∀ c ∈ s, c ≠ '<' ∧ c ≠ '>') :
    ∃ tag, PlainTag tag ∧ cx.advance (pre ++ s) = ⟨true, false, tag⟩ := by
  obtain ⟨name, last, hscan, hlast⟩ := h
  have hend := hscan.scan s hbreaks
  have hplain : Delimiter.scan name last false (s ++ []) = Delimiter.scan name last false [] :=
    Delimiter.scan_append_of_plain hs []
  rw [List.append_nil, Delimiter.scan] at hplain
  rw [hplain] at hend
  unfold ScanContext.advance
  rw [hscan.comment, hend]
  rcases hlast with ⟨rfl, htag⟩ | ⟨t, rfl, ht⟩
  · exact ⟨cx.tag, hscan.tag, by simp [htag]⟩
  · exact ⟨t, ht, rfl⟩

/-- A `<` and a name lead into an open tag. -/
theorem Outside.openTag (h : Outside cx pre) (name : Stencil.ElementName) :
    Inside cx (pre ++ '<' :: name.text) := by
  obtain ⟨last, before, hscan, -⟩ := h
  have hplain : PlainTag name.text := plainTag_of_not_raw name.not_raw
  have hequals : '=' ∉ '<' :: name.text := by
    intro hmem
    rcases List.mem_cons.mp hmem with hmem | hmem
    · exact absurd hmem (by decide)
    · exact name.not_mem rfl hmem
  refine ⟨some name.text, .opened name.text,
    { comment := hscan.comment
      tag := hscan.tag
      name_plain := ?_
      scan := fun r hr => ?_
      quiet := hscan.quiet.append hequals }, .inr ⟨_, rfl, hplain⟩⟩
  · rintro t ⟨⟩
    exact hplain
  · rw [List.append_assoc, hscan.scan _ trivial, List.cons_append,
      Delimiter.scan_open (name.head_ne rfl r), name.tagName_append hr,
      Delimiter.scan_append_of_plain name.no_brackets]

/-- An attribute leads to the next place for one. -/
theorem Inside.attribute (h : Inside cx pre) (name : Stencil.Name) {value : Text}
    (hvalue : ∀ c ∈ value, Stencil.isBarredInValue c = false) :
    Inside cx (pre ++ ' ' :: (name.text ++ '=' :: '"' :: (value ++ ['"']))) := by
  obtain ⟨last, before, hscan, hbefore⟩ := h
  have hequals : '=' ∉ value := fun hmem => absurd (hvalue _ hmem) (by decide)
  have hbrackets :
      ∀ c ∈ ' ' :: (name.text ++ '=' :: '"' :: (value ++ ['"'])), c ≠ '<' ∧ c ≠ '>' := by
    intro c hc
    simp only [List.mem_cons, List.mem_append, List.not_mem_nil, or_false] at hc
    rcases hc with rfl | hc | rfl | rfl | hc | rfl
    · decide
    · exact name.no_brackets c hc
    · decide
    · decide
    · have := hvalue c hc
      simp_all [Stencil.isBarredInValue, Stencil.isBarredInText]
    · decide
  refine ⟨last, before, { hscan with
    scan := fun r hr => ?_, quiet := hscan.quiet.attribute name.isKey hequals }, hbefore⟩
  have hbreaks : Breaks (' ' :: (name.text ++ '=' :: '"' :: (value ++ ['"'])) ++ r) :=
    Text.stops_cons.mpr rfl
  rw [List.append_assoc, hscan.scan _ hbreaks, Delimiter.scan_append_of_plain hbrackets]

/-- The end of an open tag leads to the text of its element. -/
theorem Inside.close (h : Inside cx pre) : Outside cx (pre ++ ['>']) := by
  obtain ⟨last, before, hscan, -⟩ := h
  refine ⟨last, .closed last, { hscan with
    scan := fun r _ => ?_, quiet := hscan.quiet.append (by decide) },
    .inr ⟨last, rfl, hscan.name_plain⟩⟩
  have hbreaks : Breaks (['>'] ++ r) := Text.stops_cons.mpr rfl
  rw [List.append_assoc, hscan.scan _ hbreaks, List.cons_append, List.nil_append,
    Delimiter.scan_close]

/-- A close tag leads to a text. -/
theorem Outside.closeTag (h : Outside cx pre) (name : Stencil.Name) :
    Outside cx (pre ++ '<' :: '/' :: (name.text ++ ['>'])) := by
  obtain ⟨last, before, hscan, -⟩ := h
  have hequals : '=' ∉ '<' :: '/' :: (name.text ++ ['>']) := by
    intro hmem
    simp only [List.mem_cons, List.mem_append, List.not_mem_nil, or_false] at hmem
    rcases hmem with hmem | hmem | hmem | hmem
    · exact absurd hmem (by decide)
    · exact absurd hmem (by decide)
    · exact name.not_mem rfl hmem
    · exact absurd hmem (by decide)
  have hbrackets : ∀ c ∈ '/' :: name.text, c ≠ '<' ∧ c ≠ '>' := by
    rw [List.forall_mem_cons]
    exact ⟨by decide, name.no_brackets⟩
  -- a close tag has no name for the scanner, whose tag names stop at a slash
  have hnil : ∀ t : Option Text, t = some [] → ∀ u ∈ t, PlainTag u := by
    rintro _ rfl u ⟨⟩
    exact plainTag_nil
  refine ⟨some [], .closed (some []),
    { comment := hscan.comment
      tag := hscan.tag
      name_plain := hnil _ rfl
      scan := fun r _ => ?_
      quiet := hscan.quiet.append hequals }, .inr ⟨_, rfl, hnil _ rfl⟩⟩
  have htag : Delimiter.tagName ('/' :: (name.text ++ '>' :: r)) = [] := rfl
  have hsplit : '/' :: (name.text ++ '>' :: r) = ('/' :: name.text) ++ '>' :: r := rfl
  rw [List.append_assoc, hscan.scan _ trivial]
  simp only [List.cons_append, List.append_assoc, List.nil_append]
  rw [Delimiter.scan_open (by simp), htag, hsplit, Delimiter.scan_append_of_plain hbrackets,
    Delimiter.scan_close]

end ScanContext

end LiveMarkup
