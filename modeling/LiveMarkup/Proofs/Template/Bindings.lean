import LiveMarkup.Proofs.Markup.Reading
import LiveMarkup.Proofs.Template.Pipeline
import LiveMarkup.Proofs.Template.Tiles
import Mathlib.Data.Bool.AllAny

/-!
# Bindings of a template

What is known of every binding that the scanner makes (`Template.Scans`): its name is the name of an
attribute, a space stands before it, and a boolean one takes one value. The value of an attribute is
written between double quotes, whatever quotes the source has, and its literals are written as they
are. `read_bindingText` tells when that is read back as the one attribute it is meant to be: when the
name is a word for readers of markup and no literal holds a double quote.
-/

namespace LiveMarkup

/-! ## What is known of a binding -/

namespace OpenAttribute

/-- What is found is a name with a space before it. -/
theorem isKey_of_ofText? {t : Text} {a : OpenAttribute} (h : ofText? t = some a) :
    IsKey a.name ∧ Text.isSpace a.leading = true :=
  ⟨(exists_of_split? (eq_append_of_ofText? h).2.2).1, (eq_append_of_ofText? h).2.1⟩

end OpenAttribute

/-- What is known of every binding that the scanner makes: it has the name of an attribute and a
space before it. -/
structure Binding.Made (b : Binding) : Prop where
  key : ∃ raw, OpenAttribute.IsKey raw ∧ BindingKind.ofName raw = (b.kind, b.name)
  leading : Text.isSpace b.leading = true

namespace Template

theorem made_bind {t : Text} {a : OpenAttribute} (h : OpenAttribute.ofText? t = some a)
    (tag first : Text) (literals : List Text) (hlength : 0 < literals.length) :
    (bind a tag first literals hlength).Made := by
  obtain ⟨hkey, hspace⟩ := OpenAttribute.isKey_of_ofText? h
  exact ⟨⟨a.name, hkey, rfl⟩, hspace⟩

theorem Scans.made {cx : ScanContext} {string : Text} {rest : List Text} {t : Tiling}
    (h : Scans cx string rest t) {b : Binding} {behind : Text}
    (hb : (.binding b, behind) ∈ t.tiles) : b.Made := by
  induction h with
  | last => cases hb
  | text hout h ih =>
    rcases List.mem_cons.mp hb with hb | hb
    · cases hb
    · exact ih hb
  | unquoted hin hfound hquote h ih =>
    rcases List.mem_cons.mp hb with hb | hb
    · cases hb
      exact made_bind hfound ..
    · exact ih hb
  | quoted hin hfound hquote htail hone h ih =>
    rcases List.mem_cons.mp hb with hb | hb
    · cases hb
      exact made_bind hfound ..
    · exact ih hb

theorem exists_tile_of_mem_parts {t : Template} {p : Part} (h : some p ∈ t.parts) :
    ∃ behind, (p, behind) ∈ t.tiles := by
  rw [t.rows_tiles.2] at h
  obtain ⟨tile, htile, hp⟩ := List.mem_flatMap.mp h
  rcases List.mem_cons.mp hp with hp | hp
  · cases hp
    exact ⟨tile.2, htile⟩
  · exact nomatch List.eq_of_mem_replicate hp

theorem made_of_mem_tiles {fragments : List Text} {t : Template}
    (ht : ofFragments fragments = .ok t) {b : Binding} {behind : Text}
    (hb : (.binding b, behind) ∈ t.tiles) : b.Made := by
  cases fragments with
  | nil =>
    cases ht
    cases hb
  | cons first rest => exact (scans_of_ofFragments ht).made hb

theorem made_of_mem_parts {fragments : List Text} {t : Template}
    (ht : ofFragments fragments = .ok t) {b : Binding} (hb : some (.binding b) ∈ t.parts) :
    b.Made := by
  obtain ⟨behind, hb⟩ := exists_tile_of_mem_parts hb
  exact made_of_mem_tiles ht hb

theorem Scans.length_literals {cx : ScanContext} {string : Text} {rest : List Text} {t : Tiling}
    (h : Scans cx string rest t) {b : Binding} {behind : Text}
    (hb : (.binding b, behind) ∈ t.tiles) (hkind : b.kind = .boolean) :
    b.literals.length = 2 := by
  induction h with
  | last => cases hb
  | text hout h ih =>
    rcases List.mem_cons.mp hb with hb | hb
    · cases hb
    · exact ih hb
  | unquoted hin hfound hquote h ih =>
    rcases List.mem_cons.mp hb with hb | hb
    · cases hb
      rfl
    · exact ih hb
  | quoted hin hfound hquote htail hone h ih =>
    rcases List.mem_cons.mp hb with hb | hb
    · cases hb
      have hpieces := (length_quoted? htail).1
      rw [hone hkind] at hpieces
      exact congrArg Nat.succ hpieces
    · exact ih hb

/-- A boolean attribute takes one value. -/
theorem length_literals_of_boolean {fragments : List Text} {t : Template}
    (ht : ofFragments fragments = .ok t) {b : Binding} {behind : Text}
    (hb : (.binding b, behind) ∈ t.tiles) (hkind : b.kind = .boolean) : b.literals.length = 2 := by
  cases fragments with
  | nil =>
    cases ht
    cases hb
  | cons first rest => exact (scans_of_ofFragments ht).length_literals hb hkind

/-- The binding of `?hidden` in a paragraph. -/
def hiddenFlag : Binding where
  kind := .boolean
  name := "hidden".toList
  literals := [[], []]
  tag := "p".toList
  leading := ' '

end Template

/-- The name of a binding has the characters of attribute names. -/
theorem Binding.Made.chars {b : Binding} (h : b.Made) :
    ∀ c ∈ b.name, OpenAttribute.isNameChar c = true := by
  obtain ⟨raw, hkey, hname⟩ := h.key
  have hsigil := BindingKind.sigil_append_ofName raw
  rw [hname] at hsigil
  exact fun c hc => hkey.chars c (hsigil ▸ List.mem_append_right _ hc)

/-- The name of a plain attribute is as it is written. -/
theorem Binding.Made.isKey {b : Binding} (h : b.Made) (hkind : b.kind = .attribute) :
    OpenAttribute.IsKey b.name := by
  obtain ⟨raw, hkey, hname⟩ := h.key
  have hsigil := BindingKind.sigil_append_ofName raw
  rw [hname, hkind] at hsigil
  rw [← hsigil] at hkey
  exact hkey

/-! ## Literals and values -/

namespace Text

/-- Literals with texts between them. -/
def interleave : (literals texts : List Text) → Text
  | [], _ => []
  | literal :: _, [] => literal
  | literal :: literals, t :: texts => literal ++ (t ++ interleave literals texts)

theorem mem_interleave {c : Char} {literals texts : List Text}
    (hlength : literals.length = texts.length + 1) (htexts : ∀ t ∈ texts, c ∉ t) :
    c ∈ interleave literals texts ↔ ∃ literal ∈ literals, c ∈ literal := by
  induction literals generalizing texts with
  | nil => simp at hlength
  | cons literal literals ih =>
    cases texts with
    | nil =>
      obtain rfl : literals = [] := by simpa using hlength
      simp [interleave]
    | cons t texts =>
      rw [List.forall_mem_cons] at htexts
      have hrest := ih (by simpa using hlength) htexts.2
      simp [interleave, htexts.1, hrest]

end Text

namespace Value

/-- Strings stand between the literals with entities. -/
theorem attributeValue_string (part : Part) (literals strings : List Text) :
    attributeValue part literals (strings.map .string) =
      .ok (some (Text.interleave literals (strings.map Text.escapeEntities))) := by
  induction literals generalizing strings with
  | nil => rfl
  | cons literal literals ih =>
    cases strings with
    | nil => rfl
    | cons s strings =>
      simp only [List.map_cons, attributeValue, ih, Text.interleave]
      rfl

theorem bindingText_string (config : Config) {b : Binding} (hkind : b.kind = .attribute)
    (strings : List Text) : bindingText config b (strings.map .string) =
      .ok (b.leading :: (b.name ++ '=' :: '"' ::
        (Text.interleave b.literals (strings.map Text.escapeEntities) ++ ['"']))) := by
  have hmarkup : ∀ value, attributeMarkup b value =
      b.leading :: (b.name ++ '=' :: '"' :: (value ++ ['"'])) := by
    intro value
    rw [attributeMarkup, hkind]
    rfl
  simp only [bindingText, hkind, attributeValue_string]
  exact congrArg Except.ok (hmarkup _)

end Value

/-! ## Reading attributes back -/

namespace Attributes

theorem value_of_mem_pairs {tokens : List AttributeToken} {a : Text × Text}
    (h : a ∈ pairs tokens) : a.2 = [] ∨ .word a.2 ∈ tokens ∨ .quoted a.2 ∈ tokens := by
  fun_induction pairs tokens with
  | case1 name value tokens ih =>
    rcases List.mem_cons.mp h with rfl | h
    · simp
    · have := ih h
      grind
  | case2 name value tokens ih =>
    rcases List.mem_cons.mp h with rfl | h
    · simp
    · have := ih h
      grind
  | case3 name tokens _ _ ih =>
    rcases List.mem_cons.mp h with rfl | h
    · simp
    · have := ih h
      grind
  | case4 token tokens _ _ _ ih =>
    have := ih h
    grind
  | case5 => cases h

end Attributes

theorem AttributeToken.quote_of_step {c : Char} {t value : Text}
    (h : (step c t).token = some (.quoted value)) : (c = '"' ∨ c = '\'') ∧ c ∉ value := by
  unfold step at h
  split at h
  · cases h
  split at h
  · next hquote =>
    split at h
    · next hcut =>
      cases h
      exact ⟨by simpa using hquote, Text.not_mem_of_cutAt? hcut⟩
    · cases h
  split at h
  · cases h
  · cases h

namespace Attributes

/-- A value with a double quote in it stood between single quotes. -/
theorem mem_of_mem_read {t : Text} {a : Text × Text} (h : a ∈ read t) (hquote : '"' ∈ a.2) :
    '\'' ∈ t := by
  rcases value_of_mem_pairs (Keyed.mem_of_mem_ofList h) with hnil | hword | hquoted
  · rw [hnil] at hquote
    cases hquote
  · have hread := Lexer.forall_tokens (fun _ _ _ => AttributeToken.read_of_step) t _ hword
    exact absurd (hread.2 _ hquote) (by decide)
  · obtain ⟨s, c, u, rfl, hstep⟩ := Lexer.exists_step_of_mem_tokens hquoted
    obtain ⟨rfl | rfl, hmem⟩ := AttributeToken.quote_of_step hstep
    · exact absurd hquote hmem
    · simp

theorem isWordChar_iff {c : Char} (h : OpenAttribute.isNameChar c = true) :
    AttributeToken.isWordChar c = true ↔ c ≠ '<' ∧ c ≠ '\x60' := by
  have hspace := OpenAttribute.isSpace_of_isNameChar h
  simp only [OpenAttribute.isNameChar, Bool.not_eq_true', Bool.or_eq_false_iff,
    decide_eq_false_iff_not] at h
  obtain ⟨⟨⟨⟨⟨-, hdouble⟩, hsingle⟩, hclose⟩, hequals⟩, -⟩ := h
  simp [AttributeToken.isWordChar, hspace, hdouble, hsingle, hclose, hequals]

/-- An attribute that is written between double quotes is read back exactly when its name is a word
and its value holds no double quote. -/
theorem read_quoted {leading : Char} {name value : Text} (hleading : Text.isSpace leading = true)
    (hkey : OpenAttribute.IsKey name) :
    read (leading :: (name ++ '=' :: '"' :: (value ++ ['"']))) = [(name, value)] ↔
      (∀ c ∈ name, c ≠ '<' ∧ c ≠ '\x60') ∧ '"' ∉ value := by
  have hword : (∀ c ∈ name, AttributeToken.isWordChar c = true) ↔
      ∀ c ∈ name, c ≠ '<' ∧ c ≠ '\x60' :=
    forall₂_congr fun c hc => isWordChar_iff (hkey.chars c hc)
  rw [← hword]
  constructor
  · intro hread
    have hmem : (name, value) ∈ read (leading :: (name ++ '=' :: '"' :: (value ++ ['"']))) := by
      rw [hread]
      exact List.mem_singleton_self _
    have hwritable := writable_of_mem_read hmem
    refine ⟨hwritable.name_word, fun hquote => ?_⟩
    have hsingle := mem_of_mem_read hmem hquote
    simp only [List.mem_cons, List.mem_append, List.not_mem_nil, or_false] at hsingle
    rcases hsingle with hsingle | hsingle | hsingle | hsingle | hsingle | hsingle
    · rw [← hsingle] at hleading
      exact absurd hleading (by decide)
    · exact absurd (hkey.chars _ hsingle) (by decide)
    · exact absurd hsingle (by decide)
    · exact absurd hsingle (by decide)
    · exact hwritable.oneQuote hquote hsingle
    · exact absurd hsingle (by decide)
  · rintro ⟨hname, hquote⟩
    have hstop : Text.Stops AttributeToken.isWordChar ('=' :: '"' :: (value ++ ['"'])) :=
      Text.stops_cons.mpr rfl
    rw [read, AttributeToken.tokens_space hleading,
      AttributeToken.tokens_word hkey.ne_nil hname hstop, AttributeToken.tokens_equals, AttributeToken.tokens_quoted (.inl rfl) hquote,
      Lexer.tokens_nil]
    rfl

end Attributes

/-! ## Plain attributes -/

namespace Template

/-- A plain attribute of an accepted template with a string in each of its places: what is written
for it is read as that one attribute, its literals interleaved with the escaped strings, exactly
when its name holds no `<` and no grave accent and no literal of it holds a double quote. -/
theorem read_bindingText (config : Config) {fragments : List Text} {t : Template}
    (ht : ofFragments fragments = .ok t) {b : Binding} (hb : some (.binding b) ∈ t.parts)
    (hkind : b.kind = .attribute) (strings : List Text)
    (hlength : strings.length = Part.segments (.binding b)) :
    ∃ out, Value.bindingText config b (strings.map .string) = .ok out ∧
      (Attributes.read out =
          [(b.name, Text.interleave b.literals (strings.map Text.escapeEntities))] ↔
        (∀ c ∈ b.name, c ≠ '<' ∧ c ≠ '\x60') ∧ ∀ literal ∈ b.literals, '"' ∉ literal) := by
  have hmade := made_of_mem_parts ht hb
  refine ⟨_, Value.bindingText_string config hkind strings, ?_⟩
  have hliterals : b.literals.length = (strings.map Text.escapeEntities).length + 1 := by
    have := b.two_le_length
    rw [List.length_map, hlength, Part.segments]
    omega
  have hescaped : ∀ s ∈ strings.map Text.escapeEntities, '"' ∉ s := by
    intro s hs
    obtain ⟨s, -, rfl⟩ := List.mem_map.mp hs
    exact Text.not_mem_escapeEntities (by decide) s
  rw [Attributes.read_quoted hmade.leading (hmade.isKey hkind),
    Text.mem_interleave hliterals hescaped]
  simp

/-- A title in single quotes, with two places. -/
def titled : Template := Tiling.template {
  head := "<a".toList
  tiles := [(.binding
    { kind := .attribute
      name := "title".toList
      literals := [[], " & ".toList, []]
      tag := "a".toList
      leading := ' ' }, ">x</a>".toList)] }

theorem ofFragments_titled :
    ofFragments ["<a title='".toList, " & ".toList, "'>x</a>".toList] = .ok titled :=
  ofFragments_eq_ok (by decide +kernel)

theorem read_bindingText_titled : ∃ b out,
    some (.binding b) ∈ titled.parts ∧
      Value.bindingText {} b [.string "a\"b".toList, .string "<c>".toList] = .ok out ∧
      Attributes.read out = [("title".toList, "a&quot;b & &lt;c&gt;".toList)] := by
  obtain ⟨out, hout, hread⟩ := read_bindingText {} ofFragments_titled List.mem_cons_self rfl
    ["a\"b".toList, "<c>".toList] rfl
  exact ⟨_, out, List.mem_cons_self, hout,
    hread.mpr ⟨List.all_iff_forall_prop.mp (by decide), by decide⟩⟩

/-- A title in single quotes whose literals put its value between double quotes. -/
def quoting : Template := Tiling.template {
  head := "<a".toList
  tiles := [(.binding
    { kind := .attribute
      name := "title".toList
      literals := ["say \"".toList, ['"']]
      tag := "a".toList
      leading := ' ' }, ">x</a>".toList)] }

/-- A value in double quotes inside single quotes is read as a name of its own. -/
theorem not_read_bindingText :
    ¬∀ (config : Config) (fragments : List Text) (t : Template) (b : Binding)
      (strings : List Text), ofFragments fragments = .ok t → some (.binding b) ∈ t.parts →
      b.kind = .attribute → strings.length = Part.segments (.binding b) →
      ∀ out, Value.bindingText config b (strings.map .string) = .ok out →
        Attributes.read out =
          [(b.name, Text.interleave b.literals (strings.map Text.escapeEntities))] := by
  intro h
  have hquoting : ofFragments ["<a title='say \"".toList, "\"'>x</a>".toList] = .ok quoting :=
    ofFragments_eq_ok (by decide +kernel)
  have hread := h {} _ _ _ [['v']] hquoting List.mem_cons_self rfl rfl _
    (Value.bindingText_string {} rfl _)
  revert hread
  decide +kernel

end Template

end LiveMarkup
