import LiveMarkup.Proofs.Escape.Entities
import LiveMarkup.Proofs.Markup.Building
import LiveMarkup.Proofs.Template.Rendering

/-!
# From stencils to trees

The way from a stencil with its values over template, markup and tokens to a tree gives the stencil
with its holes filled. `parse_markupAll_fill` is the half of it that concerns markup;
`parse_resolve` is the whole way for values that are strings, which stand escaped in their holes.
-/

namespace LiveMarkup

namespace Stencil

open Node

variable {α : Type} {value text : α → Text}

/-! ## Filled stencils are legible -/

theorem isWordChar_of_isNameChar {c : Char} (h : isNameChar c = true) :
    AttributeToken.isWordChar c = true := by
  have hspace := OpenAttribute.isSpace_of_isNameChar (isAttributeNameChar h)
  simp [AttributeToken.isWordChar, hspace, isNameChar_ne h (d := '"') rfl,
    isNameChar_ne h (d := '\'') rfl, isNameChar_ne h (d := '=') rfl, isNameChar_ne h (d := '<') rfl,
    isNameChar_ne h (d := '>') rfl, isNameChar_ne h (d := '\x60') rfl]

theorem isNameChar_node {c : Char} (h : isNameChar c = true) : Node.isNameChar c = true := by
  have hblank : Text.isBlank c = false := by
    rcases isAlphanum_of_isNameChar h with h | rfl
    · exact Text.isBlank_of_isAlphanum h
    · decide
  simp [Node.isNameChar, hblank, isNameChar_ne h (d := '/') rfl]

theorem isPlain_of_isNameChar {c : Char} (h : isNameChar c = true) : Token.isPlain c = true := by
  simp [Token.isPlain, isNameChar_ne h (d := '"') rfl, isNameChar_ne h (d := '\'') rfl,
    isNameChar_ne h (d := '>') rfl]

/-- The head of an element with its holes filled. -/
theorem wellFormed_fill (hvalue : ∀ a, '"' ∉ value a) (name : ElementName)
    (attributes : AttributeRuns α) :
    TagHead.WellFormed ⟨name.text, attributes.fill value, false⟩ where
  name_start := by
    obtain ⟨c, hc, hlower⟩ := name.start
    obtain ⟨t, ht⟩ := List.head?_eq_some_iff.mp hc
    exact ⟨c, t, ht, .inl (Text.isAlphanum_of_isLower hlower)⟩
  name_chars c hc := isNameChar_node (name.chars c hc)
  attributes a ha := by
    obtain ⟨entry, -, rfl⟩ := List.mem_map.mp ha
    exact
      { name_ne_nil := entry.1.isKey.ne_nil
        name_word := fun c hc => isWordChar_of_isNameChar (entry.1.chars c hc)
        oneQuote := fun hmem => absurd hmem (not_mem_fill hvalue entry.2) }
  keys_nodup := attributes.nodup_keys_fill value
  void_of_name h := by
    rw [name.not_void] at h
    contradiction

theorem not_mem_fill_text (htext : ∀ a, '<' ∉ text a) (r : Run α isBarredInText) :
    '<' ∉ r.fill text := by
  intro hmem
  rcases List.mem_append.mp hmem with hmem | hmem
  · exact absurd (r.head_plain _ hmem) (by decide)
  · obtain ⟨p, hp, hmem⟩ := List.mem_flatMap.mp hmem
    rcases List.mem_append.mp hmem with hmem | hmem
    · exact htext p.1 hmem
    · exact absurd (r.tail_plain p hp _ hmem) (by decide)

theorem wellFormedAll_fill (hvalue : ∀ a, '"' ∉ value a) (s : Stencil α) :
    WellFormedAll (s.fill value text) := by
  induction s with
  | text run =>
    refine ⟨trivial, ⟨?_, trivial⟩⟩
    intro _ m hm
    cases hm
  | element before name attributes children after ihchildren ihafter =>
    refine ⟨trivial, ⟨?_, ⟨⟨wellFormed_fill hvalue name attributes, ihchildren⟩, ⟨?_, ihafter⟩⟩⟩⟩
    · intro _ m hm
      cases hm
      rfl
    · intro h
      cases h

theorem not_isRaw (name : ElementName) (attributes : Attributes) :
    TagHead.isRaw ⟨name.text, attributes, false⟩ = false := by
  simp [TagHead.isRaw, name.not_raw]

theorem legibleAll_fill (htext : ∀ a, '<' ∉ text a) (s : Stencil α) (tail : Text) :
    LegibleAll tail (s.fill value text) := by
  induction s generalizing tail with
  | text run =>
    exact ⟨Token.bareBrackets_of_not_mem (not_mem_fill_text htext run), trivial⟩
  | element before name attributes children after ihchildren ihafter =>
    refine ⟨Token.bareBrackets_of_not_mem (not_mem_fill_text htext before), ⟨?_, ihafter tail⟩⟩
    rw [Legible]
    refine ⟨Token.quoteAfter?_plain fun c hc => isPlain_of_isNameChar (name.chars c hc), ?_⟩
    rw [if_neg (by simp), not_isRaw, if_neg (by simp)]
    exact ihchildren ['<']

/-! ## Blank texts -/

theorem dropBlankAll_textNodes (boundary : Boundary) (atEnd : Bool) (content : Text)
    (ns : List Node) : dropBlankAll (textNodes boundary atEnd content ++ ns) =
      dropBlankAll (.text content :: ns) := by
  unfold textNodes
  split
  · next h => simp [h, dropBlankAll]
  split
  · next h =>
    rw [Bool.and_eq_true] at h
    have hspace : Text.isBlank ' ' = true := rfl
    cases atEnd <;> simp [dropBlankAll, h.2, hspace]
  · rfl

/-- Building a filled stencil changes nothing but blank texts. -/
theorem dropBlankAll_settleAll_fill (s : Stencil α) (boundary : Boundary) (atEnd : Bool) :
    dropBlankAll (settleAll boundary atEnd [] (s.fill value text)) =
      dropBlankAll (s.fill value text) := by
  induction s generalizing boundary atEnd with
  | text run =>
    have hnodes := dropBlankAll_textNodes boundary atEnd (run.fill text) []
    rw [List.append_nil] at hnodes
    rw [fill, settleAll, settleAll, List.nil_append, hnodes]
  | element before name attributes children after ihchildren ihafter =>
    rw [fill, settleAll, settleAll_cons rfl, List.nil_append, dropBlankAll_textNodes, settle,
      if_neg (by simp), not_isRaw, if_neg (by simp)]
    simp only [dropBlankAll, dropBlank, ihchildren, ihafter]

/-- The markup of a filled stencil is read back as the filled stencil. -/
theorem parse_markupAll_fill (hvalue : ∀ a, '"' ∉ value a) (htext : ∀ a, '<' ∉ text a)
    (s : Stencil α) :
    dropBlankAll (parse (markupAll (s.fill value text))) = dropBlankAll (s.fill value text) := by
  rw [parse_markupAll (wellFormedAll_fill hvalue s) (legibleAll_fill htext s []),
    dropBlankAll_settleAll_fill]

/-! ## Strings -/

/-- A string is written with entities, in attribute values and in the text of plain elements. -/
theorem fills_string (config : Config) (t : Text) :
    Value.Slot.Fills ⟨.string t, fun tag => Value.nodeText config (.string t) false tag⟩
      (Text.escapeEntities t) (Text.escapeEntities t) where
  value part := ⟨.string t, rfl, rfl⟩
  text tag htag := by
    have hnode : Value.nodeText config (.string t) false tag =
        .ok (Text.escape (.forTextIn tag) t) := by
      rw [Value.nodeText]
    rw [htag] at hnode
    exact hnode

/-- From a stencil and a string for each label to a tree: the fragments make a template, this
resolves, and the tree of what it resolves to is the stencil with the escaped strings in its holes,
blank texts apart. Where every hole has a label of its own, the strings are any vector of them. -/
theorem parse_resolve (config : Config) (s : Stencil α) (strings : α → Text) :
    ∃ t out, Template.ofFragments s.fragments = .ok t ∧
      (TemplateResult.ofFragments s.fragments
        (s.holes.map fun a => .string (strings a))).resolve config = .ok out ∧
      dropBlankAll (parse out) = dropBlankAll
        (s.fill (fun a => Text.escapeEntities (strings a))
          fun a => Text.escapeEntities (strings a)) := by
  have hquote : ∀ a, '"' ∉ Text.escapeEntities (strings a) := fun a =>
    Text.not_mem_escapeEntities (by decide) (strings a)
  have hbracket : ∀ a, '<' ∉ Text.escapeEntities (strings a) := fun a =>
    Text.not_mem_escapeEntities (by decide) (strings a)
  obtain ⟨t, ht, hresolve⟩ :=
    resolve_fragments config s (fun a => fills_string config (strings a)) hquote
  refine ⟨t, _, ht, ?_, parse_markupAll_fill hquote hbracket s⟩
  rw [TemplateResult.ofFragments, ht]
  exact hresolve

end Stencil

end LiveMarkup
