import LiveMarkup.Proofs.Markup.Building

/-!
# Canonical trees

Trees that are read back from their markup just as they are. `Node.CanonicalAll` puts down what a
tree has to satisfy for this, name by name and text by text; `parse_serialize` is the round trip.
-/

namespace LiveMarkup

/-- A character of a canonical tag name: a letter, a digit, a dot, an underscore or a hyphen. -/
def TagHead.isNameChar (c : Char) : Bool := Text.isAlphanum c || c = '.' || c = '_' || c = '-'

/-- A head with a plain name and with attributes that can be told apart and written. -/
structure TagHead.Canonical (head : TagHead) : Prop where
  name_start : ∃ c ∈ head.name.head?, Text.isAlphanum c = true ∨ c = '-'
  name_chars : ∀ c ∈ head.name, TagHead.isNameChar c = true
  void_of_name : Node.isVoidName head.name = true → head.void = true
  keys_ne_nil : ∀ a ∈ head.attributes, a.1 ≠ []
  keys_word : ∀ a ∈ head.attributes, ∀ c ∈ a.1, AttributeToken.isWordChar c = true
  keys_nodup : (head.attributes.map Prod.fst).Nodup
  values : ∀ a ∈ head.attributes, ¬('"' ∈ a.2 ∧ '\'' ∈ a.2)

namespace Node

open Token

/-- A text outside script and style elements: not empty, without `<`, and when it is blank and not
the first node of its row, one space that is not the last node of the document. -/
structure CanonicalText (first lastOfRoot : Bool) (content : Text) : Prop where
  ne_nil : content ≠ []
  no_bracket : '<' ∉ content
  one_space : content.all Text.isBlank = true → first = false →
    content = [' '] ∧ lastOfRoot = false

/-- The children of a script or style element called `name`: none, or one text that does not hold
the mark of its close tag. -/
def CanonicalBody (name : Text) (children : List Node) : Prop :=
  children = [] ∨ ∃ body, children = [.text body] ∧ body ≠ [] ∧
    ¬('<' :: '/' :: Text.lower name) <:+: Text.lower body

mutual

/-- A canonical node that is not a text. -/
def Canonical : Node → Prop
  | .text _ => False
  | .comment body => ¬commentClose <:+: body
  | .declaration body =>
    body.head? = some '!' ∧
      lexer.tokens ('<' :: (body ++ ['>'])) = [.tag ('<' :: (body ++ ['>']))]
  | .tag head children =>
    head.Canonical ∧
      if head.void then children = []
      else if isRawTextName head.name then CanonicalBody head.name children
      else CanonicalAll false true children

/-- A canonical row, at the root or not, from its first node on or from a later one. -/
def CanonicalAll (root first : Bool) : List Node → Prop
  | [] => True
  | .text content :: ns =>
    CanonicalText first (root && ns.isEmpty) content ∧ (∀ m ∈ ns.head?, m.isText = false) ∧
      CanonicalAll root false ns
  | n :: ns => Canonical n ∧ CanonicalAll root false ns

end

/-! ## Canonical trees are well formed and legible -/

theorem isNameChar_of_canonical {c : Char} (h : TagHead.isNameChar c = true) :
    isNameChar c = true ∧ isPlain c = true := by
  simp only [TagHead.isNameChar, Bool.or_eq_true, decide_eq_true_eq] at h
  rcases h with ((h | rfl) | rfl) | rfl
  · have hslash : c ≠ '/' := by rintro rfl; exact absurd h (by decide)
    have hdouble : c ≠ '"' := by rintro rfl; exact absurd h (by decide)
    have hsingle : c ≠ '\'' := by rintro rfl; exact absurd h (by decide)
    have hend : c ≠ '>' := by rintro rfl; exact absurd h (by decide)
    simp [isNameChar, isPlain, Text.isBlank_of_isAlphanum h, hslash, hdouble, hsingle, hend]
  all_goals decide

theorem wellFormed_of_canonical_head {head : TagHead} (h : head.Canonical) : head.WellFormed where
  name_start := by
    obtain ⟨c, hc, hstart⟩ := h.name_start
    obtain ⟨t, ht⟩ := List.head?_eq_some_iff.mp hc
    exact ⟨c, t, ht, hstart⟩
  name_chars c hc := (isNameChar_of_canonical (h.name_chars c hc)).1
  attributes a ha :=
    { name_ne_nil := h.keys_ne_nil a ha
      name_word := h.keys_word a ha
      oneQuote := fun hd hs => h.values a ha ⟨hd, hs⟩ }
  keys_nodup := h.keys_nodup
  void_of_name := h.void_of_name

theorem balanced_of_canonical {head : TagHead} (h : head.Canonical) : Balanced head.name :=
  quoteAfter?_plain fun c hc => (isNameChar_of_canonical (h.name_chars c hc)).2

theorem not_isText_of_canonical {n : Node} (h : Canonical n) : n.isText = false := by
  cases n with
  | text content => rw [Canonical] at h; exact h.elim
  | _ => rfl

/-- What a canonical row says about its first node. -/
theorem canonicalAll_cons {root first : Bool} {n : Node} {ns : List Node}
    (h : CanonicalAll root first (n :: ns)) :
    ((∃ content, n = .text content ∧ CanonicalText first (root && ns.isEmpty) content ∧
        ∀ m ∈ ns.head?, m.isText = false) ∨ Canonical n) ∧ CanonicalAll root false ns := by
  cases n with
  | text content =>
    rw [CanonicalAll] at h
    exact ⟨.inl ⟨content, rfl, h.1, h.2.1⟩, h.2.2⟩
  | comment | declaration | tag =>
    rw [CanonicalAll] at h
    · exact ⟨.inr h.1, h.2⟩
    · simp

/-- A canonical text stays what it is when it is built. -/
theorem textNodes_of_canonical {boundary : Boundary} {first last : Bool} {content : Text}
    (h : CanonicalText first last content) (hfirst : boundary = .closed → first = false) :
    textNodes boundary last content = [.text content] := by
  rw [textNodes, if_neg h.ne_nil]
  split
  · next hblank =>
    rw [Bool.and_eq_true, decide_eq_true_eq] at hblank
    obtain ⟨hspace, hlast⟩ := h.one_space hblank.2 (hfirst hblank.1)
    rw [hspace, hlast]
    rfl
  · rfl

theorem rowSettled_of_canonicalAll {root first : Bool} {boundary : Boundary} {ns : List Node}
    (h : CanonicalAll root first ns) (hfirst : boundary = .closed → first = false) :
    RowSettled boundary root ns := by
  induction ns generalizing first boundary with
  | nil => trivial
  | cons n ns ih =>
    obtain ⟨hn, hns⟩ := canonicalAll_cons h
    refine ⟨?_, ih hns fun _ => rfl⟩
    rintro content rfl
    rcases hn with ⟨_, heq, hcontent, -⟩ | hn
    · cases heq
      exact textNodes_of_canonical hcontent hfirst
    · rw [Canonical] at hn
      exact hn.elim

mutual

theorem wellFormed_of_canonical {n : Node} (h : Canonical n) : n.WellFormed := by
  match n with
  | .text _ => exact trivial
  | .comment _ | .declaration _ => exact h
  | .tag head children =>
    rw [Canonical] at h
    obtain ⟨hhead, hchildren⟩ := h
    refine ⟨wellFormed_of_canonical_head hhead, ?_⟩
    split at hchildren
    · rw [hchildren]
      trivial
    · split at hchildren
      · rcases hchildren with rfl | ⟨body, rfl, -⟩
        · trivial
        · exact ⟨trivial, ⟨fun _ m hm => (nomatch hm), trivial⟩⟩
      · exact wellFormedAll_of_canonicalAll hchildren

theorem wellFormedAll_of_canonicalAll {root first : Bool} {ns : List Node}
    (h : CanonicalAll root first ns) : WellFormedAll ns := by
  match ns with
  | [] => trivial
  | n :: ns =>
    obtain ⟨hn, hns⟩ := canonicalAll_cons h
    have hrest := wellFormedAll_of_canonicalAll hns
    rcases hn with ⟨content, rfl, -, hnext⟩ | hn
    · exact ⟨trivial, fun _ => hnext, hrest⟩
    · have htext := not_isText_of_canonical hn
      exact ⟨wellFormed_of_canonical hn, fun h => absurd h (by simp [htext]), hrest⟩

end

mutual

theorem legible_of_canonical {n : Node} (h : Canonical n) (tail : Text) : n.Legible tail := by
  match n with
  | .text _ => rw [Canonical] at h; exact h.elim
  | .comment _ | .declaration _ => trivial
  | .tag head children =>
    rw [Canonical] at h
    obtain ⟨hhead, hchildren⟩ := h
    rw [Legible]
    refine ⟨balanced_of_canonical hhead, ?_⟩
    cases hvoid : head.void with
    | true => trivial
    | false =>
      rw [hvoid] at hchildren
      simp only [Bool.false_eq_true, if_false, TagHead.isRaw, hvoid, Bool.not_false,
        Bool.true_and] at hchildren ⊢
      split at hchildren
      · next hraw =>
        rw [if_pos hraw]
        rcases hchildren with rfl | ⟨body, rfl, -, hbody⟩
        · simp [Unmarked, rawTextMark, markupAll, Text.lower]
        · simpa [Unmarked, rawTextMark, markupAll, markup] using hbody
      · next hraw =>
        rw [if_neg hraw]
        exact legibleAll_of_canonicalAll hchildren _

theorem legibleAll_of_canonicalAll {root first : Bool} {ns : List Node}
    (h : CanonicalAll root first ns) (tail : Text) : LegibleAll tail ns := by
  match ns with
  | [] => trivial
  | n :: ns =>
    obtain ⟨hn, hns⟩ := canonicalAll_cons h
    refine ⟨?_, legibleAll_of_canonicalAll hns tail⟩
    rcases hn with ⟨content, rfl, hcontent, -⟩ | hn
    · exact bareBrackets_of_not_mem hcontent.no_bracket
    · exact legible_of_canonical hn _

end

/-! ## Canonical trees are built as they are -/

mutual

theorem settle_of_canonical {n : Node} (h : Canonical n) : settle n = n := by
  match n with
  | .text _ | .comment _ | .declaration _ => rw [settle]
  | .tag head children =>
    rw [Canonical] at h
    obtain ⟨-, hchildren⟩ := h
    rw [settle]
    cases hvoid : head.void with
    | true =>
      rw [hvoid, if_pos rfl] at hchildren
      rw [if_pos rfl, hchildren]
    | false =>
      rw [hvoid] at hchildren
      simp only [Bool.false_eq_true, if_false, TagHead.isRaw, hvoid, Bool.not_false,
        Bool.true_and] at hchildren ⊢
      split at hchildren
      · next hraw =>
        rw [if_pos hraw]
        rcases hchildren with rfl | ⟨body, rfl, hne, -⟩
        · rfl
        · simp [rawNodes, markupAll, markup, hne]
      · next hraw =>
        have hsettled : RowSettled .opened false children :=
          rowSettled_of_canonicalAll hchildren fun hboundary => nomatch hboundary
        rw [if_neg hraw, settleAll_eq_map_settle hsettled (wellFormedAll_of_canonicalAll hchildren),
          map_settle_of_canonicalAll hchildren]

theorem map_settle_of_canonicalAll {root first : Bool} {ns : List Node}
    (h : CanonicalAll root first ns) : ns.map settle = ns := by
  match ns with
  | [] => rfl
  | n :: ns =>
    obtain ⟨hn, hns⟩ := canonicalAll_cons h
    rw [List.map_cons, map_settle_of_canonicalAll hns]
    rcases hn with ⟨content, rfl, -⟩ | hn
    · rw [settle]
    · rw [settle_of_canonical hn]

end

/-- A canonical tree is read back from its markup just as it is. -/
theorem parse_serialize {ns : List Node} (h : CanonicalAll true true ns) :
    parse (serialize ns) = ns := by
  have hwf := wellFormedAll_of_canonicalAll h
  have hsettled : RowSettled .start true ns :=
    rowSettled_of_canonicalAll h fun hboundary => nomatch hboundary
  calc parse (serialize ns)
      = parse (markupAll ns) := by rw [serialize_eq_markupAll]
    _ = settleAll .start true [] ns := parse_markupAll hwf (legibleAll_of_canonicalAll h [])
    _ = ns.map settle := settleAll_eq_map_settle hsettled hwf
    _ = ns := map_settle_of_canonicalAll h

theorem canonical_of_all {head : TagHead}
    (hstart : ∃ c ∈ head.name.head?, Text.isAlphanum c = true ∨ c = '-')
    (hchars : head.name.all TagHead.isNameChar = true)
    (hvoid : isVoidName head.name = true → head.void = true)
    (hkeys : ∀ a ∈ head.attributes, a.1 ≠ [] ∧ a.1.all AttributeToken.isWordChar = true)
    (hnodup : (head.attributes.map Prod.fst).Nodup)
    (hvalues : ∀ a ∈ head.attributes, ¬('"' ∈ a.2 ∧ '\'' ∈ a.2)) : head.Canonical where
  name_start := hstart
  name_chars := List.all_eq_true.mp hchars
  void_of_name := hvoid
  keys_ne_nil a ha := (hkeys a ha).1
  keys_word a ha := List.all_eq_true.mp (hkeys a ha).2
  keys_nodup := hnodup
  values := hvalues

/-- A page with each kind of node: quotes of both kinds, one space behind a comment, a void tag, and
a script that holds a `<`. -/
def samplePage : List Node :=
  [.declaration "!doctype html".toList,
    .tag ⟨"p".toList, [("title".toList, "say \"hi\"".toList), ("id".toList, "it's".toList)], false⟩
      [.text "a".toList, .comment " - ".toList, .text [' '], .tag ⟨"br".toList, [], true⟩ []],
    .tag ⟨"script".toList, [], false⟩ [.text "a<b".toList]]

theorem canonicalAll_samplePage : CanonicalAll true true samplePage := by
  have hdeclaration : lexer.tokens "<!doctype html>".toList = [.tag "<!doctype html>".toList] := by
    have hstep : lexer.step '<' "!doctype html>".toList =
        ⟨some (.tag "<!doctype html>".toList), "<!doctype html>".toList, []⟩ := by rfl
    have htokens := Lexer.tokens_cons lexer '<' "!doctype html>".toList
    rw [hstep, Lexer.tokens_nil] at htokens
    exact htokens
  have hp : TagHead.Canonical ⟨"p".toList,
      [("title".toList, "say \"hi\"".toList), ("id".toList, "it's".toList)], false⟩ := by
    refine canonical_of_all ⟨'p', rfl, .inl rfl⟩ ?_ ?_ ?_ ?_ ?_ <;> decide
  have hbr : TagHead.Canonical ⟨"br".toList, [], true⟩ := by
    refine canonical_of_all ⟨'b', rfl, .inl rfl⟩ ?_ ?_ ?_ ?_ ?_ <;> decide
  have hscript : TagHead.Canonical ⟨"script".toList, [], false⟩ := by
    refine canonical_of_all ⟨'s', rfl, .inl rfl⟩ ?_ ?_ ?_ ?_ ?_ <;> decide
  have ha : CanonicalText true false "a".toList := by
    constructor <;> decide
  have hspace : CanonicalText false false [' '] := by
    constructor <;> decide
  have hcomment : ¬commentClose <:+: " - ".toList := by
    decide
  have hbody : CanonicalBody "script".toList [.text "a<b".toList] :=
    .inr ⟨_, rfl, by decide, by decide⟩
  refine ⟨⟨rfl, hdeclaration⟩, ⟨hp, ?_⟩, ⟨hscript, hbody⟩, trivial⟩
  exact ⟨ha, by simp [isText], hcomment, hspace, by simp [isText], ⟨hbr, rfl⟩, trivial⟩

/-- The page comes back from its markup. -/
theorem parse_serialize_samplePage : parse (serialize samplePage) = samplePage :=
  parse_serialize canonicalAll_samplePage

end Node

end LiveMarkup
