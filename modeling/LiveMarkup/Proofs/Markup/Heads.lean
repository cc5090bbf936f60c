import LiveMarkup.Markup.Tree
import LiveMarkup.Proofs.Markup.Quotes
import LiveMarkup.Proofs.Text.Spans

/-!
# Open tags

What is written for the head of a tag is read back as that head. `TagHead.WellFormed` collects what
every head that was read satisfies; `headOf_openTag` is the way back, and `quoteAfter?_openTag` says
that the tag that is written ends at its own `>` exactly when its name leaves no quote open.
-/

namespace LiveMarkup

/-! ## Attribute lists -/

namespace AttributeToken

theorem tokens_space {c : Char} (hc : Text.isSpace c = true) (t : Text) :
    lexer.tokens (c :: t) = lexer.tokens t := by
  have hstep : lexer.step c t = ⟨none, [c], t⟩ := by
    simp only [Text.isSpace, Bool.or_eq_true, decide_eq_true_eq] at hc
    rcases hc with (((rfl | rfl) | rfl) | rfl) | rfl <;> rfl
  rw [Lexer.tokens_cons, hstep]
  rfl

theorem tokens_equals (t : Text) : lexer.tokens ('=' :: t) = .equals :: lexer.tokens t := by
  rw [Lexer.tokens_cons]
  rfl

theorem isPlain_of_isWordChar {c : Char} (h : isWordChar c = true) : Token.isPlain c = true := by
  simp only [isWordChar, Token.isPlain, Bool.not_eq_true', Bool.or_eq_false_iff,
    decide_eq_false_iff_not] at h ⊢
  exact ⟨⟨h.1.1.1.1.1.2, h.1.1.1.1.2⟩, h.1.2⟩

theorem isWordChar_of_isSpace {c : Char} (h : Text.isSpace c = true) : isWordChar c = false := by
  simp [isWordChar, h]

/-- A word that ends where no word goes on. -/
theorem tokens_word {word : Text} (hne : word ≠ []) (hword : ∀ c ∈ word, isWordChar c = true)
    {t : Text} (ht : Text.Stops isWordChar t) :
    lexer.tokens (word ++ t) = .word word :: lexer.tokens t := by
  cases word with
  | nil => contradiction
  | cons c word =>
    have hc := hword c List.mem_cons_self
    have hrest : ∀ d ∈ word, isWordChar d = true := fun d hd => hword d (List.mem_cons_of_mem c hd)
    have hequals : c ≠ '=' := by
      rintro rfl
      exact absurd hc (by decide)
    have hquote : ¬(c = '"' ∨ c = '\'') := by
      rintro (rfl | rfl) <;> exact absurd hc (by decide)
    have hstep : lexer.step c (word ++ t) = ⟨some (.word (c :: word)), c :: word, t⟩ := by
      simp only [lexer, step, hequals, if_false, Bool.or_eq_true, decide_eq_true_eq, hquote, hc,
        if_true, Text.takeWhile_append_of_stops hrest ht, Text.dropWhile_append_of_stops hrest ht]
    rw [List.cons_append, Lexer.tokens_cons, hstep]
    rfl

/-- A text in quotes that it does not hold. -/
theorem tokens_quoted {q : Char} (hq : q = '"' ∨ q = '\'') {value : Text} (hvalue : q ∉ value)
    (t : Text) :
    lexer.tokens (q :: (value ++ q :: t)) = .quoted value :: lexer.tokens t := by
  have hstep : lexer.step q (value ++ q :: t) = ⟨some (.quoted value), q :: (value ++ [q]), t⟩ := by
    rcases hq with rfl | rfl <;> simp [lexer, step, Text.cutAt?_append hvalue]
  rw [Lexer.tokens_cons, hstep]
  rfl

end AttributeToken

/-- The text of an attribute value does not hold both kinds of quotes. -/
def OneQuote (value : Text) : Prop := '"' ∈ value → '\'' ∉ value

namespace Node

/-- A value that does not hold both kinds of quotes is written between quotes that it does not
hold. -/
theorem quotedValue_eq {value : Text} (h : OneQuote value) :
    ∃ q, (q = '"' ∨ q = '\'') ∧ q ∉ value ∧ quotedValue value = q :: (value ++ [q]) := by
  unfold quotedValue
  by_cases hd : '"' ∈ value
  · have hs := h hd
    exact ⟨'\'', .inr rfl, hs, by simp [hd, hs]⟩
  · exact ⟨'"', .inl rfl, hd, by simp [hd]⟩

end Node

/-- An attribute that can be written and read back: its name is a word, and its value does not
hold both kinds of quotes. -/
structure WritableAttribute (a : Text × Text) : Prop where
  name_ne_nil : a.1 ≠ []
  name_word : ∀ c ∈ a.1, AttributeToken.isWordChar c = true
  oneQuote : OneQuote a.2

namespace Attributes

theorem tokens_attributeText {a : Text × Text} (ha : WritableAttribute a) (t : Text) :
    AttributeToken.lexer.tokens (Node.attributeText a ++ t) =
      .word a.1 :: .equals :: .quoted a.2 :: AttributeToken.lexer.tokens t := by
  obtain ⟨q, hq, hvalue, hquoted⟩ := Node.quotedValue_eq ha.oneQuote
  rw [Node.attributeText, hquoted]
  simp only [List.cons_append, List.append_assoc, List.nil_append]
  have hstop : ∀ t, Text.Stops AttributeToken.isWordChar ('=' :: t) := fun _ =>
    Text.stops_cons.mpr rfl
  rw [AttributeToken.tokens_space rfl,
    AttributeToken.tokens_word ha.name_ne_nil ha.name_word (hstop _), AttributeToken.tokens_equals,
    AttributeToken.tokens_quoted hq hvalue]

theorem pairs_attributeText {attributes : List (Text × Text)}
    (h : ∀ a ∈ attributes, WritableAttribute a) :
    pairs (AttributeToken.lexer.tokens (attributes.flatMap Node.attributeText)) = attributes := by
  induction attributes with
  | nil => simp [pairs]
  | cons a attributes ih =>
    rw [List.flatMap_cons, tokens_attributeText (h a List.mem_cons_self)]
    simp only [pairs]
    rw [ih fun b hb => h b (List.mem_cons_of_mem a hb)]

end Attributes

namespace Attributes

/-- Written attributes are read back. -/
theorem read_attributeText {attributes : Attributes} (h : ∀ a ∈ attributes, WritableAttribute a)
    (hkeys : (Keyed.keys attributes).Nodup) :
    read (attributes.flatMap Node.attributeText) = attributes := by
  rw [read, pairs_attributeText h, Keyed.ofList_of_nodup hkeys]

end Attributes

/-! ## Tags -/

/-- A character of a tag name: no blank and no slash. -/
def Node.isNameChar (c : Char) : Bool := !(Text.isBlank c || c = '/')

theorem Node.isNameChar_of_isSpace {c : Char} (h : Text.isSpace c = true) :
    Node.isNameChar c = false := by
  simp [Node.isNameChar, Text.isBlank_of_isSpace h]

/-- What every head satisfies that was read from an open tag. -/
structure TagHead.WellFormed (head : TagHead) : Prop where
  name_start : ∃ c t, head.name = c :: t ∧ (Text.isAlphanum c = true ∨ c = '-')
  name_chars : ∀ c ∈ head.name, Node.isNameChar c = true
  attributes : ∀ a ∈ head.attributes, WritableAttribute a
  keys_nodup : (Keyed.keys head.attributes).Nodup
  void_of_name : Node.isVoidName head.name = true → head.void = true

namespace Node

/-- What stands in an open tag between its angle brackets, but for the slash of a void tag. -/
def headText (head : TagHead) : Text := head.name ++ head.attributes.flatMap attributeText

theorem openTag_eq (head : TagHead) :
    openTag head = '<' :: ((headText head ++ if head.void then ['/'] else []) ++ ['>']) := by
  cases hvoid : head.void <;> simp [openTag, headText, hvoid]

theorem stops_flatMap_attributeText (attributes : Attributes) :
    Text.Stops isNameChar (attributes.flatMap attributeText) := by
  cases attributes with
  | nil => simp
  | cons a attributes => simp [attributeText, isNameChar, Text.isBlank]

/-- The last character of an attribute is its closing quote. -/
theorem getLast?_attributeText {a : Text × Text} (ha : WritableAttribute a) :
    (attributeText a).getLast? ≠ some '/' := by
  obtain ⟨q, hq, -, hquoted⟩ := quotedValue_eq ha.oneQuote
  have hlast : (attributeText a).getLast? = some q := by
    rw [attributeText, hquoted]
    simp [List.getLast?_append, List.getLast?_cons]
  rw [hlast]
  rcases hq with rfl | rfl <;> decide

/-- A slash at the end of a tag is never part of its name or of its attributes. -/
theorem getLast?_headText {head : TagHead} (h : head.WellFormed) :
    (headText head).getLast? ≠ some '/' := by
  rw [headText]
  rcases List.eq_nil_or_concat head.attributes with hnil | ⟨attributes, a, hconcat⟩
  · intro hlast
    rw [hnil, List.flatMap_nil, List.append_nil] at hlast
    have := h.name_chars '/' (List.mem_of_getLast? hlast)
    simp [isNameChar] at this
  · have ha : WritableAttribute a := h.attributes a (by simp [hconcat])
    obtain ⟨q, hq⟩ : ∃ q, (attributeText a).getLast? = some q :=
      ⟨_, List.getLast?_eq_some_getLast (by simp [attributeText])⟩
    have hne := getLast?_attributeText ha
    rw [hq] at hne
    simpa [hconcat, List.getLast?_append, hq] using hne

/-- The head of a tag whose inside is known, but for a slash at its end. -/
theorem headOf_eq {source inside : Text} {slash : Bool}
    (hsource : (source.drop 1).dropLast = inside ++ if slash then ['/'] else [])
    (hlast : slash = false → inside.getLast? ≠ some '/') :
    headOf source = ⟨inside.takeWhile isNameChar, Attributes.read (inside.dropWhile isNameChar),
      slash || isVoidName (inside.takeWhile isNameChar)⟩ := by
  cases slash with
  | false =>
    rw [if_neg Bool.false_ne_true, List.append_nil] at hsource
    simp only [headOf, hsource, hlast rfl, decide_false, Bool.false_or, if_false]
    rfl
  | true =>
    rw [if_pos rfl] at hsource
    simp only [headOf, hsource, List.getLast?_concat, List.dropLast_concat, decide_true,
      Bool.true_or, if_true]
    rfl

/-- The head that is written is the head that is read. -/
theorem headOf_openTag {head : TagHead} (h : head.WellFormed) : headOf (openTag head) = head := by
  have hsource : ((openTag head).drop 1).dropLast =
      headText head ++ if head.void then ['/'] else [] := by
    rw [openTag_eq, List.drop_one, List.tail_cons, List.dropLast_concat]
  have hname : (headText head).takeWhile isNameChar = head.name :=
    Text.takeWhile_append_of_stops h.name_chars (stops_flatMap_attributeText _)
  have hrest : (headText head).dropWhile isNameChar = head.attributes.flatMap attributeText :=
    Text.dropWhile_append_of_stops h.name_chars (stops_flatMap_attributeText _)
  have hvoid : (head.void || isVoidName head.name) = head.void := by
    rw [Bool.or_eq_left_iff_imp]
    exact h.void_of_name
  rw [headOf_eq hsource fun _ => getLast?_headText h, hname, hrest,
    Attributes.read_attributeText h.attributes h.keys_nodup, hvoid]

/-- What follows the `<` of a written tag makes it the start of an open tag. -/
theorem openTag_start {head : TagHead} (h : head.WellFormed) :
    ∃ c t, openTag head = '<' :: c :: t ∧ (Text.isAlphanum c = true ∨ c = '-') := by
  obtain ⟨c, t, hname, hc⟩ := h.name_start
  exact ⟨c, _, by rw [openTag, hname]; rfl, hc⟩

theorem roleOf_eq_opens {c : Char} (hc : Text.isAlphanum c = true ∨ c = '-') (t : Text) :
    roleOf ('<' :: c :: t) = .opens (headOf ('<' :: c :: t)) := by
  have hslash : c ≠ '/' := by
    rintro rfl
    exact absurd hc (by decide)
  have hmark : c ≠ '!' := by
    rintro rfl
    exact absurd hc (by decide)
  unfold roleOf
  split
  · next heq => exact absurd (List.cons.inj (List.cons.inj heq).2).1 hslash
  · next heq => exact absurd (List.cons.inj (List.cons.inj heq).2).1 hmark
  · rfl

theorem roleOf_openTag {head : TagHead} (h : head.WellFormed) :
    roleOf (openTag head) = .opens head := by
  obtain ⟨c, t, hopen, hc⟩ := openTag_start h
  rw [hopen, roleOf_eq_opens hc, ← hopen, headOf_openTag h]

/-! ## Where written tags end -/

theorem quoteAfter?_attributeText {a : Text × Text} (ha : WritableAttribute a) :
    Token.quoteAfter? none (attributeText a) = some none := by
  obtain ⟨q, hq, hvalue, hquoted⟩ := quotedValue_eq ha.oneQuote
  have hplain : ∀ c ∈ ' ' :: (a.1 ++ ['=']), Token.isPlain c = true := by
    intro c hc
    rcases List.mem_cons.mp hc with rfl | hc
    · decide
    rcases List.mem_append.mp hc with hc | hc
    · exact AttributeToken.isPlain_of_isWordChar (ha.name_word c hc)
    · rw [List.mem_singleton.mp hc]
      decide
  have hsplit : attributeText a = (' ' :: (a.1 ++ ['='])) ++ q :: (a.2 ++ [q]) := by
    rw [attributeText, hquoted]
    simp
  rw [hsplit, Token.quoteAfter?_append, Token.quoteAfter?_plain hplain]
  exact Token.quoteAfter?_quoted hq hvalue

theorem quoteAfter?_flatMap_attributeText {attributes : List (Text × Text)}
    (h : ∀ a ∈ attributes, WritableAttribute a) :
    Token.quoteAfter? none (attributes.flatMap attributeText) = some none := by
  induction attributes with
  | nil => rfl
  | cons a attributes ih =>
    rw [List.flatMap_cons, Token.quoteAfter?_append,
      quoteAfter?_attributeText (h a List.mem_cons_self)]
    exact ih fun b hb => h b (List.mem_cons_of_mem a hb)

/-- The name of a tag leaves no quote open. -/
def Balanced (name : Text) : Prop := Token.quoteAfter? none name = some none

/-- A written tag whose name leaves no quote open ends at its own `>`. -/
theorem quoteAfter?_headText {head : TagHead} (h : head.WellFormed) (hname : Balanced head.name)
    (slash : Bool) :
    Token.quoteAfter? none (headText head ++ if slash then ['/'] else []) = some none := by
  rw [headText, Token.quoteAfter?_append, Token.quoteAfter?_append, hname]
  simp only [Option.bind_some, quoteAfter?_flatMap_attributeText h.attributes]
  cases slash <;> rfl

theorem isOpen_flatMap_attributeText {attributes : List (Text × Text)}
    (h : ∀ a ∈ attributes, WritableAttribute a) {q : Char} (hq : q = '"' ∨ q = '\'') :
    Token.IsOpen (Token.quoteAfter? (some q) (attributes.flatMap attributeText)) := by
  induction attributes generalizing q with
  | nil =>
    intro quote heq
    exact ⟨q, (Option.some.inj heq).symm, hq⟩
  | cons a attributes ih =>
    have ha := h a List.mem_cons_self
    obtain ⟨q', hq', hvalue, hquoted⟩ := quotedValue_eq ha.oneQuote
    have hlead : q ∉ ' ' :: (a.1 ++ ['=']) := by
      simp only [List.mem_cons, List.mem_append, List.not_mem_nil, or_false, not_or]
      refine ⟨?_, fun hmem => ?_, ?_⟩
      · rcases hq with rfl | rfl <;> decide
      · have hword := ha.name_word q hmem
        rcases hq with rfl | rfl <;> exact absurd hword (by decide)
      · rcases hq with rfl | rfl <;> decide
    have hsplit : attributeText a = (' ' :: (a.1 ++ ['='])) ++ q' :: (a.2 ++ [q']) := by
      rw [attributeText, hquoted]
      simp
    rw [List.flatMap_cons, Token.quoteAfter?_append]
    refine Token.IsOpen.bind ?_ fun q hq => ih (fun b hb => h b (List.mem_cons_of_mem a hb)) hq
    rw [hsplit, Token.quoteAfter?_append, Token.quoteAfter?_inside hlead]
    exact Token.isOpen_quoted hq hq' hvalue

/-- No attribute closes a quote that the name has left open. -/
theorem balanced_of_quoteAfter?_headText {head : TagHead} (h : head.WellFormed) {slash : Bool}
    (hend : Token.quoteAfter? none (headText head ++ if slash then ['/'] else []) = some none) :
    Balanced head.name := by
  rw [headText, List.append_assoc, Token.quoteAfter?_append] at hend
  rw [Balanced]
  cases hname : Token.quoteAfter? none head.name with
  | none => rw [hname] at hend; contradiction
  | some quote =>
    cases quote with
    | none => rfl
    | some q =>
      have hq : q = '"' ∨ q = '\'' :=
        (Token.eq_or_mem_of_quoteAfter? hname).elim (fun heq => nomatch heq) And.right
      have hopen : Token.IsOpen (Token.quoteAfter? (some q)
          (head.attributes.flatMap attributeText ++ if slash then ['/'] else [])) := by
        rw [Token.quoteAfter?_append]
        refine Token.IsOpen.bind (isOpen_flatMap_attributeText h.attributes hq) fun q hq => ?_
        intro quote heq
        refine ⟨q, ?_, hq⟩
        have hstay : Token.quoteAfter? (some q) (if slash then ['/'] else []) = some (some q) := by
          apply Token.quoteAfter?_inside
          rcases hq with rfl | rfl <;> cases slash <;> decide
        rw [hstay] at heq
        exact (Option.some.inj heq).symm
      rw [hname] at hend
      obtain ⟨q', hq', -⟩ := hopen none hend
      contradiction

/-! ## The heads of a tree -/

mutual

/-- The heads of the tags of a node in the order of the document. -/
def heads : Node → List TagHead
  | .tag head children => head :: headsAll children
  | .text _ | .comment _ | .declaration _ => []

/-- The heads of the tags of a row in the order of the document. -/
def headsAll : List Node → List TagHead
  | [] => []
  | n :: ns => heads n ++ headsAll ns

end

theorem headsAll_append (ns ms : List Node) : headsAll (ns ++ ms) = headsAll ns ++ headsAll ms := by
  induction ns with
  | nil => rfl
  | cons n ns ih => rw [List.cons_append, headsAll, headsAll, ih, List.append_assoc]

section Forall

variable {p : TagHead → Prop} {head : TagHead} {children ns : List Node} {n : Node}

/-- What holds of all heads of a row holds of its first tag and of the heads inside it. -/
theorem forall_headsAll_tag (h : ∀ inner ∈ headsAll (.tag head children :: ns), p inner) :
    p head ∧ ∀ inner ∈ headsAll children, p inner :=
  List.forall_mem_cons.mp (List.forall_mem_append.mp h).1

theorem forall_headsAll_rest (h : ∀ inner ∈ headsAll (n :: ns), p inner) :
    ∀ inner ∈ headsAll ns, p inner :=
  (List.forall_mem_append.mp h).2

end Forall

end Node

end LiveMarkup
