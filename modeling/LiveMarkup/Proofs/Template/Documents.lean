import LiveMarkup.Proofs.Markup.Apart
import LiveMarkup.Proofs.Markup.Marked
import LiveMarkup.Proofs.Template.Draft
import Mathlib.Data.Bool.AllAny
import Mathlib.Logic.Function.Basic

/-!
# Documents of drafts

A draft with a word in each of its holes is a document, and each of its blocks is read by itself
(`Block.reads`). When the word in one hole varies and the others stay, one token of the document
varies, and so the tree has a mark where the draft says that the hole is (`exists_marked`).
-/

namespace LiveMarkup

/-- The texts of words. -/
def Word.texts {α : Type} (f : α → Word) (a : α) : Text := (f a).text

/-- A mark without letters lies before a word or behind it. -/
theorem Word.not_within {mark s t : Text} (hmark : ∀ c ∈ mark, c.isAlpha = false)
    (hs : ¬mark <:+: s) (ht : ¬mark <:+: t) (w : Word) : ¬mark <:+: s ++ (w.text ++ t) := by
  have hword : ∀ u : Text, (∀ c ∈ u, c.isAlpha = true) → ¬mark <:+: u ++ t := by
    intro u hu
    induction u with
    | nil => exact ht
    | cons c u ih =>
      rw [List.forall_mem_cons] at hu
      have hc : c ∉ mark := fun hmem => by simp [hmark c hmem] at hu
      intro h
      rcases Text.infix_of_infix_append_cons (s := []) hc h with h | h
      · exact hs (h.trans (List.nil_infix))
      · exact ih hu.2 h
  obtain ⟨c, u, hw⟩ := List.exists_cons_of_ne_nil w.ne_nil
  have hletters := w.letters
  rw [hw] at hletters ⊢
  rw [List.forall_mem_cons] at hletters
  have hc : c ∉ mark := fun hmem => by simp [hmark c hmem] at hletters
  intro h
  rcases Text.infix_of_infix_append_cons hc h with h | h
  · exact hs h
  · exact hword u hletters.2 h

/-! ## One hole varies -/

namespace Piece

variable {α : Type}

theorem fill_congr {f g : α → Text} {ps : List (Piece α)} (h : ∀ a ∈ labels ps, f a = g a) :
    fill f ps = fill g ps := by
  induction ps with
  | nil => rfl
  | cons p ps ih =>
    cases p with
    | literal t => exact congrArg (t ++ ·) (ih h)
    | hole a =>
      rw [labels, List.forall_mem_cons] at h
      rw [fill, fill, h.1, ih h.2]

variable [DecidableEq α]

theorem fill_update_of_not_mem {ps : List (Piece α)} {a : α} (ha : a ∉ labels ps) (f : α → Word)
    (w : Word) : fill (Word.texts (Function.update f a w)) ps = fill (Word.texts f) ps := by
  refine fill_congr fun b hb => ?_
  have hne : b ≠ a := fun heq => ha (heq ▸ hb)
  rw [Word.texts, Function.update_of_ne hne]
  rfl

/-- The word in one hole stands in one place. -/
theorem exists_fill_update {ps : List (Piece α)} (hdistinct : (labels ps).Nodup) {a : α}
    (ha : a ∈ labels ps) (f : α → Word) : ∃ left right, ∀ w,
      fill (Word.texts (Function.update f a w)) ps = left ++ (w.text ++ right) := by
  induction ps with
  | nil => cases ha
  | cons p ps ih =>
    cases p with
    | literal t =>
      obtain ⟨left, right, hfill⟩ := ih hdistinct ha
      exact ⟨t ++ left, right, fun w => by rw [fill, hfill, List.append_assoc]⟩
    | hole b =>
      rw [labels, List.nodup_cons] at hdistinct
      by_cases hb : b = a
      · subst hb
        refine ⟨[], fill (Word.texts f) ps, fun w => ?_⟩
        rw [fill, fill_update_of_not_mem hdistinct.1, Word.texts, Function.update_self]
        rfl
      · obtain ⟨left, right, hfill⟩ :=
          ih hdistinct.2 ((List.mem_cons.mp ha).resolve_left (Ne.symm hb))
        refine ⟨(f b).text ++ left, right, fun w => ?_⟩
        rw [fill, hfill, Word.texts, Function.update_of_ne hb, List.append_assoc]

end Piece

namespace Run

variable {α : Type} {barred : Char → Bool}

/-- A character that is no letter is in a filled run only when it is in a literal. -/
theorem not_mem_fill {r : Run α barred} {c : Char} (hbarred : barred c = true)
    (hletter : c.isAlpha = false) (f : α → Word) : c ∉ r.fill (Word.texts f) := by
  intro hmem
  rcases List.mem_append.mp hmem with hmem | hmem
  · rw [r.head_plain c hmem] at hbarred
    contradiction
  · obtain ⟨p, hp, hmem⟩ := List.mem_flatMap.mp hmem
    rcases List.mem_append.mp hmem with hmem | hmem
    · rw [(f p.1).letters c hmem] at hletter
      contradiction
    · rw [r.tail_plain p hp c hmem] at hbarred
      contradiction

/-- A mark without letters is in a filled run only when it is in a literal. -/
theorem not_infix_fill {mark : Text} (hmark : ∀ c ∈ mark, c.isAlpha = false) {r : Run α barred}
    (hhead : ¬mark <:+: r.head) (htail : ∀ p ∈ r.tail, ¬mark <:+: p.2) (f : α → Word) :
    ¬mark <:+: r.fill (Word.texts f) := by
  have hpieces : ∀ (tail : List (α × Text)) (head : Text), ¬mark <:+: head →
      (∀ p ∈ tail, ¬mark <:+: p.2) → ¬mark <:+: head ++ fillTail (Word.texts f) tail := by
    intro tail
    induction tail with
    | nil =>
      intro head hhead _
      rwa [fillTail, List.flatMap_nil, List.append_nil]
    | cons p tail ih =>
      intro head hhead htail
      rw [List.forall_mem_cons] at htail
      rw [fillTail, List.flatMap_cons, List.append_assoc]
      exact (f p.1).not_within hmark hhead (ih p.2 htail.1 htail.2)
  exact hpieces r.tail r.head hhead htail

variable [DecidableEq α]

theorem fill_update_of_not_mem {r : Run α barred} {a : α} (ha : a ∉ r.labels) (f : α → Word)
    (w : Word) : r.fill (Word.texts (Function.update f a w)) = r.fill (Word.texts f) := by
  rw [← labels_pieces] at ha
  rw [← fill_pieces, ← fill_pieces, Piece.fill_update_of_not_mem ha]

theorem exists_fill_update {r : Run α barred} (hdistinct : r.labels.Nodup) {a : α}
    (ha : a ∈ r.labels) (f : α → Word) :
    ∃ left right, ∀ w, r.fill (Word.texts (Function.update f a w)) =
      left ++ (w.text ++ right) := by
  rw [← labels_pieces] at ha hdistinct
  simpa only [fill_pieces] using Piece.exists_fill_update hdistinct ha f

end Run

namespace Draft

variable {α : Type}

/-! ## Attributes -/

/-- The token of a value. -/
def AttributeValue.token (f : α → Text) : AttributeValue α → AttributeToken
  | .unquoted v => .word (v.left ++ (f v.label ++ v.right))
  | .quoted v => .quoted (v.run.fill f)

theorem isWordChar_of_isAlpha {c : Char} (h : c.isAlpha = true) :
    AttributeToken.isWordChar c = true := by
  cases hword : AttributeToken.isWordChar c with
  | true => rfl
  | false =>
    simp only [AttributeToken.isWordChar, Text.isSpace, Bool.not_eq_false', Bool.or_eq_true,
      decide_eq_true_eq, or_assoc] at hword
    rcases hword with rfl | rfl | rfl | rfl | rfl | rfl | rfl | rfl | rfl | rfl | rfl <;>
      exact absurd h (by decide)

theorem Quoted.not_mem_fill (v : Quoted α) (f : α → Word) :
    v.quote ∉ v.run.fill (Word.texts f) := by
  have hletter : v.quote.isAlpha = false := by rcases v.isQuote with hq | hq <;> rw [hq] <;> rfl
  exact Run.not_mem_fill (by simp) hletter f

theorem AttributeValue.tokens_fill (v : AttributeValue α) (f : α → Word) {r : Text}
    (hr : Text.Stops AttributeToken.isWordChar r) :
    AttributeToken.lexer.tokens (Piece.fill (Word.texts f) v.pieces ++ r) =
      v.token (Word.texts f) :: AttributeToken.lexer.tokens r := by
  cases v with
  | unquoted v =>
    have hne : v.left ++ ((f v.label).text ++ v.right) ≠ [] := by simp [(f v.label).ne_nil]
    have hword : ∀ c ∈ v.left ++ ((f v.label).text ++ v.right),
        AttributeToken.isWordChar c = true := by
      intro c hc
      rcases List.mem_append.mp hc with hc | hc
      · exact v.left_word c hc
      rcases List.mem_append.mp hc with hc | hc
      · exact isWordChar_of_isAlpha ((f v.label).letters c hc)
      · exact v.right_word c hc
    have htokens := AttributeToken.tokens_word hne hword hr
    simpa [AttributeValue.pieces, Piece.fill, AttributeValue.token, Word.texts] using htokens
  | quoted v =>
    have htokens := AttributeToken.tokens_quoted v.isQuote (v.not_mem_fill f) r
    simpa [AttributeValue.pieces, Piece.fill, AttributeValue.token, Run.fill_pieces] using htokens

theorem tokens_spaces {gap : Text} (hgap : ∀ c ∈ gap, Text.isSpace c = true) (t : Text) :
    AttributeToken.lexer.tokens (gap ++ t) = AttributeToken.lexer.tokens t := by
  induction gap with
  | nil => rfl
  | cons c gap ih =>
    rw [List.forall_mem_cons] at hgap
    rw [List.cons_append, AttributeToken.tokens_space hgap.1, ih hgap.2]

theorem stops_of_isSpace {c : Char} (h : Text.isSpace c = true) (t : Text) :
    Text.Stops AttributeToken.isWordChar (c :: t) :=
  Text.stops_cons.mpr (AttributeToken.isWordChar_of_isSpace h)

/-- An attribute is read by itself. -/
theorem Attribute.tokens_fill (a : Attribute α) (f : α → Word) {r : Text}
    (hr : Text.Stops AttributeToken.isWordChar r) :
    AttributeToken.lexer.tokens (Piece.fill (Word.texts f) a.pieces ++ r) =
      .word a.key :: .equals :: a.value.token (Word.texts f) :: AttributeToken.lexer.tokens r := by
  have hsplit : Piece.fill (Word.texts f) a.pieces ++ r = a.leading :: (a.key ++ (a.gap ++
      '=' :: (a.gap' ++ (Piece.fill (Word.texts f) a.value.pieces ++ r)))) := by
    simp [Attribute.pieces, Attribute.head, Piece.fill]
  have hstop : ∀ t, Text.Stops AttributeToken.isWordChar (a.gap ++ '=' :: t) := by
    intro t
    cases hgap : a.gap with
    | nil => exact Text.stops_cons.mpr rfl
    | cons c gap => exact stops_of_isSpace (a.gap_space c (by simp [hgap])) _
  rw [hsplit, AttributeToken.tokens_space a.leading_space,
    AttributeToken.tokens_word a.isKey.ne_nil a.key_word (hstop _), tokens_spaces a.gap_space,
    AttributeToken.tokens_equals, tokens_spaces a.gap'_space, a.value.tokens_fill f hr]

theorem AttributeValue.pairs_token (v : AttributeValue α) (f : α → Text) (key : Text)
    (tokens : List AttributeToken) :
    Attributes.pairs (.word key :: .equals :: v.token f :: tokens) =
      (key, v.fill f) :: Attributes.pairs tokens := by
  cases v <;> rfl

/-! ## Tags -/

namespace Insides

/-- The attributes that the inside of a tag spells. -/
def pairs (f : α → Text) : Insides α → Stretch → List (Text × Text)
  | [], last => last.pairs
  | p :: insides, last => p.1.pairs ++ (p.2.key, p.2.value.fill f) :: pairs f insides last

theorem keys_pairs (f : α → Text) (insides : Insides α) (last : Stretch) :
    Keyed.keys (insides.pairs f last) = keys insides last := by
  induction insides with
  | nil => rfl
  | cons p insides ih =>
    simp only [Keyed.keys, keys] at ih
    simp [pairs, keys, Keyed.keys, ih]

theorem fill_pieces_cons (f : α → Text) (p : Stretch × Attribute α) (insides : Insides α) :
    Piece.fill f (pieces (p :: insides)) =
      p.1.text ++ (Piece.fill f p.2.pieces ++ Piece.fill f (pieces insides)) := by
  simp [pieces, Piece.fill]

/-- A space stands between the name of a tag and what follows. -/
theorem spaced_fill (f : α → Text) (insides : Insides α) (last : Stretch) :
    ∀ c ∈ (Piece.fill f (pieces insides) ++ last.text).head?, Text.isSpace c = true := by
  cases insides with
  | nil => exact last.spaced
  | cons p insides =>
    rw [fill_pieces_cons, List.append_assoc, List.append_assoc]
    cases hs : p.1.text with
    | nil =>
      rintro c ⟨⟩
      exact p.2.leading_space
    | cons d t =>
      rintro c ⟨⟩
      exact p.1.spaced d (by simp [hs])

theorem stops_fill (f : α → Text) (insides : Insides α) (last : Stretch) :
    Text.Stops AttributeToken.isWordChar (Piece.fill f (pieces insides) ++ last.text) := by
  intro c hc
  rw [AttributeToken.isWordChar, spaced_fill f insides last c hc]
  rfl

/-- The inside of a tag after its name is a row of attributes. -/
theorem pairs_fill (f : α → Word) (insides : Insides α) (last : Stretch) :
    Attributes.pairs (AttributeToken.lexer.tokens
        (Piece.fill (Word.texts f) (pieces insides) ++ last.text)) =
      insides.pairs (Word.texts f) last := by
  induction insides with
  | nil => rfl
  | cons p insides ih =>
    have hstop := stops_fill (Word.texts f) insides last
    have hlead : Text.Stops AttributeToken.isWordChar (Piece.fill (Word.texts f) p.2.pieces ++
        (Piece.fill (Word.texts f) (pieces insides) ++ last.text)) :=
      stops_of_isSpace p.2.leading_space _
    rw [fill_pieces_cons, List.append_assoc, List.append_assoc,
      AttributeToken.tokens_append p.1.balanced hlead, p.2.tokens_fill f hstop,
      Attributes.pairs_append p.1.complete (by simp), AttributeValue.pairs_token, ih]
    rfl

end Insides

/-- A value leaves no quote open. -/
theorem AttributeValue.quoteAfter?_fill (v : AttributeValue α) (f : α → Word) :
    Token.quoteAfter? none (Piece.fill (Word.texts f) v.pieces) = some none := by
  cases v with
  | unquoted v =>
    refine Token.quoteAfter?_plain fun c hc => AttributeToken.isPlain_of_isWordChar ?_
    simp only [pieces, Piece.fill, List.append_nil, List.mem_append] at hc
    rcases hc with hc | hc | hc
    · exact v.left_word c hc
    · exact isWordChar_of_isAlpha ((f v.label).letters c hc)
    · exact v.right_word c hc
  | quoted v =>
    have hquoted := Token.quoteAfter?_quoted v.isQuote (v.not_mem_fill f)
    simpa [pieces, Piece.fill, Run.fill_pieces] using hquoted

theorem Attribute.quoteAfter?_fill (a : Attribute α) (f : α → Word) :
    Token.quoteAfter? none (Piece.fill (Word.texts f) a.pieces) = some none := by
  have hhead : ∀ c ∈ a.head, Token.isPlain c = true := by
    intro c hc
    simp only [Attribute.head, List.mem_cons, List.mem_append] at hc
    rcases hc with rfl | hc | hc | rfl | hc
    · exact Token.isPlain_of_isSpace a.leading_space
    · exact AttributeToken.isPlain_of_isWordChar (a.key_word c hc)
    · exact Token.isPlain_of_isSpace (a.gap_space c hc)
    · rfl
    · exact Token.isPlain_of_isSpace (a.gap'_space c hc)
  rw [Attribute.pieces, Piece.fill, Token.quoteAfter?_append, Token.quoteAfter?_plain hhead]
  exact a.value.quoteAfter?_fill f

theorem Insides.quoteAfter?_fill (f : α → Word) (insides : Insides α) :
    Token.quoteAfter? none (Piece.fill (Word.texts f) insides.pieces) = some none := by
  induction insides with
  | nil => rfl
  | cons p insides ih =>
    rw [fill_pieces_cons, Token.quoteAfter?_append, p.1.balanced, Option.bind_some,
      Token.quoteAfter?_append, p.2.quoteAfter?_fill f]
    exact ih

/-- What is written behind the last hole ends as it did, and a word does not end with a mark. -/
theorem getLast?_fill {c : Char} (hc : c.isAlpha = false) (f : α → Word) {pre : Text}
    {ps : List (Piece α)} (h : (behind pre ps).getLast? ≠ some c) :
    (pre ++ Piece.fill (Word.texts f) ps).getLast? ≠ some c := by
  induction ps generalizing pre with
  | nil =>
    rw [Piece.fill, List.append_nil]
    exact h
  | cons p ps ih =>
    cases p with
    | literal t =>
      rw [Piece.fill, ← List.append_assoc]
      exact ih h
    | hole a =>
      have hrest : ([] ++ Piece.fill (Word.texts f) ps).getLast? ≠ some c := ih h
      rw [List.nil_append] at hrest
      rw [Piece.fill, List.getLast?_append, List.getLast?_append]
      cases hlast : (Piece.fill (Word.texts f) ps).getLast? with
      | some d => exact fun heq => hrest (hlast.trans heq)
      | none =>
        have hword := List.getLast?_eq_some_getLast (f a).ne_nil
        have hletter := (f a).letters _ (List.getLast_mem (f a).ne_nil)
        rw [Option.none_or, Word.texts, hword]
        intro heq
        rw [Option.some.inj heq, hc] at hletter
        contradiction

namespace OpenTag

/-- What stands in the tag, but for a slash at its end. -/
def inside (t : OpenTag α) (f : α → Text) : Text :=
  t.name ++ (Piece.fill f t.insides.pieces ++ t.last.text)

/-- The tag with its holes filled. -/
def source (t : OpenTag α) (f : α → Text) : Text :=
  '<' :: ((t.inside f ++ if t.slash then ['/'] else []) ++ ['>'])

/-- The head that the tag spells. -/
def head (t : OpenTag α) (f : α → Text) : TagHead :=
  ⟨t.name, Keyed.ofList (t.insides.pairs f t.last), t.void⟩

theorem fill_pieces (t : OpenTag α) (f : α → Text) : Piece.fill f t.pieces = t.source f := by
  simp [pieces, Piece.fill, source, inside, close]

theorem exists_name (t : OpenTag α) :
    ∃ c name, t.name = c :: name ∧ (Text.isAlphanum c = true ∨ c = '-') := by
  obtain ⟨c, hc, hstart⟩ := t.name_start
  cases hname : t.name with
  | nil => rw [hname] at hc; cases hc
  | cons d name =>
    rw [hname] at hc
    cases hc
    exact ⟨c, name, rfl, hstart⟩

theorem startsTag_source (t : OpenTag α) (f : α → Text) :
    Token.startsTag ((t.inside f ++ if t.slash then ['/'] else []) ++ ['>']) = true := by
  obtain ⟨c, name, hname, hc⟩ := t.exists_name
  have hmark : c ≠ '!' := by
    rintro rfl
    exact absurd hc (by decide)
  rw [inside, hname]
  simpa [Token.startsTag, hmark, or_assoc] using hc.imp_right Or.inl

theorem quoteAfter?_source (t : OpenTag α) (f : α → Word) : Token.quoteAfter? none
    (t.inside (Word.texts f) ++ if t.slash then ['/'] else []) = some none := by
  have hname : Token.quoteAfter? none t.name = some none :=
    Token.quoteAfter?_plain fun c hc => (t.name_chars c hc).2.1
  have hinsides := t.insides.quoteAfter?_fill f
  rw [inside, Token.quoteAfter?_append, Token.quoteAfter?_append, hname, Option.bind_some,
    Token.quoteAfter?_append, hinsides, Option.bind_some, t.last.balanced, Option.bind_some]
  cases t.slash <;> rfl

theorem getLast?_inside (t : OpenTag α) (f : α → Word) :
    (t.inside (Word.texts f)).getLast? ≠ some '/' := by
  have hlast := getLast?_fill rfl f t.no_slash
  rwa [Piece.fill_append, Piece.fill, Piece.fill, List.append_nil] at hlast

theorem roleOf_source (t : OpenTag α) (f : α → Word) :
    Node.roleOf (t.source (Word.texts f)) = .opens (t.head (Word.texts f)) := by
  have hrole : Node.roleOf (t.source (Word.texts f)) =
      .opens (Node.headOf (t.source (Word.texts f))) := by
    obtain ⟨c, name, hname, hc⟩ := t.exists_name
    rw [source, inside, hname]
    exact Node.roleOf_eq_opens hc _
  have hsource : ((t.source (Word.texts f)).drop 1).dropLast =
      t.inside (Word.texts f) ++ if t.slash then ['/'] else [] := by
    rw [source, List.drop_one, List.tail_cons, List.dropLast_concat]
  have hchars : ∀ c ∈ t.name, Node.isNameChar c = true := fun c hc => (t.name_chars c hc).1
  have hstop : Text.Stops Node.isNameChar
      (Piece.fill (Word.texts f) t.insides.pieces ++ t.last.text) := fun c hc =>
    Node.isNameChar_of_isSpace (t.insides.spaced_fill (Word.texts f) t.last c hc)
  rw [hrole, Node.headOf_eq hsource fun _ => t.getLast?_inside f, inside,
    Text.takeWhile_append_of_stops hchars hstop, Text.dropWhile_append_of_stops hchars hstop,
    Attributes.read, Insides.pairs_fill]
  rfl

theorem rawTextEnd?_source (t : OpenTag α) (f : α → Word) :
    Node.rawTextEnd? (some (.tag (t.source (Word.texts f)))) =
      if t.isRaw then some (Node.rawTextMark t.name) else none := by
  simp only [Node.rawTextEnd?, roleOf_source]
  rfl

end OpenTag

/-! ## Bodies -/

/-- No close tag begins in letters. -/
theorem unmarked_of_letters {name u r : Text} (hu : ∀ c ∈ u, c.isAlpha = true)
    (hr : Node.Unmarked name r) : Node.Unmarked name (u ++ r) := by
  induction u with
  | nil => exact hr
  | cons c u ih =>
    rw [List.forall_mem_cons] at hu
    have hc : c.toLower ≠ '<' := fun heq => by
      rw [Text.eq_of_toLower heq rfl] at hu
      exact absurd hu.1 (by decide)
    intro h
    rw [List.cons_append, Text.lower, List.map_cons, List.infix_cons_iff, Node.rawTextMark,
      List.cons_prefix_cons] at h
    rcases h with ⟨heq, -⟩ | h
    · exact hc heq.symm
    · exact ih hu.2 h

/-- When a close tag begins in a text before a word, some word makes one of the text. -/
theorem exists_word_of_prefix {name s r : Text} (hname : Node.isRawTextName name = true) {w : Word}
    (h : Node.rawTextMark name <+: Text.lower (s ++ (w.text ++ r))) (hne : s ≠ []) :
    ∃ w : Word, Node.rawTextMark name <+: Text.lower (s ++ w.text) := by
  have hletters : ∀ c ∈ Text.lower name, c.isAlpha = true ∧ c.toLower = c := by
    rcases Node.isRawTextName_iff.mp hname with h | h <;> rw [h] <;>
      exact List.all_iff_forall_prop.mp (by decide)
  obtain ⟨q, hq⟩ := h
  rw [Text.lower, List.map_append] at hq
  rcases List.append_eq_append_iff.mp hq with ⟨a, ha, -⟩ | ⟨a, ha, hrest⟩
  · refine ⟨w, ?_⟩
    rw [Text.lower, List.map_append, ha, List.append_assoc]
    exact List.prefix_append _ _
  rcases s with _ | ⟨c, _ | ⟨d, s⟩⟩
  · exact absurd rfl hne
  · -- a word begins with no slash
    obtain ⟨d, u, hw⟩ := List.exists_cons_of_ne_nil w.ne_nil
    have hslash : a = '/' :: Text.lower name := (List.cons.inj ha).2.symm
    rw [hslash, hw, List.cons_append, List.map_cons, List.cons_append] at hrest
    have hd := w.letters d (by rw [hw]; exact List.mem_cons_self)
    rw [Text.eq_of_toLower (List.cons.inj hrest).1 rfl] at hd
    exact absurd hd (by decide)
  · have hsplit : Text.lower name = s.map Char.toLower ++ a :=
      (List.cons.inj (List.cons.inj ha).2).2
    by_cases hempty : a = []
    · refine ⟨w, ?_⟩
      rw [ha, hempty, List.append_nil, Text.lower, List.map_append]
      exact List.prefix_append _ _
    have hmem : ∀ c ∈ a, c ∈ Text.lower name := by
      intro c hc
      rw [hsplit]
      exact List.mem_append_right _ hc
    refine ⟨⟨a, hempty, fun c hc => (hletters c (hmem c hc)).1⟩, ?_⟩
    have hlower : a.map Char.toLower = a := by
      rw [List.map_congr_left fun c hc => (hletters c (hmem c hc)).2, List.map_id']
    refine ⟨[], ?_⟩
    rw [List.append_nil, ha, Text.lower, List.map_append, hlower]

/-- When no word makes a close tag of a text, none makes one of the text and what follows. -/
theorem unmarked_append {name s r : Text} (hname : Node.isRawTextName name = true)
    (hs : ∀ w : Word, Node.Unmarked name (s ++ w.text)) (hr : Node.Unmarked name r) (w : Word) :
    Node.Unmarked name (s ++ (w.text ++ r)) := by
  induction s with
  | nil =>
    rw [List.nil_append]
    exact unmarked_of_letters w.letters hr
  | cons c s ih =>
    have hrest := ih fun w h => hs w (by
      rw [List.cons_append, Text.lower, List.map_cons]
      exact List.infix_cons h)
    intro h
    have hcons := h
    rw [List.cons_append, Text.lower, List.map_cons, List.infix_cons_iff] at hcons
    refine hcons.elim (fun hpre => ?_) hrest
    obtain ⟨w', hw'⟩ := exists_word_of_prefix (s := c :: s) hname hpre (List.cons_ne_nil c s)
    exact hs w' hw'.isInfix

namespace RawOpening

theorem void_and_isRawTextName (e : RawOpening α) :
    e.openTag.void = false ∧ Node.isRawTextName e.openTag.name = true := by
  have hraw := e.isRaw
  rwa [OpenTag.isRaw, Bool.and_eq_true, Bool.not_eq_true'] at hraw

/-- A body with words in its holes holds no close tag. -/
theorem unmarked_fill (e : RawOpening α) (f : α → Word) :
    Node.Unmarked e.openTag.name (e.body.fill (Word.texts f)) := by
  have hname := e.void_and_isRawTextName.2
  have hliterals : ∀ (tail : List (α × Text)) (head : Text),
      (∀ s ∈ head :: tail.map Prod.snd, ∀ w : Word,
        Node.Unmarked e.openTag.name (s ++ w.text)) →
      Node.Unmarked e.openTag.name (head ++ Run.fillTail (Word.texts f) tail) := by
    intro tail
    induction tail with
    | nil =>
      intro head hs h
      refine hs head List.mem_cons_self default (h.trans ?_)
      rw [Run.fillTail, List.flatMap_nil, List.append_nil, Text.lower, Text.lower, List.map_append]
      exact (List.prefix_append _ _).isInfix
    | cons p tail ih =>
      intro head hs
      rw [List.map_cons, List.forall_mem_cons] at hs
      rw [Run.fillTail, List.flatMap_cons, List.append_assoc]
      exact unmarked_append hname hs.1 (ih p.2 hs.2) (f p.1)
  exact hliterals e.body.tail e.body.head e.unmarked

end RawOpening

/-! ## Blocks -/

/-- The tokens of a script or style element without its close tag. -/
def RawOpening.tokens (f : α → Text) (e : RawOpening α) : List Token :=
  [.tag (e.openTag.source f), .text (e.body.fill f)]

/-- The tokens of a block with its holes filled. -/
def Block.tokens (f : α → Text) : Block α → List Token
  | .text run => [.text (run.fill f)]
  | .static p => p.tokens
  | .comment inside => [.comment (inside.run.fill f)]
  | .tag t _ => [.tag (t.source f)]
  | .raw e => e.tokens f ++ e.close.tokens

/-- The tokens of an ending with its holes filled. -/
def Ending.tokens (f : α → Text) : Ending α → List Token
  | .static s => Node.documentTokens s
  | .comment inside => [.comment (inside.run.fill f)]
  | .raw e => e.tokens f

/-- The tokens of a row of blocks with its ending. -/
def rowTokens (f : α → Text) (blocks : List (Block α)) (ending : Ending α) : List Token :=
  blocks.flatMap (Block.tokens f) ++ ending.tokens f

/-- A comment with words in its holes does not end. -/
theorem CommentRun.not_closed_fill (inside : CommentRun α) (f : α → Word) :
    ¬Token.commentClose <:+: inside.run.fill (Word.texts f) :=
  Run.not_infix_fill (List.all_iff_forall_prop.mp (by decide)) (inside.not_closed _ List.mem_cons_self)
    (fun p hp => inside.not_closed _ (List.mem_cons_of_mem _ (List.mem_map_of_mem hp))) f

theorem RawOpening.fill_pieces (e : RawOpening α) (f : α → Text) :
    Piece.fill f e.pieces = e.openTag.source f ++ e.body.fill f := by
  rw [pieces, Piece.fill_append, e.openTag.fill_pieces, Run.fill_pieces]

theorem RawOpening.rawTextEnd?_source (e : RawOpening α) (f : α → Word) :
    Node.rawTextEnd? (some (.tag (e.openTag.source (Word.texts f)))) =
      some (Node.rawTextMark e.openTag.name) := by
  have hend := e.openTag.rawTextEnd?_source f
  rwa [e.isRaw, if_pos rfl] at hend

/-- A block with words in its holes is read by itself. -/
theorem Block.reads (b : Block α) (f : α → Word) :
    Node.Reads (Piece.fill (Word.texts f) b.pieces) (b.tokens (Word.texts f)) := by
  cases b with
  | text run =>
    rw [pieces, Run.fill_pieces]
    exact Node.reads_text (run.not_mem_fill (by simp) (by decide) f)
  | static p => simpa [pieces, Piece.fill, tokens] using p.reads
  | comment inside =>
    have hread := Node.reads_comment (inside.not_closed_fill f)
    simpa [pieces, CommentRun.pieces, Piece.fill, Run.fill_pieces, tokens] using hread
  | tag t not_raw =>
    rw [pieces, t.fill_pieces]
    refine Node.reads_tag (t.startsTag_source _) (t.quoteAfter?_source f) ?_
    have hraw := t.rawTextEnd?_source f
    rw [not_raw, if_neg Bool.false_ne_true] at hraw
    exact hraw
  | raw e =>
    have hread := Node.reads_raw (e.openTag.startsTag_source _) (e.openTag.quoteAfter?_source f)
      e.void_and_isRawTextName.2 (e.rawTextEnd?_source f) (e.unmarked_fill f) e.closes e.close.reads
    rw [pieces, Piece.fill_append, e.fill_pieces]
    simpa [Piece.fill, OpenTag.source, tokens, RawOpening.tokens] using hread

theorem Ending.readsLast (e : Ending α) (f : α → Word) :
    Node.ReadsLast (Piece.fill (Word.texts f) e.pieces) (e.tokens (Word.texts f)) := by
  cases e with
  | static s =>
    rw [pieces, Piece.fill, Piece.fill, List.append_nil]
    exact Node.readsLast_self s
  | comment inside =>
    rw [pieces, CommentRun.pieces, Piece.fill, Run.fill_pieces]
    exact Node.readsLast_comment (inside.not_closed_fill f)
  | raw e =>
    rw [pieces, e.fill_pieces]
    exact Node.readsLast_raw (e.openTag.startsTag_source _) (e.openTag.quoteAfter?_source f)
      (e.rawTextEnd?_source f) (e.unmarked_fill f)

theorem readsLast_row (blocks : List (Block α)) (ending : Ending α) (f : α → Word) :
    Node.ReadsLast (Piece.fill (Word.texts f) (blocks.flatMap Block.pieces ++ ending.pieces))
      (rowTokens (Word.texts f) blocks ending) := by
  induction blocks with
  | nil => exact ending.readsLast f
  | cons b blocks ih =>
    rw [rowTokens, List.flatMap_cons, List.flatMap_cons, List.append_assoc, List.append_assoc,
      Piece.fill_append]
    exact (b.reads f).append_last ih

/-- A draft with a word in each of its holes. -/
def fill (d : Draft α) (f : α → Word) : Text := Piece.fill (Word.texts f) d.pieces

theorem parse_fill (d : Draft α) (f : α → Word) :
    Node.parse (d.fill f) = Node.ofTokens (rowTokens (Word.texts f) d.blocks d.ending) :=
  (readsLast_row d.blocks d.ending f).parse

/-! ## Marks -/

open Node (Place Marked Carries)

/-- A mark for a hole that is there is at the place. -/
def Site.Allows (place : Place) : Site → Prop
  | .text => ∃ parent, place = .text parent
  | .comment => place = .comment
  | .body => ∃ head : TagHead, head.void = false ∧ Node.isRawTextName head.name = true ∧
      place = .text (some head)
  | .value key => place = .value key

/-- One of the tokens varies with a word, which goes where a hole of the site is when the tokens are
taken by the builder. -/
def Varies (builder : Node.Builder) (site : Site) (tokens : Word → List Token) : Prop :=
  ∃ before token after place, site.Allows place ∧
    Carries (before.foldl Node.Builder.take builder).parent place token ∧
    ∀ w, tokens w = before ++ token w :: after

section Varies

variable {builder : Node.Builder} {site : Site} {tokens : Word → List Token}

theorem varies_single {place : Place} {token : Word → Token} (hallows : site.Allows place)
    (h : Carries builder.parent place token) : Varies builder site fun w => [token w] :=
  ⟨[], token, [], place, hallows, h, fun _ => rfl⟩

theorem Varies.append_right (h : Varies builder site tokens) (rest : List Token) :
    Varies builder site fun w => tokens w ++ rest := by
  obtain ⟨before, token, after, place, hallows, hcarries, htokens⟩ := h
  exact ⟨before, token, after ++ rest, place, hallows, hcarries, fun w => by simp [htokens]⟩

theorem Varies.append_left {first : List Token}
    (h : Varies (first.foldl Node.Builder.take builder) site tokens) :
    Varies builder site fun w => first ++ tokens w := by
  obtain ⟨before, token, after, place, hallows, hcarries, htokens⟩ := h
  refine ⟨first ++ before, token, after, place, hallows, ?_, fun w => by simp [htokens]⟩
  rwa [List.foldl_append]

/-- The tree varies with the word in one place. -/
theorem Varies.exists_marked (h : Varies {} site tokens) : ∃ s : Marked,
    site.Allows (s.place none) ∧ ∀ w, Node.ofTokens (tokens w) = s.fill w.text := by
  obtain ⟨before, token, after, place, hallows, hcarries, htokens⟩ := h
  obtain ⟨s, hplace, hfill⟩ := Node.exists_marked hcarries after
  exact ⟨s, hplace ▸ hallows, fun w => by rw [htokens, hfill]⟩

end Varies

variable [DecidableEq α]

theorem AttributeValue.fill_update_of_not_mem {v : AttributeValue α} {a : α} (ha : a ∉ v.labels)
    (f : α → Word) (w : Word) :
    v.fill (Word.texts (Function.update f a w)) = v.fill (Word.texts f) := by
  cases v with
  | unquoted v =>
    have hne : v.label ≠ a := fun heq => ha (by simp [labels, heq])
    rw [fill, fill, Word.texts, Function.update_of_ne hne]
    rfl
  | quoted v => exact Run.fill_update_of_not_mem ha f w

theorem AttributeValue.exists_fill_update {v : AttributeValue α} (hdistinct : v.labels.Nodup)
    {a : α} (ha : a ∈ v.labels) (f : α → Word) :
    ∃ left right, ∀ w, v.fill (Word.texts (Function.update f a w)) =
      left ++ (w.text ++ right) := by
  cases v with
  | unquoted v =>
    obtain rfl : a = v.label := List.mem_singleton.mp ha
    refine ⟨v.left, v.right, fun w => ?_⟩
    rw [fill, Word.texts, Function.update_self]
  | quoted v => exact Run.exists_fill_update hdistinct ha f

namespace Insides

theorem pairs_update_of_not_mem {insides : Insides α} {a : α}
    (ha : a ∉ insides.holes.map Prod.fst) (f : α → Word) (w : Word) (last : Stretch) :
    insides.pairs (Word.texts (Function.update f a w)) last =
      insides.pairs (Word.texts f) last := by
  induction insides with
  | nil => rfl
  | cons p insides ih =>
    rw [labels_holes_cons, List.mem_append, not_or] at ha
    rw [pairs, pairs, AttributeValue.fill_update_of_not_mem ha.1, ih ha.2]

/-- The word in one hole of a tag stands in the value of one attribute, whose name does not come
again. -/
theorem exists_pairs_update {insides : Insides α} {last : Stretch} (hfresh : insides.Fresh last)
    (hdistinct : (insides.holes.map Prod.fst).Nodup) {a : α} {site : Site}
    (ha : (a, site) ∈ insides.holes) (f : α → Word) :
    ∃ key before left right later, site = .value key ∧ key ∉ Keyed.keys later ∧
      ∀ w, insides.pairs (Word.texts (Function.update f a w)) last =
        before ++ (key, left ++ (w.text ++ right)) :: later := by
  induction insides with
  | nil => cases ha
  | cons p insides ih =>
    rw [labels_holes_cons, List.nodup_append] at hdistinct
    rcases List.mem_append.mp ha with ha | ha
    · obtain ⟨a, hlabel, heq⟩ := List.mem_map.mp ha
      cases heq
      have hother : a ∉ (holes insides).map Prod.fst := fun hmem =>
        hdistinct.2.2 a hlabel a hmem rfl
      obtain ⟨left, right, hfill⟩ := AttributeValue.exists_fill_update hdistinct.1 hlabel f
      refine ⟨p.2.key, p.1.pairs, left, right, pairs (Word.texts f) insides last, rfl, ?_,
        fun w => ?_⟩
      · rw [keys_pairs]
        exact hfresh.1
      · rw [pairs, hfill, pairs_update_of_not_mem hother]
    · have hmem : a ∈ (holes insides).map Prod.fst := List.mem_map.mpr ⟨_, ha, rfl⟩
      have hother : a ∉ p.2.value.labels := fun hlabel => hdistinct.2.2 a hlabel a hmem rfl
      obtain ⟨key, before, left, right, later, rfl, hkey, hpairs⟩ := ih hfresh.2 hdistinct.2.1 ha
      refine ⟨key, p.1.pairs ++ (p.2.key, p.2.value.fill (Word.texts f)) :: before, left, right,
        later, rfl, hkey, fun w => ?_⟩
      rw [pairs, hpairs, AttributeValue.fill_update_of_not_mem hother]
      simp

end Insides

theorem OpenTag.source_update_of_not_mem {t : OpenTag α} {a : α} (ha : a ∉ Piece.labels t.pieces)
    (f : α → Word) (w : Word) :
    t.source (Word.texts (Function.update f a w)) = t.source (Word.texts f) := by
  rw [← t.fill_pieces, ← t.fill_pieces, Piece.fill_update_of_not_mem ha]

/-- The word in one hole of a tag is the only thing in its head that varies with it. -/
theorem OpenTag.varies {t : OpenTag α} (hdistinct : (t.holes.map Prod.fst).Nodup) {a : α}
    {site : Site} (ha : (a, site) ∈ t.holes) (f : α → Word) (builder : Node.Builder) :
    Varies builder site fun w => [.tag (t.source (Word.texts (Function.update f a w)))] := by
  obtain ⟨key, before, left, right, later, rfl, hkey, hpairs⟩ :=
    Insides.exists_pairs_update t.fresh hdistinct ha f
  obtain ⟨first, last, hlist⟩ := Keyed.exists_ofList_append hkey before
  refine varies_single rfl (.value _ t.name first key left right last t.void fun w => ?_)
  rw [t.roleOf_source, head, hpairs, hlist]

namespace CommentRun

theorem fill_update_of_not_mem {inside : CommentRun α} {a : α}
    (ha : a ∉ inside.holes.map Prod.fst) (f : α → Word) (w : Word) :
    inside.run.fill (Word.texts (Function.update f a w)) = inside.run.fill (Word.texts f) := by
  rw [holes, map_fst_site] at ha
  exact Run.fill_update_of_not_mem ha f w

theorem varies {inside : CommentRun α} (hdistinct : (inside.holes.map Prod.fst).Nodup) {a : α}
    {site : Site} (ha : (a, site) ∈ inside.holes) (f : α → Word) (builder : Node.Builder) :
    Varies builder site fun w =>
      [.comment (inside.run.fill (Word.texts (Function.update f a w)))] := by
  obtain ⟨a, hlabel, heq⟩ := List.mem_map.mp ha
  cases heq
  rw [holes, map_fst_site] at hdistinct
  obtain ⟨left, right, hfill⟩ := Run.exists_fill_update hdistinct hlabel f
  simp only [hfill]
  exact varies_single rfl (.comment left right)

end CommentRun

namespace RawOpening

theorem tokens_update_of_not_mem {e : RawOpening α} {a : α} (ha : a ∉ e.holes.map Prod.fst)
    (f : α → Word) (w : Word) :
    e.tokens (Word.texts (Function.update f a w)) = e.tokens (Word.texts f) := by
  rw [holes, List.map_append, map_fst_site, List.mem_append, not_or,
    ← e.openTag.labels_pieces] at ha
  rw [tokens, tokens, OpenTag.source_update_of_not_mem ha.1, Run.fill_update_of_not_mem ha.2]

theorem varies {e : RawOpening α} (hdistinct : (e.holes.map Prod.fst).Nodup) {a : α}
    {site : Site} (ha : (a, site) ∈ e.holes) (f : α → Word) (builder : Node.Builder) :
    Varies builder site fun w => e.tokens (Word.texts (Function.update f a w)) := by
  rw [holes, List.map_append, map_fst_site, List.nodup_append] at hdistinct
  rcases List.mem_append.mp ha with ha | ha
  · have hmem : a ∈ e.openTag.holes.map Prod.fst := List.mem_map.mpr ⟨_, ha, rfl⟩
    have hother : a ∉ e.body.labels := fun hlabel => hdistinct.2.2 a hmem a hlabel rfl
    simp only [tokens, Run.fill_update_of_not_mem hother]
    exact (OpenTag.varies hdistinct.1 ha f builder).append_right
      [.text (e.body.fill (Word.texts f))]
  · obtain ⟨a, hlabel, heq⟩ := List.mem_map.mp ha
    cases heq
    have hother : a ∉ Piece.labels e.openTag.pieces := fun hmem => by
      rw [e.openTag.labels_pieces] at hmem
      exact hdistinct.2.2 a hmem a hlabel rfl
    obtain ⟨left, right, hfill⟩ := Run.exists_fill_update hdistinct.2.1 hlabel f
    obtain ⟨hvoid, hname⟩ := e.void_and_isRawTextName
    -- the body is the text of the element that is opened
    have hparent : (builder.take (.tag (e.openTag.source (Word.texts f)))).parent =
        some (e.openTag.head (Word.texts f)) := by
      rw [Node.Builder.take, e.openTag.roleOf_source]
      exact builder.parent_openTag hvoid
    have hbody : Varies ([.tag (e.openTag.source (Word.texts f))].foldl Node.Builder.take builder)
        .body fun w => [.text (left ++ (w.text ++ right))] :=
      varies_single ⟨_, hvoid, hname, congrArg Place.text hparent⟩ (.text left right)
    simp only [tokens, hfill, OpenTag.source_update_of_not_mem hother]
    exact hbody.append_left

end RawOpening

theorem Block.tokens_update_of_not_mem {b : Block α} {a : α} (ha : a ∉ b.holes.map Prod.fst)
    (f : α → Word) (w : Word) :
    b.tokens (Word.texts (Function.update f a w)) = b.tokens (Word.texts f) := by
  cases b with
  | text run =>
    rw [holes, map_fst_site] at ha
    rw [tokens, tokens, Run.fill_update_of_not_mem ha]
  | static p => rfl
  | comment inside => rw [tokens, tokens, CommentRun.fill_update_of_not_mem ha]
  | tag t not_raw =>
    rw [holes, ← t.labels_pieces] at ha
    rw [tokens, tokens, OpenTag.source_update_of_not_mem ha]
  | raw e => rw [tokens, tokens, RawOpening.tokens_update_of_not_mem ha]

/-- The word in one hole of a block is in one of its tokens, and goes where the hole is. -/
theorem Block.varies {b : Block α} (hdistinct : (b.holes.map Prod.fst).Nodup) {a : α}
    {site : Site} (ha : (a, site) ∈ b.holes) (f : α → Word) (builder : Node.Builder) :
    Varies builder site fun w => b.tokens (Word.texts (Function.update f a w)) := by
  cases b with
  | text run =>
    obtain ⟨a, hlabel, heq⟩ := List.mem_map.mp ha
    cases heq
    rw [holes, map_fst_site] at hdistinct
    obtain ⟨left, right, hfill⟩ := Run.exists_fill_update hdistinct hlabel f
    simp only [tokens, hfill]
    exact varies_single ⟨_, rfl⟩ (.text left right)
  | static p => cases ha
  | comment inside => exact CommentRun.varies hdistinct ha f builder
  | tag t not_raw => exact OpenTag.varies hdistinct ha f builder
  | raw e => exact (RawOpening.varies hdistinct ha f builder).append_right e.close.tokens

theorem Ending.tokens_update_of_not_mem {e : Ending α} {a : α} (ha : a ∉ e.holes.map Prod.fst)
    (f : α → Word) (w : Word) :
    e.tokens (Word.texts (Function.update f a w)) = e.tokens (Word.texts f) := by
  cases e with
  | static s => rfl
  | comment inside => rw [tokens, tokens, CommentRun.fill_update_of_not_mem ha]
  | raw e => exact RawOpening.tokens_update_of_not_mem ha f w

theorem Ending.varies {e : Ending α} (hdistinct : (e.holes.map Prod.fst).Nodup) {a : α}
    {site : Site} (ha : (a, site) ∈ e.holes) (f : α → Word) (builder : Node.Builder) :
    Varies builder site fun w => e.tokens (Word.texts (Function.update f a w)) := by
  cases e with
  | static s => cases ha
  | comment inside => exact CommentRun.varies hdistinct ha f builder
  | raw e => exact RawOpening.varies hdistinct ha f builder

theorem rowTokens_update_of_not_mem {blocks : List (Block α)} {ending : Ending α} {a : α}
    (ha : a ∉ (blocks.flatMap Block.holes ++ ending.holes).map Prod.fst) (f : α → Word) (w : Word) :
    rowTokens (Word.texts (Function.update f a w)) blocks ending =
      rowTokens (Word.texts f) blocks ending := by
  induction blocks with
  | nil => exact Ending.tokens_update_of_not_mem ha f w
  | cons b blocks ih =>
    rw [List.flatMap_cons, List.append_assoc, List.map_append, List.mem_append, not_or] at ha
    have hrest := ih ha.2
    rw [rowTokens, rowTokens] at hrest
    rw [rowTokens, rowTokens, List.flatMap_cons, List.flatMap_cons, List.append_assoc,
      List.append_assoc, Block.tokens_update_of_not_mem ha.1, hrest]

theorem varies_row {blocks : List (Block α)} {ending : Ending α}
    (hdistinct : ((blocks.flatMap Block.holes ++ ending.holes).map Prod.fst).Nodup) {a : α}
    {site : Site} (ha : (a, site) ∈ blocks.flatMap Block.holes ++ ending.holes) (f : α → Word)
    (builder : Node.Builder) : Varies builder site fun w =>
      rowTokens (Word.texts (Function.update f a w)) blocks ending := by
  induction blocks generalizing builder with
  | nil => exact Ending.varies hdistinct ha f builder
  | cons b blocks ih =>
    have hcons : ∀ f : α → Text, rowTokens f (b :: blocks) ending =
        b.tokens f ++ rowTokens f blocks ending := by simp [rowTokens]
    rw [List.flatMap_cons, List.append_assoc] at ha hdistinct
    rw [List.map_append, List.nodup_append] at hdistinct
    obtain ⟨hown, hrest, hapart⟩ := hdistinct
    simp only [hcons]
    rcases List.mem_append.mp ha with ha | ha
    · have hother : a ∉ (blocks.flatMap Block.holes ++ ending.holes).map Prod.fst := fun hmem =>
        hapart a (List.mem_map.mpr ⟨_, ha, rfl⟩) a hmem rfl
      simp only [rowTokens_update_of_not_mem hother]
      exact (Block.varies hown ha f builder).append_right _
    · have hother : a ∉ b.holes.map Prod.fst := fun hmem =>
        hapart a hmem a (List.mem_map.mpr ⟨_, ha, rfl⟩) rfl
      simp only [Block.tokens_update_of_not_mem hother]
      exact (ih hrest ha _).append_left

/-- When the word in one hole varies, so does the tree, in one place and where the hole is. -/
theorem exists_marked (d : Draft α) {a : α} {site : Site} (ha : (a, site) ∈ d.holes)
    (f : α → Word) : ∃ s : Marked, site.Allows (s.place none) ∧
      ∀ w, Node.parse (d.fill (Function.update f a w)) = s.fill w.text := by
  obtain ⟨s, hallows, hfill⟩ := (varies_row d.distinct ha f {}).exists_marked
  exact ⟨s, hallows, fun w => by rw [parse_fill, hfill]⟩

end Draft

end LiveMarkup
