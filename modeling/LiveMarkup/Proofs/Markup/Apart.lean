import LiveMarkup.Proofs.Markup.Building
import LiveMarkup.Proofs.Markup.Reading

/-!
# Markup that is read apart

Stretches of a document that are read by themselves, whatever follows them. `Reads` says it of a
text and a row of tokens: the builder is led on behind the text as by these tokens. A text without
a `<` is one text token, although the lexer may take more into it; comments, tags and script and
style elements with their bodies are read as they are written, and at the end of the document also
without their closing marks (`ReadsLast`). Inside a tag, too, stretches that leave no quote open are
read by themselves (`AttributeToken.tokens_append`), and an attribute whose name does not come again
keeps its value (`Keyed.exists_ofList_append`).
-/

namespace LiveMarkup

namespace Node

open Token

/-- The text is read as the tokens, whatever follows it. -/
def Reads (t : Text) (tokens : List Token) : Prop :=
  ∀ (b : Builder) (r : Text), (documentTokens (t ++ r)).foldl Builder.take b =
    (documentTokens r).foldl Builder.take (tokens.foldl Builder.take b)

theorem reads_of_documentTokens {t : Text} {tokens : List Token}
    (h : ∀ r, documentTokens (t ++ r) = tokens ++ documentTokens r) : Reads t tokens := by
  intro b r
  rw [h, List.foldl_append]

theorem atBracket_dropWhile (t : Text) : AtBracket (t.dropWhile (· ≠ '<')) := by
  induction t with
  | nil => exact atBracket_nil
  | cons c t ih =>
    rw [List.dropWhile_cons]
    split
    · exact ih
    · next hc => exact atBracket_cons.mpr (by simpa using hc)

/-- The lexer takes text up to the next `<` together; the builder does not see it. -/
theorem reads_text {t : Text} (h : '<' ∉ t) : Reads t [.text t] := by
  intro b r
  have hr := List.takeWhile_append_dropWhile (p := (· ≠ '<')) (l := r)
  have htake : '<' ∉ r.takeWhile (· ≠ '<') := fun hmem => by
    simpa using List.all_eq_true.mp List.all_takeWhile _ hmem
  have hbracket := atBracket_dropWhile r
  generalize r.takeWhile (· ≠ '<') = u at hr htake
  generalize r.dropWhile (· ≠ '<') = v at hr hbracket
  have hboth : '<' ∉ t ++ u := by simp [h, htake]
  have htext : b.take (.text t) = b.withText t := by simp [Builder.take, Builder.withText]
  rw [← hr, ← List.append_assoc, documentTokens_text hbracket (bareBrackets_of_not_mem hboth),
    documentTokens_text hbracket (bareBrackets_of_not_mem htake), List.foldl_append,
    List.foldl_append, Builder.foldl_take_ofText, Builder.foldl_take_ofText, List.foldl_cons,
    List.foldl_nil, htext, Builder.withText_withText]

theorem reads_comment {body : Text} (h : ¬commentClose <:+: body) :
    Reads (commentOpen ++ (body ++ commentClose)) [.comment body] := by
  refine reads_of_documentTokens fun r => ?_
  simpa [markup, commentOpen, commentClose] using documentTokens_comment h r

/-! ## Tags -/

/-- A tag ends at the `>` behind a stretch that leaves no quote open. -/
theorem steps_tag {inside : Text} (hstart : startsTag (inside ++ ['>']) = true)
    (hquotes : quoteAfter? none inside = some none) (r : Text) :
    Steps '<' (inside ++ '>' :: r)
      ⟨some (.tag ('<' :: (inside ++ ['>']))), '<' :: (inside ++ ['>']), r⟩ := by
  refine .tag ?_ ?_
  · have hstarts := startsTag_append hstart r
    rwa [List.append_assoc] at hstarts
  · rw [tagEnd?_append hquotes, tagEnd?_close]
    rfl

theorem reads_tag {inside : Text} (hstart : startsTag (inside ++ ['>']) = true)
    (hquotes : quoteAfter? none inside = some none)
    (hraw : rawTextEnd? (some (.tag ('<' :: (inside ++ ['>'])))) = none) :
    Reads ('<' :: (inside ++ ['>'])) [.tag ('<' :: (inside ++ ['>']))] := by
  refine reads_of_documentTokens fun r => ?_
  have htokens := documentTokens_of_steps (steps_tag hstart hquotes r) hraw
  simpa using htokens

theorem startsLowered_append {lead t : Text} (h : Text.startsLowered lead t = true) (r : Text) :
    Text.startsLowered lead (t ++ r) = true := by
  rw [Text.startsLowered_iff] at h ⊢
  rw [Text.lower, List.map_append]
  exact h.trans (List.prefix_append _ _)

theorem not_mem_lower_of_isRawTextName {name : Text} (h : isRawTextName name = true) :
    '<' ∉ '/' :: Text.lower name := by
  rcases isRawTextName_iff.mp h with h | h
  · rw [h]
    decide
  · rw [h]
    decide

/-- Without a `<` there is no close tag. -/
theorem unmarked_of_not_mem {name t : Text} (h : '<' ∉ t) : Unmarked name t := by
  intro hmark
  obtain ⟨c, hc, hlower⟩ := List.mem_map.mp (hmark.subset List.mem_cons_self)
  rw [Text.eq_of_toLower hlower rfl] at hc
  exact h hc

/-- The builder takes a script or style element as its tag and one text. -/
theorem foldl_take_raw {inside name rest body after : Text}
    (hstart : startsTag (inside ++ ['>']) = true)
    (hquotes : quoteAfter? none inside = some none)
    (hraw : rawTextEnd? (some (.tag ('<' :: (inside ++ ['>'])))) = some (rawTextMark name))
    (hsplit : splitRawText (rawTextMark name) rest = (body, after)) (b : Builder) :
    (documentTokens ('<' :: (inside ++ ['>']) ++ rest)).foldl Builder.take b =
      (documentTokens after).foldl Builder.take
        ([.tag ('<' :: (inside ++ ['>'])), .text body].foldl Builder.take b) := by
  have hdocument := documentTokens_of_steps_raw (steps_tag hstart hquotes rest) hraw
  simp only [hsplit] at hdocument
  have hwhole : '<' :: (inside ++ ['>']) ++ rest = '<' :: (inside ++ '>' :: rest) := by simp
  have htext : ∀ b : Builder, b.take (.text body) = b.withText body := by
    simp [Builder.take, Builder.withText]
  rw [hwhole, hdocument, List.foldl_append, List.foldl_append, Builder.foldl_take_ofRawText,
    List.foldl_cons, List.foldl_cons, htext]
  rfl

/-- A script or style element is read up to its close tag, its body as one text. -/
theorem reads_raw {inside name body close : Text} {tokens : List Token}
    (hstart : startsTag (inside ++ ['>']) = true)
    (hquotes : quoteAfter? none inside = some none) (hname : isRawTextName name = true)
    (hraw : rawTextEnd? (some (.tag ('<' :: (inside ++ ['>'])))) = some (rawTextMark name))
    (hbody : Unmarked name body) (hclose : Text.startsLowered (rawTextMark name) close = true)
    (htokens : Reads close tokens) :
    Reads ('<' :: (inside ++ ['>']) ++ (body ++ close))
      (.tag ('<' :: (inside ++ ['>'])) :: .text body :: tokens) := by
  intro b r
  have hsplit : splitRawText (rawTextMark name) (body ++ (close ++ r)) = (body, close ++ r) := by
    have hmark := startsLowered_append hclose r
    obtain ⟨close, rfl, -⟩ := Text.exists_of_startsLowered rfl hclose
    exact splitRawText_append (not_mem_lower_of_isRawTextName hname) hbody hmark
  rw [List.append_assoc, List.append_assoc, foldl_take_raw hstart hquotes hraw hsplit, htokens]
  rfl

/-! ## The end of a document -/

/-- The text is read as the tokens at the end of a document. -/
def ReadsLast (t : Text) (tokens : List Token) : Prop :=
  ∀ b : Builder, (documentTokens t).foldl Builder.take b = tokens.foldl Builder.take b

theorem readsLast_self (t : Text) : ReadsLast t (documentTokens t) := fun _ => rfl

theorem Reads.append_last {s t : Text} {tokens tokens' : List Token} (hs : Reads s tokens)
    (ht : ReadsLast t tokens') : ReadsLast (s ++ t) (tokens ++ tokens') := by
  intro b
  rw [hs, ht, List.foldl_append]

/-- The tree of a document is that of its tokens. -/
theorem ReadsLast.parse {t : Text} {tokens : List Token} (h : ReadsLast t tokens) :
    parse t = ofTokens tokens := by
  rw [Node.parse, ofTokens, ofTokens, h]

/-- A comment that is not closed goes on to the end. -/
theorem readsLast_comment {body : Text} (h : ¬commentClose <:+: body) :
    ReadsLast (commentOpen ++ body) [.comment body] := by
  intro b
  have hcut : Text.cut? commentClose body = none := Text.cut?_eq_none_iff.mpr h
  have hsteps : Steps '<' ('!' :: '-' :: '-' :: body)
      ⟨some (.comment body), '<' :: '!' :: '-' :: '-' :: body, []⟩ := .commentToEnd rfl hcut
  have htokens := documentTokens_of_steps hsteps rfl
  rw [documentTokens_nil] at htokens
  exact congrArg (List.foldl Builder.take b) htokens

/-- So does the body of a script or style element. -/
theorem readsLast_raw {inside name body : Text} (hstart : startsTag (inside ++ ['>']) = true)
    (hquotes : quoteAfter? none inside = some none)
    (hraw : rawTextEnd? (some (.tag ('<' :: (inside ++ ['>'])))) = some (rawTextMark name))
    (hbody : Unmarked name body) :
    ReadsLast ('<' :: (inside ++ ['>']) ++ body) [.tag ('<' :: (inside ++ ['>'])), .text body] := by
  intro b
  have hsplit : splitRawText (rawTextMark name) body = (body, []) := by
    have happend := append_splitRawText (rawTextMark name) body
    have hrest : (splitRawText (rawTextMark name) body).2 = [] :=
      Classical.byContradiction fun hne => hbody (by
        have hmark := Text.startsLowered_iff.mp (startsLowered_splitRawText _ body hne)
        rw [← happend, Text.lower, List.map_append]
        exact (hmark.isInfix).trans (List.suffix_append _ _).isInfix)
    rw [hrest, List.append_nil] at happend
    exact Prod.ext happend hrest
  rw [foldl_take_raw hstart hquotes hraw hsplit, documentTokens_nil]
  rfl

end Node

/-! ## Inside a tag -/

/-- A quote that is open and does not stay so is closed by the first of its kind. -/
theorem Token.exists_cutAt?_of_quoteAfter? {q : Char} {t : Text}
    (h : quoteAfter? (some q) t = some none) :
    ∃ body rest, Text.cutAt? q t = some (body, rest) ∧ quoteAfter? none rest = some none := by
  induction t with
  | nil => cases h
  | cons c t ih =>
    by_cases hc : c = q
    · rw [quoteAfter?, if_pos hc] at h
      exact ⟨[], t, by rw [Text.cutAt?, if_pos hc], h⟩
    · rw [quoteAfter?, if_neg hc] at h
      obtain ⟨body, rest, hcut, hrest⟩ := ih h
      exact ⟨c :: body, rest, by rw [Text.cutAt?, if_neg hc, hcut]; rfl, hrest⟩

namespace AttributeToken

theorem exists_word {c : Char} (hc : isWordChar c = true) (t : Text) :
    ∃ word rest, c :: t = word ++ rest ∧ word ≠ [] ∧ (∀ d ∈ word, isWordChar d = true) ∧
      Text.Stops isWordChar rest := by
  refine ⟨c :: t.takeWhile isWordChar, t.dropWhile isWordChar, ?_, List.cons_ne_nil _ _, ?_,
    Text.stops_dropWhile _ _⟩
  · rw [List.cons_append, List.takeWhile_append_dropWhile]
  · rw [List.forall_mem_cons]
    exact ⟨hc, List.all_eq_true.mp List.all_takeWhile⟩

/-- Of the characters that are neither quotes nor in words only the equals sign is a token. -/
theorem tokens_other {c : Char} (hquote : ¬(c = '"' ∨ c = '\'')) (hc : ¬isWordChar c = true)
    (t : Text) : lexer.tokens (c :: t) =
      (if c = '=' then some AttributeToken.equals else none).toList ++ lexer.tokens t := by
  rw [Lexer.tokens_cons]
  by_cases hequals : c = '='
  · simp [lexer, step, hequals]
  · simp [lexer, step, hequals, hquote, hc]

/-- A stretch that leaves no quote open is read by itself, when no word goes on behind it. -/
theorem tokens_append {s : Text} (h : Token.quoteAfter? none s = some none) {r : Text}
    (hr : Text.Stops isWordChar r) :
    lexer.tokens (s ++ r) = lexer.tokens s ++ lexer.tokens r := by
  match s with
  | [] => simp
  | c :: s =>
    by_cases hquote : c = '"' ∨ c = '\''
    · have hopen : Token.quoteAfter? (some c) s = some none := by
        rcases hquote with rfl | rfl <;> exact h
      obtain ⟨body, rest, hcut, hrest⟩ := Token.exists_cutAt?_of_quoteAfter? hopen
      have hs := Text.eq_append_of_cutAt? hcut
      have hbody := Text.not_mem_of_cutAt? hcut
      have : rest.length < (c :: s).length := by
        rw [hs, List.length_cons, List.length_append, List.length_cons]
        omega
      subst hs
      simp only [List.cons_append, List.append_assoc]
      rw [tokens_quoted hquote hbody, tokens_quoted hquote hbody, tokens_append hrest hr]
      rfl
    by_cases hc : isWordChar c = true
    · obtain ⟨word, rest, hs, hne, hword, hstops⟩ := exists_word hc s
      have hrest : Token.quoteAfter? none rest = some none := by
        rw [hs, Token.quoteAfter?_append,
          Token.quoteAfter?_plain fun d hd => isPlain_of_isWordChar (hword d hd)] at h
        exact h
      have hstops' : Text.Stops isWordChar (rest ++ r) := by
        cases rest with
        | nil => exact hr
        | cons d rest => exact Text.stops_cons.mpr (Text.stops_cons.mp hstops)
      have hlength : rest.length ≤ s.length := by
        have hword := List.length_pos_iff.mpr hne
        have hwhole := congrArg List.length hs
        rw [List.length_cons, List.length_append] at hwhole
        omega
      rw [hs, List.append_assoc, tokens_word hne hword hstops', tokens_word hne hword hstops,
        tokens_append hrest hr]
      rfl
    · have hrest : Token.quoteAfter? none s = some none := by
        rw [Token.quoteAfter?] at h
        split at h
        · cases h
        · simpa [hquote] using h
      have := tokens_append hrest hr
      rw [List.cons_append, tokens_other hquote hc, tokens_other hquote hc, this, List.append_assoc]
termination_by s.length

end AttributeToken

/-- Attributes come apart where there is no equals sign before the cut or behind it. -/
theorem Attributes.pairs_append {tokens rest : List AttributeToken}
    (h : tokens.getLast? ≠ some .equals) (hrest : rest.head? ≠ some .equals) :
    pairs (tokens ++ rest) = pairs tokens ++ pairs rest := by
  have htail : ∀ token (tokens : List AttributeToken), (token :: tokens).getLast? ≠ some .equals →
      tokens.getLast? ≠ some .equals := by
    intro token tokens h
    cases tokens with
    | nil => simp
    | cons token' tokens => simpa [List.getLast?_cons_cons] using h
  fun_induction pairs tokens with
  | case1 n value tokens ih =>
    rw [List.cons_append, List.cons_append, List.cons_append, pairs,
      ih (htail _ _ (htail _ _ (htail _ _ h))), List.cons_append]
  | case2 n value tokens ih =>
    rw [List.cons_append, List.cons_append, List.cons_append, pairs,
      ih (htail _ _ (htail _ _ (htail _ _ h))), List.cons_append]
  | case3 n tokens hword hquoted ih =>
    -- an equals sign behind the word has more behind it, which is no value
    have hnext : ∀ token rest', tokens ++ rest = .equals :: token :: rest' →
        ∃ tokens', tokens = .equals :: token :: tokens' := by
      intro token rest' heq
      rcases tokens with _ | ⟨first, _ | ⟨second, tokens⟩⟩
      · rw [List.nil_append] at heq
        rw [heq] at hrest
        exact absurd rfl hrest
      · cases heq
        exact absurd rfl h
      · cases heq
        exact ⟨tokens, rfl⟩
    rw [List.cons_append, pairs, ih (htail _ _ h), List.cons_append]
    · intro value rest' heq
      obtain ⟨tokens', htokens⟩ := hnext _ _ heq
      exact hword value tokens' htokens
    · intro value rest' heq
      obtain ⟨tokens', htokens⟩ := hnext _ _ heq
      exact hquoted value tokens' htokens
  | case4 token tokens _ _ hword ih =>
    have hskip : ∀ tokens, pairs (token :: tokens) = pairs tokens := by
      intro tokens
      cases token with
      | word n => exact absurd rfl (hword n)
      | _ => rw [pairs] <;> simp
    rw [List.cons_append, hskip, ih (htail _ _ h)]
  | case5 => rfl

/-! ## Attributes that stay -/

namespace Keyed

variable {α : Type}

/-- A value that is inserted stands somewhere, wherever it is. -/
theorem exists_insert (m : Keyed α) (key : Text) :
    ∃ first last, ∀ value, insert m key value = first ++ (key, value) :: last := by
  induction m with
  | nil => exact ⟨[], [], fun _ => rfl⟩
  | cons p m ih =>
    obtain ⟨k, v⟩ := p
    by_cases hk : k = key
    · exact ⟨[], m, fun value => by rw [insert, if_pos hk, hk]; rfl⟩
    · obtain ⟨first, last, hinsert⟩ := ih
      exact ⟨(k, v) :: first, last, fun value => by rw [insert, if_neg hk, hinsert]; rfl⟩

/-- A value stays when one is inserted under another key, and what is around it becomes the same as
without it. -/
theorem exists_insert_append {key other : Text} (h : other ≠ key) (first last : Keyed α)
    (new : α) : ∃ first' last',
      (∀ value, insert (first ++ (key, value) :: last) other new =
        first' ++ (key, value) :: last') ∧ insert (first ++ last) other new = first' ++ last' := by
  induction first with
  | nil =>
    refine ⟨[], insert last other new, fun value => ?_, rfl⟩
    rw [List.nil_append, insert, if_neg h.symm]
    rfl
  | cons p first ih =>
    obtain ⟨k, v⟩ := p
    by_cases hk : k = other
    · refine ⟨(k, new) :: first, last, fun value => ?_, ?_⟩
      · rw [List.cons_append, insert, if_pos hk]
        rfl
      · rw [List.cons_append, insert, if_pos hk]
        rfl
    · obtain ⟨first', last', hwith, hwithout⟩ := ih
      refine ⟨(k, v) :: first', last', fun value => ?_, ?_⟩
      · rw [List.cons_append, insert, if_neg hk, hwith]
        rfl
      · rw [List.cons_append, insert, if_neg hk, hwithout]
        rfl

theorem exists_foldl_insert_append {key : Text} {later : List (Text × α)} (h : key ∉ keys later)
    (first last : Keyed α) : ∃ first' last',
      (∀ value, later.foldl (fun m p => insert m p.1 p.2) (first ++ (key, value) :: last) =
        first' ++ (key, value) :: last') ∧
      later.foldl (fun m p => insert m p.1 p.2) (first ++ last) = first' ++ last' := by
  induction later generalizing first last with
  | nil => exact ⟨first, last, fun _ => rfl, rfl⟩
  | cons p later ih =>
    obtain ⟨hp, hlater⟩ := not_or.mp (mt List.mem_cons.mpr h)
    obtain ⟨first', last', hinsert, hwithout⟩ := exists_insert_append (Ne.symm hp) first last p.2
    obtain ⟨first'', last'', hfold, hrest⟩ := ih hlater first' last'
    refine ⟨first'', last'', fun value => ?_, ?_⟩
    · rw [List.foldl_cons, hinsert, hfold]
    · rw [List.foldl_cons, hwithout, hrest]

/-- The value of a key that does not come again stays. -/
theorem exists_ofList_append {key : Text} {later : List (Text × α)} (h : key ∉ keys later)
    (before : List (Text × α)) : ∃ first last, ∀ value,
      ofList (before ++ (key, value) :: later) = first ++ (key, value) :: last := by
  obtain ⟨first, last, hinsert⟩ :=
    exists_insert (before.foldl (fun m p => insert m p.1 p.2) ([] : Keyed α)) key
  obtain ⟨first', last', hfold, -⟩ := exists_foldl_insert_append h first last
  exact ⟨first', last', fun value => by
    rw [ofList, List.foldl_append, List.foldl_cons, hinsert, hfold]⟩

end Keyed

end LiveMarkup
