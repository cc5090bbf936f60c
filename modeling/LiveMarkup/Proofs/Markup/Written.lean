import LiveMarkup.Proofs.Markup.Heads
import LiveMarkup.Proofs.Markup.Steps

/-!
# Written trees

The tokens a tree is written with, and when its markup comes apart into just these tokens again.
`Node.WellFormed` is what every tree that was read satisfies: heads, comments and declarations that
can be written, and no two texts side by side. `Node.Legible` is what it takes beyond that: names
that leave no quote open, texts in which no `<` opens anything, and bodies of script and style
elements that do not hold their own close tag. `documentTokens_markupAll` and
`legibleAll_of_documentTokens` say that a well-formed tree is legible exactly when the tokens of its
markup are the ones it was written with.
-/

namespace LiveMarkup

namespace Token

/-- No `<` in a text opens anything when `tail` stands behind the text. -/
def bareBrackets (tail : Text) : Text → Bool
  | [] => true
  | c :: t => (c ≠ '<' || opensNothing (t ++ tail)) && bareBrackets tail t

/-- The tokens of a text in which no `<` opens anything. -/
def ofText (t : Text) : List Token :=
  match t with
  | [] => []
  | c :: t =>
    if c = '<' then .lone :: ofText t
    else .text (c :: t.takeWhile (· ≠ '<')) :: ofText (t.dropWhile (· ≠ '<'))
termination_by t.length
decreasing_by
  · simp
  · exact Nat.lt_succ_of_le (List.dropWhile_suffix _).length_le

/-- The tokens of the body of a script or style element. -/
def ofRawText (body : Text) : List Token := if body.isEmpty then [] else [.text body]

theorem bareBrackets_of_not_mem {tail t : Text} (h : '<' ∉ t) : bareBrackets tail t = true := by
  induction t with
  | nil => rfl
  | cons c t ih =>
    obtain ⟨hc, ht⟩ := not_or.mp (mt List.mem_cons.mpr h)
    simp [bareBrackets, Ne.symm hc, ih ht]

/-- Only the part of a text from its first `<` on matters. -/
theorem bareBrackets_dropWhile (tail t : Text) :
    bareBrackets tail (t.dropWhile (· ≠ '<')) = bareBrackets tail t := by
  induction t with
  | nil => rfl
  | cons c t ih =>
    by_cases hc : c = '<'
    · simp [hc]
    · simpa [bareBrackets, hc] using ih

end Token

/-- The element has a body that is text up to its close tag. -/
def TagHead.isRaw (head : TagHead) : Bool := !head.void && Node.isRawTextName head.name

namespace Node

open Token

/-! ## Trees and their tokens -/

/-- What ends the body of a script or style element, in lower case. -/
def rawTextMark (name : Text) : Text := '<' :: '/' :: Text.lower name

/-- A text is no close tag of an element called `name`, and holds none. -/
def Unmarked (name body : Text) : Prop := ¬rawTextMark name <:+: Text.lower body

mutual

/-- The tokens that a node is written with. -/
def tokens : Node → List Token
  | .text content => ofText content
  | .comment body => [.comment body]
  | .declaration body => [.tag ('<' :: (body ++ ['>']))]
  | .tag head children =>
    .tag (openTag head) ::
      if head.void then []
      else (if head.isRaw then ofRawText (markupAll children) else tokensAll children) ++
        [.tag (closeTag head.name)]

/-- The tokens that a row of nodes is written with. -/
def tokensAll : List Node → List Token
  | [] => []
  | n :: ns => tokens n ++ tokensAll ns

end

/-- The node is a text. -/
def isText : Node → Bool
  | .text _ => true
  | _ => false

/-- A declaration that is read back: an exclamation mark and a text that makes one tag with it. -/
def IsDeclaration (body : Text) : Prop :=
  body.head? = some '!' ∧
    lexer.tokens ('<' :: (body ++ ['>'])) = [.tag ('<' :: (body ++ ['>']))]

mutual

/-- What every node satisfies that was read. -/
def WellFormed : Node → Prop
  | .text _ => True
  | .comment body => ¬commentClose <:+: body
  | .declaration body => IsDeclaration body
  | .tag head children => head.WellFormed ∧ WellFormedAll children

/-- What every row of nodes satisfies that was read: no two texts stand side by side. -/
def WellFormedAll : List Node → Prop
  | [] => True
  | n :: ns =>
    WellFormed n ∧ (n.isText = true → ∀ m ∈ ns.head?, m.isText = false) ∧ WellFormedAll ns

end

mutual

/-- The markup of a node comes apart into its own tokens when `tail` stands behind it. -/
def Legible (tail : Text) : Node → Prop
  | .text content => bareBrackets tail content = true
  | .comment _ | .declaration _ => True
  | .tag head children =>
    Balanced head.name ∧
      if head.void then True
      else if head.isRaw then Unmarked head.name (markupAll children)
      else LegibleAll ['<'] children

/-- The markup of a row of nodes comes apart into its own tokens when `tail` stands behind it. -/
def LegibleAll (tail : Text) : List Node → Prop
  | [] => True
  | n :: ns => Legible ((markupAll ns ++ tail).take 1) n ∧ LegibleAll tail ns

end

/-! ## Tokens of a document, step by step -/

theorem documentTokens_nil : documentTokens [] = [] := by
  rw [documentTokens]

theorem documentTokens_of_steps {c : Char} {t : Text} {r : Reading Token} (h : Steps c t r)
    (hraw : rawTextEnd? r.token = none) :
    documentTokens (c :: t) = r.token.toList ++ documentTokens r.rest := by
  have hstep : lexer.step c t = r := eq_of_steps h
  rw [documentTokens, hstep, hraw]

theorem documentTokens_of_steps_raw {c : Char} {t closing : Text} {r : Reading Token}
    (h : Steps c t r) (hraw : rawTextEnd? r.token = some closing) :
    documentTokens (c :: t) = r.token.toList ++
      (ofRawText (splitRawText closing r.rest).1 ++
        documentTokens (splitRawText closing r.rest).2) := by
  have hstep : lexer.step c t = r := eq_of_steps h
  rw [documentTokens, hstep, hraw]
  rfl

/-- The first token of a document is the one that the first step makes. -/
theorem steps_of_documentTokens {c : Char} {t : Text} {token : Token} {tokens : List Token}
    (h : documentTokens (c :: t) = token :: tokens) :
    ∃ taken rest, Steps c t ⟨some token, taken, rest⟩ := by
  have hsteps := steps_step c t
  generalize step c t = r at hsteps
  rcases r with ⟨found, taken, rest⟩
  cases found with
  | none =>
    cases hsteps with
    | lost hstart hend =>
      rw [documentTokens_of_steps (.lost hstart hend) rfl, documentTokens_nil] at h
      contradiction
  | some found =>
    have hhead : (documentTokens (c :: t)).head? = some found := by
      cases hraw : rawTextEnd? (some found) with
      | none => rw [documentTokens_of_steps hsteps hraw]; rfl
      | some closing => rw [documentTokens_of_steps_raw hsteps hraw]; rfl
    rw [h] at hhead
    cases hhead
    exact ⟨taken, rest, hsteps⟩

/-! ## Texts -/

/-- A text in which no `<` opens anything comes apart into its own tokens. -/
theorem documentTokens_text {rest : Text} (hrest : AtBracket rest) {content : Text}
    (h : bareBrackets (rest.take 1) content = true) :
    documentTokens (content ++ rest) = ofText content ++ documentTokens rest := by
  fun_induction ofText content with
  | case1 => rfl
  | case2 t ih =>
    simp only [bareBrackets, Bool.and_eq_true, ne_eq, not_true_eq_false, decide_false,
      Bool.false_or] at h
    have hlone : Steps '<' (t ++ rest) ⟨some .lone, ['<'], t ++ rest⟩ :=
      .lone (by rw [opensNothing_append hrest]; exact h.1)
    rw [List.cons_append, documentTokens_of_steps hlone rfl, ih h.2]
    rfl
  | case3 c t hc ih =>
    have hdrop : bareBrackets (rest.take 1) (t.dropWhile (· ≠ '<')) = true := by
      rw [bareBrackets_dropWhile]
      simpa [bareBrackets, hc] using h
    rw [List.cons_append, documentTokens_of_steps (.text hc) rfl]
    simp only [Text.takeWhile_append _ hrest.stops, Text.dropWhile_append _ hrest.stops]
    rw [ih hdrop]
    rfl

/-- A text that comes apart into its own tokens has no `<` that opens anything. -/
theorem bareBrackets_of_documentTokens {rest : Text} (hrest : AtBracket rest) {content : Text}
    {tokens : List Token} (h : documentTokens (content ++ rest) = ofText content ++ tokens) :
    bareBrackets (rest.take 1) content = true ∧ documentTokens rest = tokens := by
  fun_induction ofText content with
  | case1 => exact ⟨rfl, h⟩
  | case2 t ih =>
    rw [List.cons_append] at h
    obtain ⟨taken, after, hsteps⟩ := steps_of_documentTokens h
    cases hsteps with
    | lone hnothing =>
      rw [documentTokens_of_steps (.lone hnothing) rfl] at h
      obtain ⟨hbare, htokens⟩ := ih (List.cons.inj h).2
      rw [opensNothing_append hrest] at hnothing
      exact ⟨by simp [bareBrackets, hnothing, hbare], htokens⟩
  | case3 c t hc ih =>
    rw [List.cons_append, documentTokens_of_steps (.text hc) rfl] at h
    simp only [Text.takeWhile_append _ hrest.stops, Text.dropWhile_append _ hrest.stops] at h
    obtain ⟨hbare, htokens⟩ := ih (List.cons.inj h).2
    rw [bareBrackets_dropWhile] at hbare
    exact ⟨by simpa [bareBrackets, hc] using hbare, htokens⟩

/-! ## Tags -/

theorem rawTextEnd?_of_closes {source name : Text} (h : roleOf source = .closes name) :
    rawTextEnd? (some (.tag source)) = none := by
  simp only [rawTextEnd?, h]

theorem isRawTextName_iff {name : Text} : isRawTextName name = true ↔
    Text.lower name = "script".toList ∨ Text.lower name = "style".toList := by
  have hscript : Text.lower "script".toList = "script".toList := by decide
  have hstyle : Text.lower "style".toList = "style".toList := by decide
  simp only [isRawTextName, Text.sameLetters, Bool.or_eq_true, beq_iff_eq, hscript, hstyle]

theorem rawTextEnd?_openTag {head : TagHead} (h : head.WellFormed) :
    rawTextEnd? (some (.tag (openTag head))) =
      if head.isRaw then some (rawTextMark head.name) else none := by
  simp only [rawTextEnd?, roleOf_openTag h, TagHead.isRaw, rawTextMark]
  rfl

theorem steps_openTag {head : TagHead} (h : head.WellFormed) (hname : Balanced head.name)
    (rest : Text) : ∃ t, openTag head ++ rest = '<' :: t ∧
      Steps '<' t ⟨some (.tag (openTag head)), openTag head, rest⟩ := by
  refine ⟨(headText head ++ if head.void then ['/'] else []) ++ '>' :: rest, ?_, ?_⟩
  · rw [openTag_eq]
    simp
  · rw [openTag_eq]
    refine .tag ?_ ?_
    · obtain ⟨c, t, hstart, hc⟩ := h.name_start
      have hmark : c ≠ '!' := by
        rintro rfl
        exact absurd hc (by decide)
      rw [headText, hstart]
      simp only [List.cons_append, List.append_assoc]
      rcases hc with hc | hc
      · simp [startsTag, hmark, hc]
      · simp [startsTag, hc]
    · rw [tagEnd?_append (quoteAfter?_headText h hname _), tagEnd?_close]
      rfl

theorem steps_closeTag {name : Text} (hname : Balanced name) (rest : Text) :
    Steps '<' ('/' :: (name ++ '>' :: rest))
      ⟨some (.tag (closeTag name)), closeTag name, rest⟩ := by
  refine .tag rfl ?_
  have hslash : quoteAfter? none ('/' :: name) = some none := hname
  have hend := tagEnd?_append hslash ('>' :: rest)
  rw [tagEnd?_close] at hend
  exact hend

theorem roleOf_closeTag {name : Text} (h : ∀ c ∈ name, isNameChar c = true) :
    roleOf (closeTag name) = .closes name := by
  have hblank : ∀ c ∈ name, Text.isBlank c = false := by
    intro c hc
    have := h c hc
    simp only [isNameChar, Bool.not_eq_true', Bool.or_eq_false_iff] at this
    exact this.1
  have hdrop : ∀ {t : Text}, (∀ c ∈ t, Text.isBlank c = false) → t.dropWhile Text.isBlank = t := by
    intro t ht
    cases t with
    | nil => rfl
    | cons c t => simp [ht c List.mem_cons_self]
  have hname : closeNameOf (closeTag name) = name := by
    have hinside : ((closeTag name).drop 2).dropLast = name := by simp [closeTag]
    rw [closeNameOf, hinside, Text.trim, Text.trimEnd, hdrop hblank, hdrop, List.reverse_reverse]
    simpa using hblank
  exact congrArg TagRole.closes hname

/-! ## Bodies of script and style elements -/

/-- A body that does not hold the mark ends where the mark stands behind it: the mark begins with
its only `<`, so that none can begin in the body and end behind it. -/
theorem splitRawText_append {w : Text} (hw : '<' ∉ w) {body rest : Text}
    (hbody : ¬('<' :: w) <:+: Text.lower body)
    (hrest : Text.startsLowered ('<' :: w) ('<' :: rest) = true) :
    splitRawText ('<' :: w) (body ++ '<' :: rest) = (body, '<' :: rest) := by
  induction body with
  | nil => simp only [List.nil_append, splitRawText, hrest, if_true]
  | cons c body ih =>
    rw [Text.lower, List.map_cons, List.infix_cons_iff, not_or] at hbody
    have hstart : Text.startsLowered ('<' :: w) (c :: (body ++ '<' :: rest)) = false := by
      rw [Bool.eq_false_iff]
      intro hstarts
      rw [Text.startsLowered_iff, Text.lower, List.map_cons, List.map_append,
        List.cons_prefix_cons] at hstarts
      obtain ⟨hc, hpre⟩ := hstarts
      refine hbody.1 (List.cons_prefix_cons.mpr ⟨hc, ?_⟩)
      have hbracket : Text.lower ('<' :: rest) = '<' :: Text.lower rest := rfl
      rw [← Text.lower, ← Text.lower, hbracket] at hpre
      exact Text.prefix_of_prefix_append_cons hw hpre
    rw [List.cons_append, splitRawText, hstart, ih hbody.2]
    rfl

/-- The body that is split off does not hold the mark. -/
theorem not_infix_splitRawText {closing : Text} (hne : closing ≠ []) (t : Text) :
    ¬closing <:+: Text.lower (splitRawText closing t).1 := by
  induction t with
  | nil => simpa [splitRawText, Text.lower] using hne
  | cons c t ih =>
    rw [splitRawText]
    split
    · simpa [Text.lower] using hne
    · next hstart =>
      rw [Text.startsLowered_iff] at hstart
      rw [Text.lower, List.map_cons, List.infix_cons_iff, not_or]
      refine ⟨fun hpre => hstart (hpre.trans ?_), ih⟩
      rw [Text.lower, List.map_cons, List.cons_prefix_cons]
      refine ⟨rfl, List.IsPrefix.map _ ?_⟩
      conv => rhs; rw [← append_splitRawText closing t]
      exact List.prefix_append _ _

/-- What is split off behind the body starts with the mark. -/
theorem startsLowered_splitRawText (closing t : Text) (h : (splitRawText closing t).2 ≠ []) :
    Text.startsLowered closing (splitRawText closing t).2 = true := by
  induction t with
  | nil => contradiction
  | cons c t ih =>
    by_cases hstart : Text.startsLowered closing (c :: t) = true
    · rw [splitRawText, if_pos hstart]
      exact hstart
    · rw [splitRawText, if_neg hstart] at h ⊢
      exact ih h

/-! ## One node after the other -/

/-- What stands behind a text matters by its first character only. -/
theorem take_one_append_take (s t : Text) : (s ++ t.take 1).take 1 = (s ++ t).take 1 := by
  cases s with
  | nil => rw [List.nil_append, List.nil_append, List.take_take, Nat.min_self]
  | cons c s => rfl

/-- The markup of every node but a text starts with a `<`. -/
theorem atBracket_markup {n : Node} (h : n.isText = false) (rest : Text) :
    AtBracket (markup n ++ rest) := by
  cases n with
  | text => contradiction
  | comment | declaration => simp [markup, atBracket_cons]
  | tag head children =>
    rw [markup]
    split <;> simp [openTag, atBracket_cons]

/-- The markup behind a text starts with a `<`. -/
theorem atBracket_markupAll {n : Node} {ns : List Node} (h : WellFormedAll (n :: ns))
    (htext : n.isText = true) {rest : Text} (hrest : AtBracket rest) :
    AtBracket (markupAll ns ++ rest) := by
  rw [WellFormedAll] at h
  cases ns with
  | nil => exact hrest
  | cons m ns =>
    rw [markupAll, List.append_assoc]
    exact atBracket_markup (h.2.1 htext m rfl) _

theorem documentTokens_comment {body : Text} (h : ¬commentClose <:+: body) (rest : Text) :
    documentTokens (markup (.comment body) ++ rest) = .comment body :: documentTokens rest := by
  have hsteps : Steps '<' (['!', '-', '-'] ++ (body ++ (commentClose ++ rest)))
      ⟨some (.comment body), commentOpen ++ (body ++ commentClose), rest⟩ :=
    .comment (Text.after?_append commentOpen _) (cut?_commentClose h rest)
  have htokens := documentTokens_of_steps hsteps rfl
  simpa [markup, commentClose] using htokens

/-- A declaration is read back whatever follows it. -/
theorem documentTokens_declaration {body : Text} (h : IsDeclaration body) (rest : Text) :
    documentTokens (markup (.declaration body) ++ rest) =
      .tag ('<' :: (body ++ ['>'])) :: documentTokens rest := by
  obtain ⟨hmark, htokens⟩ := h
  have hsteps := steps_step '<' (body ++ ['>'])
  have hstep : lexer.step '<' (body ++ ['>']) = step '<' (body ++ ['>']) := rfl
  rw [Lexer.tokens_cons, hstep] at htokens
  generalize step '<' (body ++ ['>']) = r at hsteps htokens
  cases hsteps with
  | text hc => contradiction
  | comment | commentToEnd | lone => simp at htokens
  | lost => simp at htokens
  | @tag _ inner after hstart hend =>
    simp only [Option.toList_some, List.cons_append, List.nil_append, List.cons.injEq,
      Token.tag.injEq, true_and] at htokens
    obtain ⟨rfl, -⟩ := htokens
    have hafter : after = [] := by simpa using eq_append_of_tagEnd? hend
    rw [hafter] at hend
    have hclosed := quoteAfter?_eq_of_tagEnd? hend
    have hstarts : startsTag (body ++ '>' :: rest) = true := by
      have := startsTag_append hstart rest
      rwa [List.append_assoc] at this
    have hsteps : Steps '<' (body ++ '>' :: rest)
        ⟨some (.tag ('<' :: (body ++ ['>']))), '<' :: (body ++ ['>']), rest⟩ := by
      refine .tag hstarts ?_
      rw [tagEnd?_append hclosed, tagEnd?_close]
      rfl
    have hraw : rawTextEnd? (some (.tag ('<' :: (body ++ ['>'])))) = none := by
      cases body with
      | nil => contradiction
      | cons c body =>
        cases Option.some.inj hmark
        rfl
    have htokens := documentTokens_of_steps hsteps hraw
    simpa [markup] using htokens

theorem documentTokens_openTag {head : TagHead} (h : head.WellFormed) (hname : Balanced head.name)
    (hraw : head.isRaw = false) (rest : Text) :
    documentTokens (openTag head ++ rest) = .tag (openTag head) :: documentTokens rest := by
  obtain ⟨t, heq, hsteps⟩ := steps_openTag h hname rest
  have hend : rawTextEnd? (some (.tag (openTag head))) = none := by
    rw [rawTextEnd?_openTag h, hraw]
    rfl
  rw [heq, documentTokens_of_steps hsteps hend]
  rfl

theorem documentTokens_openTag_raw {head : TagHead} (h : head.WellFormed)
    (hname : Balanced head.name) (hraw : head.isRaw = true) (rest : Text) :
    documentTokens (openTag head ++ rest) = .tag (openTag head) ::
      (ofRawText (splitRawText (rawTextMark head.name) rest).1 ++
        documentTokens (splitRawText (rawTextMark head.name) rest).2) := by
  obtain ⟨t, heq, hsteps⟩ := steps_openTag h hname rest
  have hend : rawTextEnd? (some (.tag (openTag head))) = some (rawTextMark head.name) := by
    rw [rawTextEnd?_openTag h, hraw]
    rfl
  rw [heq, documentTokens_of_steps_raw hsteps hend]
  rfl

theorem documentTokens_closeTag {head : TagHead} (h : head.WellFormed)
    (hname : Balanced head.name) (rest : Text) :
    documentTokens (closeTag head.name ++ rest) =
      .tag (closeTag head.name) :: documentTokens rest := by
  have hend := rawTextEnd?_of_closes (roleOf_closeTag h.name_chars)
  have htokens := documentTokens_of_steps (steps_closeTag hname rest) hend
  simpa [closeTag] using htokens

/-- A body of a script or style element is split off up to the close tag that is written. -/
theorem splitRawText_closeTag {head : TagHead} (hraw : head.isRaw = true) {body : Text}
    (hbody : Unmarked head.name body) (rest : Text) :
    splitRawText (rawTextMark head.name) (body ++ (closeTag head.name ++ rest)) =
      (body, closeTag head.name ++ rest) := by
  have hname : '<' ∉ '/' :: Text.lower head.name := by
    simp only [TagHead.isRaw, Bool.and_eq_true, isRawTextName_iff] at hraw
    rcases hraw.2 with h | h <;> rw [h] <;> decide
  have hclose : closeTag head.name ++ rest = '<' :: '/' :: (head.name ++ '>' :: rest) := by
    simp [closeTag]
  rw [hclose]
  refine splitRawText_append hname hbody ?_
  have hlower : Text.lower ('<' :: '/' :: (head.name ++ '>' :: rest)) =
      '<' :: '/' :: (Text.lower head.name ++ Text.lower ('>' :: rest)) := by
    simp [Text.lower]
  rw [Text.startsLowered_iff, hlower]
  exact List.cons_prefix_cons.mpr ⟨rfl, List.cons_prefix_cons.mpr ⟨rfl, List.prefix_append _ _⟩⟩

mutual

/-- The markup of a legible node comes apart into its tokens. -/
theorem documentTokens_markup {n : Node} (h : n.WellFormed) {rest : Text}
    (hrest : n.isText = true → AtBracket rest) (hlegible : n.Legible (rest.take 1)) :
    documentTokens (markup n ++ rest) = tokens n ++ documentTokens rest := by
  match n with
  | .text content =>
    rw [Legible] at hlegible
    rw [markup, tokens, documentTokens_text (hrest rfl) hlegible]
  | .comment body =>
    rw [WellFormed] at h
    rw [documentTokens_comment h, tokens]
    rfl
  | .declaration body =>
    rw [WellFormed] at h
    rw [documentTokens_declaration h, tokens]
    rfl
  | .tag head children =>
    rw [WellFormed] at h
    rw [Legible] at hlegible
    obtain ⟨hhead, hchildren⟩ := h
    obtain ⟨hname, hbody⟩ := hlegible
    rw [markup, tokens]
    cases hvoid : head.void with
    | true =>
      have hraw : head.isRaw = false := by simp [TagHead.isRaw, hvoid]
      rw [if_pos rfl, if_pos rfl, documentTokens_openTag hhead hname hraw]
      rfl
    | false =>
      rw [hvoid, if_neg Bool.false_ne_true] at hbody
      simp only [Bool.false_eq_true, if_false, List.append_assoc, List.cons_append]
      cases hraw : head.isRaw with
      | true =>
        rw [hraw, if_pos rfl] at hbody
        rw [documentTokens_openTag_raw hhead hname hraw, splitRawText_closeTag hraw hbody,
          documentTokens_closeTag hhead hname]
        rfl
      | false =>
        rw [hraw, if_neg Bool.false_ne_true] at hbody
        have hclose : AtBracket (closeTag head.name ++ rest) := atBracket_cons.mpr rfl
        rw [documentTokens_openTag hhead hname hraw,
          documentTokens_markupAll hchildren hclose hbody, documentTokens_closeTag hhead hname]
        rfl

/-- The markup of a legible row comes apart into its tokens. -/
theorem documentTokens_markupAll {ns : List Node} (h : WellFormedAll ns) {rest : Text}
    (hrest : AtBracket rest) (hlegible : LegibleAll (rest.take 1) ns) :
    documentTokens (markupAll ns ++ rest) = tokensAll ns ++ documentTokens rest := by
  match ns with
  | [] => rfl
  | n :: ns =>
    have hnext : n.isText = true → AtBracket (markupAll ns ++ rest) :=
      fun htext => atBracket_markupAll h htext hrest
    rw [WellFormedAll] at h
    rw [LegibleAll, take_one_append_take] at hlegible
    rw [markupAll, tokensAll, List.append_assoc, List.append_assoc,
      documentTokens_markup h.1 hnext hlegible.1, documentTokens_markupAll h.2.2 hrest hlegible.2]

end

/-! ## The way back -/

/-- A document that starts with `<` starts with no text. -/
theorem not_text_of_documentTokens {t content : Text} {tokens : List Token} :
    documentTokens ('<' :: t) ≠ .text content :: tokens := by
  intro h
  obtain ⟨taken, rest, hsteps⟩ := steps_of_documentTokens h
  cases hsteps with
  | text hc => exact hc rfl

/-- When the open tag is the first token, it ends at its own `>`. -/
theorem balanced_of_documentTokens {head : TagHead} (h : head.WellFormed) {rest : Text}
    {tokens : List Token} (htokens : documentTokens (openTag head ++ rest) =
      .tag (openTag head) :: tokens) : Balanced head.name := by
  have hopen : openTag head ++ rest =
      '<' :: ((headText head ++ if head.void then ['/'] else []) ++ '>' :: rest) := by
    rw [openTag_eq]
    simp
  rw [hopen] at htokens
  obtain ⟨taken, after, hsteps⟩ := steps_of_documentTokens htokens
  generalize hsource : openTag head = source at hsteps
  cases hsteps with
  | @tag _ inner _ hstart hend =>
    rw [openTag_eq, List.cons.injEq] at hsource
    obtain ⟨-, rfl⟩ := hsource
    have hafter := eq_append_of_tagEnd? hend
    rw [List.append_assoc (headText head ++ _)] at hafter
    have hrest : '>' :: rest = '>' :: after := List.append_cancel_left hafter
    cases hrest
    exact balanced_of_quoteAfter?_headText h (quoteAfter?_eq_of_tagEnd? hend)

/-- When the body of a script or style element is its first text, it does not hold its mark. -/
theorem unmarked_of_splitRawText {name body rest : Text} {c : Char} {source : Text}
    {tokens : List Token}
    (h : ofRawText (splitRawText (rawTextMark name) (body ++ c :: rest)).1 ++
        documentTokens (splitRawText (rawTextMark name) (body ++ c :: rest)).2 =
      ofRawText body ++ .tag source :: tokens) :
    Unmarked name body ∧ documentTokens (c :: rest) = .tag source :: tokens := by
  have hsplit := append_splitRawText (rawTextMark name) (body ++ c :: rest)
  have hunmarked : Unmarked name (splitRawText (rawTextMark name) (body ++ c :: rest)).1 :=
    not_infix_splitRawText (by simp [rawTextMark]) _
  have hstop := startsLowered_splitRawText (rawTextMark name) (body ++ c :: rest)
  generalize splitRawText (rawTextMark name) (body ++ c :: rest) = p at h hsplit hunmarked hstop
  obtain ⟨before, after⟩ := p
  dsimp only at h hsplit hunmarked hstop
  cases before with
  | nil =>
    cases body with
    | nil =>
      refine ⟨hunmarked, ?_⟩
      rw [List.nil_append, List.nil_append] at hsplit
      rw [← hsplit]
      exact h
    | cons d body =>
      rw [List.nil_append, List.cons_append] at hsplit
      rw [hsplit] at h hstop
      have hmark := hstop (List.cons_ne_nil _ _)
      simp only [rawTextMark, Text.startsLowered, Bool.and_eq_true, decide_eq_true_eq] at hmark
      rw [Text.eq_of_toLower hmark.1.symm rfl] at h
      exact absurd h not_text_of_documentTokens
  | cons d before =>
    cases body with
    | nil => cases h
    | cons e body =>
      have hbefore : d :: before = e :: body := by
        simpa [ofRawText] using (List.cons.inj h).1
      rw [hbefore] at hsplit hunmarked
      refine ⟨hunmarked, ?_⟩
      rw [← List.append_cancel_left hsplit]
      exact (List.cons.inj h).2

mutual

/-- A node whose markup comes apart into its tokens is legible. -/
theorem legible_of_documentTokens {n : Node} (h : n.WellFormed) {rest : Text}
    (hrest : n.isText = true → AtBracket rest) {more : List Token}
    (htokens : documentTokens (markup n ++ rest) = tokens n ++ more) :
    n.Legible (rest.take 1) ∧ documentTokens rest = more := by
  match n with
  | .text content =>
    rw [Legible]
    rw [markup, tokens] at htokens
    exact bareBrackets_of_documentTokens (hrest rfl) htokens
  | .comment body =>
    rw [WellFormed] at h
    rw [documentTokens_comment h, tokens] at htokens
    rw [Legible]
    exact ⟨trivial, (List.cons.inj htokens).2⟩
  | .declaration body =>
    rw [WellFormed] at h
    rw [documentTokens_declaration h, tokens] at htokens
    rw [Legible]
    exact ⟨trivial, (List.cons.inj htokens).2⟩
  | .tag head children =>
    rw [WellFormed] at h
    obtain ⟨hhead, hchildren⟩ := h
    rw [Legible]
    rw [markup, tokens] at htokens
    cases hvoid : head.void with
    | true =>
      have hraw : head.isRaw = false := by simp [TagHead.isRaw, hvoid]
      rw [hvoid, if_pos rfl, if_pos rfl] at htokens
      have hname := balanced_of_documentTokens hhead htokens
      rw [documentTokens_openTag hhead hname hraw] at htokens
      exact ⟨⟨hname, trivial⟩, (List.cons.inj htokens).2⟩
    | false =>
      rw [hvoid] at htokens
      simp only [Bool.false_eq_true, if_false, List.append_assoc, List.cons_append] at htokens
      have hname := balanced_of_documentTokens hhead htokens
      -- with balanced quotes the close tag is one token too, and what is behind it is left over
      have hclosed {more : List Token} (h : documentTokens (closeTag head.name ++ rest) =
          .tag (closeTag head.name) :: more) : documentTokens rest = more := by
        rw [documentTokens_closeTag hhead hname] at h
        exact (List.cons.inj h).2
      cases hraw : head.isRaw with
      | true =>
        rw [documentTokens_openTag_raw hhead hname hraw, hraw, if_pos rfl] at htokens
        obtain ⟨hbody, hrest⟩ := unmarked_of_splitRawText (List.cons.inj htokens).2
        exact ⟨⟨hname, hbody⟩, hclosed hrest⟩
      | false =>
        have hclose : AtBracket (closeTag head.name ++ rest) := atBracket_cons.mpr rfl
        rw [documentTokens_openTag hhead hname hraw, hraw, if_neg Bool.false_ne_true] at htokens
        obtain ⟨hbody, hrest⟩ :=
          legibleAll_of_documentTokens hchildren hclose (List.cons.inj htokens).2
        exact ⟨⟨hname, hbody⟩, hclosed hrest⟩

/-- A row whose markup comes apart into its tokens is legible. -/
theorem legibleAll_of_documentTokens {ns : List Node} (h : WellFormedAll ns) {rest : Text}
    (hrest : AtBracket rest) {more : List Token}
    (htokens : documentTokens (markupAll ns ++ rest) = tokensAll ns ++ more) :
    LegibleAll (rest.take 1) ns ∧ documentTokens rest = more := by
  match ns with
  | [] => exact ⟨trivial, htokens⟩
  | n :: ns =>
    have hnext : n.isText = true → AtBracket (markupAll ns ++ rest) :=
      fun htext => atBracket_markupAll h htext hrest
    rw [WellFormedAll] at h
    rw [markupAll, tokensAll, List.append_assoc, List.append_assoc] at htokens
    obtain ⟨hn, htokens⟩ := legible_of_documentTokens h.1 hnext htokens
    obtain ⟨hns, htokens⟩ := legibleAll_of_documentTokens h.2.2 hrest htokens
    rw [LegibleAll, take_one_append_take]
    exact ⟨⟨hn, hns⟩, htokens⟩

end

end Node

end LiveMarkup
