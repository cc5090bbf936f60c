import LiveMarkup.Proofs.Markup.Growth
import LiveMarkup.Proofs.Markup.Unfinished

/-!
# Tags with and without an attribute

What becomes of a page when one attribute of a tag is left out. `Node.Lacks` says of two trees that
they differ in nothing but an attribute that one tag has in the first and not in the second. Whether
a page with an attribute and the page without it are that far apart depends on the text around it:
`Opening` says what the tag has to begin with, `Closing` what has to follow, so that nothing runs
together when the attribute goes. Then the heads of the two tags differ in the attribute alone
(`exists_headOf`), everything else on the page is read alike (`parse_lacks`), and a tag that is never
finished makes no difference at all (`parse_eq_of_unfinished`).
-/

namespace LiveMarkup

/-! ## Keys that go -/

namespace Keyed

variable {α : Type} {key : Text}

theorem mem_keys_foldl_insert (m : Keyed α) (pairs : List (Text × α)) :
    key ∈ keys (pairs.foldl (fun m p => insert m p.1 p.2) m) ↔ key ∈ keys m ∨ key ∈ keys pairs := by
  induction pairs generalizing m with
  | nil => simp [keys]
  | cons p pairs ih =>
    have hcons : key ∈ keys (p :: pairs) ↔ key = p.1 ∨ key ∈ keys pairs := by simp [keys]
    rw [List.foldl_cons, ih, keys_insert, hcons]
    split
    · next hp =>
      refine ⟨Or.imp_right .inr, ?_⟩
      rintro (h | rfl | h)
      · exact .inl h
      · exact .inl hp
      · exact .inr h
    · rw [List.mem_append, List.mem_singleton, or_assoc]

theorem mem_keys_ofList (pairs : List (Text × α)) : key ∈ keys (ofList pairs) ↔ key ∈ keys pairs := by
  rw [ofList, mem_keys_foldl_insert]
  simp [keys]

/-- A pair whose key comes nowhere else can be left out. -/
theorem exists_ofList_without {before later : List (Text × α)}
    (h : key ∉ keys (ofList (before ++ later))) (value : α) :
    ∃ first last, ofList (before ++ (key, value) :: later) = first ++ (key, value) :: last ∧
      ofList (before ++ later) = first ++ last := by
  rw [mem_keys_ofList, keys, List.map_append, List.mem_append, not_or] at h
  have hbefore : key ∉ keys (ofList before) := mt (mem_keys_ofList before).mp h.1
  obtain ⟨first, last, hwith, hwithout⟩ := exists_foldl_insert_append h.2 (ofList before) []
  refine ⟨first, last, ?_, ?_⟩
  · rw [ofList, List.foldl_append, List.foldl_cons, ← ofList, insert_of_not_mem hbefore, hwith]
  · rw [ofList, List.foldl_append, ← ofList, ← hwithout, List.append_nil]

end Keyed

/-! ## The markup of one attribute -/

namespace Attributes

/-- A name that is one word of markup, without slashes. -/
structure IsName (name : Text) : Prop where
  ne_nil : name ≠ []
  word : ∀ c ∈ name, AttributeToken.isWordChar c = true
  slash : '/' ∉ name

/-- The text spells an attribute, with the space before it: the bare name, or the name and the value
between double quotes. -/
inductive Spells (name : Text) : (value text : Text) → Prop
  | bare {leading : Char} (h : Text.isSpace leading = true) : Spells name [] (leading :: name)
  | quoted {leading : Char} {value : Text} (h : Text.isSpace leading = true) (hvalue : '"' ∉ value) :
    Spells name value (leading :: (name ++ '=' :: '"' :: (value ++ ['"'])))

variable {name value text r : Text}

theorem Spells.exists_leading (h : Spells name value text) :
    ∃ leading rest, text = leading :: rest ∧ Text.isSpace leading = true := by
  cases h with
  | bare h => exact ⟨_, _, rfl, h⟩
  | quoted h hvalue => exact ⟨_, _, rfl, h⟩

/-- An attribute leaves no quote open. -/
theorem Spells.quoteAfter? (h : Spells name value text) (hname : IsName name) :
    Token.quoteAfter? none text = some none := by
  have hplain {leading : Char} (hleading : Text.isSpace leading = true) :
      ∀ c ∈ leading :: name, Token.isPlain c = true :=
    List.forall_mem_cons.mpr ⟨Token.isPlain_of_isSpace hleading, fun c hc =>
      AttributeToken.isPlain_of_isWordChar (hname.word c hc)⟩
  cases h with
  | bare h => exact Token.quoteAfter?_plain (hplain h)
  | @quoted leading value h hvalue =>
    have hsplit : leading :: (name ++ '=' :: '"' :: (value ++ ['"'])) =
        (leading :: name) ++ ('=' :: '"' :: (value ++ ['"'])) := rfl
    rw [hsplit, Token.quoteAfter?_append, Token.quoteAfter?_plain (hplain h)]
    exact Token.quoteAfter?_quoted (.inl rfl) hvalue

/-- An attribute does not end in a slash. -/
theorem Spells.getLast?_ne (h : Spells name value text) (hname : IsName name) (s : Text) :
    (s ++ text).getLast? ≠ some '/' := by
  intro hlast
  cases h with
  | @bare leading h =>
    have hlast : name.getLast? = some '/' := by
      rw [List.getLast?_append, List.getLast?_cons] at hlast
      cases hend : name.getLast? with
      | none => exact absurd (List.getLast?_eq_none_iff.mp hend) hname.ne_nil
      | some c => simpa [hend] using hlast
    exact hname.slash (List.mem_of_getLast? hlast)
  | quoted h hvalue => simp [List.getLast?_append, List.getLast?_cons] at hlast

/-- An attribute begins with a word for readers of attributes. -/
theorem Spells.exists_tokens (h : Spells name value text) (hname : IsName name)
    (hr : Text.Stops AttributeToken.isWordChar r) : ∃ tokens,
      AttributeToken.lexer.tokens (text ++ r) = .word name :: tokens := by
  cases h with
  | bare h =>
    rw [List.cons_append, AttributeToken.tokens_space h,
      AttributeToken.tokens_word hname.ne_nil hname.word hr]
    exact ⟨_, rfl⟩
  | quoted h hvalue =>
    rw [List.cons_append, AttributeToken.tokens_space h, List.append_assoc, List.cons_append,
      AttributeToken.tokens_word hname.ne_nil hname.word (Text.stops_cons.mpr rfl)]
    exact ⟨_, rfl⟩

/-- An attribute is read by itself when no word goes on behind it and no equals sign follows. -/
theorem Spells.pairs_tokens (h : Spells name value text) (hname : IsName name)
    (hr : Text.Stops AttributeToken.isWordChar r)
    (hequals : (AttributeToken.lexer.tokens r).head? ≠ some .equals) :
    pairs (AttributeToken.lexer.tokens (text ++ r)) =
      (name, value) :: pairs (AttributeToken.lexer.tokens r) := by
  cases h with
  | bare h =>
    have hword := pairs_append
      (show [AttributeToken.word name].getLast? ≠ some .equals by simp) hequals
    rw [List.cons_append, AttributeToken.tokens_space h,
      AttributeToken.tokens_word hname.ne_nil hname.word hr]
    exact hword
  | @quoted leading value h hvalue =>
    have hsplit : leading :: (name ++ '=' :: '"' :: (value ++ ['"'])) ++ r =
        leading :: (name ++ '=' :: '"' :: (value ++ '"' :: r)) := by simp
    rw [hsplit, AttributeToken.tokens_space h,
      AttributeToken.tokens_word hname.ne_nil hname.word (Text.stops_cons.mpr rfl),
      AttributeToken.tokens_equals, AttributeToken.tokens_quoted (.inl rfl) hvalue]
    rfl

end Attributes

namespace Node

open Attributes (IsName Spells)

variable {u rest name value text : Text} {slash : Bool}

/-! ## Heads -/

/-- What a tag begins with when an attribute may come next: the name of an open tag and attributes,
with no quote left open by either and no attribute that waits for its value. -/
structure Opening (u : Text) : Prop where
  start : ∃ c t, u = c :: t ∧ (Text.isAlphanum c = true ∨ c = '-')
  name : Balanced (u.takeWhile isNameChar)
  quotes : Token.quoteAfter? none (u.dropWhile isNameChar) = some none
  complete : (AttributeToken.lexer.tokens (u.dropWhile isNameChar)).getLast? ≠ some .equals

/-- What a tag that begins with `u` goes on with up to its end, but for a slash there, when an
attribute may be left out before it: a space or nothing, no equals sign, and no slash that would be
the last character then. -/
structure Closing (u rest : Text) (slash : Bool) : Prop where
  space : ∀ c ∈ rest.head?, Text.isSpace c = true
  quotes : Token.quoteAfter? none rest = some none
  equals : (AttributeToken.lexer.tokens rest).head? ≠ some .equals
  last : slash = false → (u ++ rest).getLast? ≠ some '/'

theorem Opening.quoteAfter? (h : Opening u) : Token.quoteAfter? none u = some none := by
  rw [← List.takeWhile_append_dropWhile (p := isNameChar) (l := u), Token.quoteAfter?_append, h.name]
  exact h.quotes

theorem Opening.startsTag (h : Opening u) (s : Text) : Token.startsTag (u ++ s) = true := by
  obtain ⟨c, t, rfl, hc⟩ := h.start
  have hone : Token.startsTag [c] = true := by
    rcases hc with hc | rfl
    · simp [Token.startsTag, hc]
    · rfl
  exact Token.startsTag_append (t := [c]) hone (t ++ s)

theorem Closing.stops_word (h : Closing u rest slash) :
    Text.Stops AttributeToken.isWordChar rest := fun c hc =>
  AttributeToken.isWordChar_of_isSpace (h.space c hc)

theorem Closing.stops_name (h : Closing u rest slash) : Text.Stops isNameChar rest := fun c hc =>
  isNameChar_of_isSpace (h.space c hc)

/-- With an attribute before it what a tag goes on with does not end in another slash either. -/
theorem Closing.last_spells (h : Closing u rest slash) (hname : IsName name)
    (htext : Spells name value text) (hslash : slash = false) :
    (u ++ (text ++ rest)).getLast? ≠ some '/' := by
  have hend := h.last hslash
  cases rest with
  | nil =>
    rw [List.append_nil]
    exact htext.getLast?_ne hname u
  | cons c rest =>
    have hsome : ((c :: rest).getLast?).isSome = true := by simp
    rw [List.getLast?_append, Option.or_of_isSome hsome] at hend
    rwa [← List.append_assoc, List.getLast?_append, Option.or_of_isSome hsome]

theorem Opening.roleOf_append (h : Opening u) (s : Text) :
    roleOf ('<' :: (u ++ s)) = .opens (headOf ('<' :: (u ++ s))) := by
  obtain ⟨c, t, rfl, hc⟩ := h.start
  exact roleOf_eq_opens hc (t ++ s)

/-- The attributes that a tag begins with are read apart from what follows. -/
theorem Opening.read_append (h : Opening u) {s : Text}
    (hstops : Text.Stops AttributeToken.isWordChar s)
    (hequals : (AttributeToken.lexer.tokens s).head? ≠ some .equals) :
    Attributes.read (u.dropWhile isNameChar ++ s) =
      Keyed.ofList (Attributes.pairs (AttributeToken.lexer.tokens (u.dropWhile isNameChar)) ++
        Attributes.pairs (AttributeToken.lexer.tokens s)) := by
  rw [Attributes.read, AttributeToken.tokens_append h.quotes hstops,
    Attributes.pairs_append h.complete hequals]

/-- What a tag that may end in a slash holds. -/
theorem headOf_tag {inside : Text} (hlast : slash = false → inside.getLast? ≠ some '/') :
    headOf ('<' :: (inside ++ (if slash then ['/'] else []) ++ ['>'])) =
      ⟨inside.takeWhile isNameChar, Attributes.read (inside.dropWhile isNameChar),
        slash || isVoidName (inside.takeWhile isNameChar)⟩ := by
  refine headOf_eq ?_ hlast
  rw [List.drop_one, List.tail_cons, List.dropLast_concat]

/-- With an attribute and without it a tag has the same head but for the attribute. -/
theorem exists_headOf (hu : Opening u) (hname : IsName name) (htext : Spells name value text)
    (hrest : Closing u rest slash)
    (hkey : name ∉ Keyed.keys (Attributes.read ((u ++ rest).dropWhile isNameChar))) :
    ∃ tag first last void,
      headOf ('<' :: (u ++ (text ++ rest) ++ (if slash then ['/'] else []) ++ ['>'])) =
          ⟨tag, first ++ (name, value) :: last, void⟩ ∧
        headOf ('<' :: (u ++ rest ++ (if slash then ['/'] else []) ++ ['>'])) =
          ⟨tag, first ++ last, void⟩ := by
  obtain ⟨leading, t, ht, hleading⟩ := htext.exists_leading
  have hstops : Text.Stops isNameChar (text ++ rest) := by
    rw [ht]
    exact Text.stops_cons.mpr (isNameChar_of_isSpace hleading)
  have hword : Text.Stops AttributeToken.isWordChar (text ++ rest) := by
    rw [ht]
    exact Text.stops_cons.mpr (AttributeToken.isWordChar_of_isSpace hleading)
  obtain ⟨tokens, hbegins⟩ := htext.exists_tokens hname hrest.stops_word
  have hequals : (AttributeToken.lexer.tokens (text ++ rest)).head? ≠ some .equals := by
    rw [hbegins]
    simp
  have hwith := hu.read_append hword hequals
  rw [htext.pairs_tokens hname hrest.stops_word hrest.equals] at hwith
  have hwithout := hu.read_append hrest.stops_word hrest.equals
  rw [Text.dropWhile_append u hrest.stops_name, hwithout] at hkey
  obtain ⟨first, last, hfirst, hlater⟩ := Keyed.exists_ofList_without hkey value
  refine ⟨u.takeWhile isNameChar, first, last, slash || isVoidName (u.takeWhile isNameChar), ?_, ?_⟩
  · rw [headOf_tag (hrest.last_spells hname htext), Text.takeWhile_append u hstops,
      Text.dropWhile_append u hstops, hwith, hfirst]
  · rw [headOf_tag hrest.last, Text.takeWhile_append u hrest.stops_name,
      Text.dropWhile_append u hrest.stops_name, hwithout, hlater]

/-! ## Trees -/

/-- The second row differs from the first in nothing but an attribute that one tag lacks. -/
inductive Lacks (a : Text × Text) : List Node → List Node → Prop
  | here (before : List Node) (tag : Text) (first last : Attributes) (void : Bool)
    (children after : List Node) :
    Lacks a (before ++ .tag ⟨tag, first ++ a :: last, void⟩ children :: after)
      (before ++ .tag ⟨tag, first ++ last, void⟩ children :: after)
  | inside (before : List Node) (head : TagHead) {row row' : List Node} (after : List Node)
    (h : Lacks a row row') :
    Lacks a (before ++ .tag head row :: after) (before ++ .tag head row' :: after)

variable {a : Text × Text} {row row' : List Node}

/-- Rows that differ in one attribute do so when they have grown. -/
theorem Lacks.grow (h : Lacks a row row') (ns : List Node) (depth : Nat) :
    Lacks a (grow ns depth row) (grow ns depth row') := by
  induction h generalizing depth with
  | here before tag first last void children after =>
    by_cases hedge : depth = 0 ∨ after ≠ []
    · rw [grow_append_cons ns before _ hedge, grow_append_cons ns before _ hedge]
      exact .here before tag first last void children _
    · obtain ⟨hdepth, hafter⟩ := not_or.mp hedge
      obtain ⟨depth, rfl⟩ := Nat.exists_eq_succ_of_ne_zero hdepth
      obtain rfl := Classical.not_not.mp hafter
      rw [grow_concat_tag, grow_concat_tag]
      exact .here before tag first last void _ []
  | inside before head after h ih =>
    by_cases hedge : depth = 0 ∨ after ≠ []
    · rw [grow_append_cons ns before _ hedge, grow_append_cons ns before _ hedge]
      exact .inside before head _ h
    · obtain ⟨hdepth, hafter⟩ := not_or.mp hedge
      obtain ⟨depth, rfl⟩ := Nat.exists_eq_succ_of_ne_zero hdepth
      obtain rfl := Classical.not_not.mp hafter
      rw [grow_concat_tag, grow_concat_tag]
      exact .inside before head [] (ih depth)

namespace Builder

theorem lacks_closeAll (h : Lacks a row row') (head : TagHead) (root : List Node)
    (frames : List Frame) : Lacks a (closeAll (some (.tag head row)) root frames).reverse
      (closeAll (some (.tag head row')) root frames).reverse := by
  induction frames generalizing row row' head with
  | nil => simpa [closeAll] using Lacks.inside root.reverse head [] h
  | cons f fs ih =>
    have hrow := ih (Lacks.inside f.children.reverse head [] h) f.head
    simpa [closeAll, Frame.node] using hrow

/-- What differs in the innermost row differs in the tree. -/
theorem lacks_settled (b : Builder) (boundary : Boundary) {ns ns' : List Node}
    (h : Lacks a (b.row.reverse ++ ns) (b.row.reverse ++ ns')) :
    Lacks a (b.settled boundary ns).tree (b.settled boundary ns').tree := by
  rcases b with ⟨_ | ⟨f, fs⟩, root, _, pending⟩
  · simpa [tree, settled, appendAll, closeAll, Builder.row] using h
  · have hall := lacks_closeAll h f.head root fs
    simpa [tree, settled, appendAll, closeAll, Frame.node, Builder.row] using hall

/-- The builders go on alike with trees that differ in one attribute. -/
structure Parted (a : Text × Text) (b b' : Builder) : Prop where
  ready : b.Ready
  ready' : b'.Ready
  alike : b.Alike b'
  tree : Lacks a b.tree b'.tree

variable {b b' : Builder}

theorem Parted.take (h : b.Parted a b') (token : Token) :
    (b.take token).Parted a (b'.take token) where
  ready := h.ready.take token
  ready' := h.ready'.take token
  alike := h.alike.take token
  tree := by
    rw [tree_take h.ready, tree_take h.ready', ← h.alike.added, length_frames_eq, length_frames_eq,
      ← h.alike.names]
    exact h.tree.grow _ _

theorem Parted.foldl_take (h : b.Parted a b') (tokens : List Token) :
    (tokens.foldl Builder.take b).Parted a (tokens.foldl Builder.take b') := by
  induction tokens generalizing b b' with
  | nil => exact h
  | cons token tokens ih => exact ih (h.take token)

theorem Parted.finish (h : b.Parted a b') : Lacks a b.finish b'.finish := by
  have hfinish (b : Builder) : b.finish = (b.flush true).tree := rfl
  rw [hfinish, hfinish, tree_flush h.ready, tree_flush h.ready', ← h.alike.boundary,
    ← h.alike.pending, length_frames_eq, length_frames_eq, ← h.alike.names]
  exact h.tree.grow _ _

/-- Builders part at a tag with an attribute and without it. -/
theorem parted_take (hb : b.Ready) {source source' tag : Text} {first last : Attributes}
    {void : Bool} (hrole : roleOf source = .opens ⟨tag, first ++ a :: last, void⟩)
    (hrole' : roleOf source' = .opens ⟨tag, first ++ last, void⟩) :
    (b.take (.tag source)).Parted a (b.take (.tag source')) where
  ready := hb.take _
  ready' := hb.take _
  alike := by
    simp only [Builder.take, hrole, hrole']
    exact alike_openTag rfl rfl rfl
  tree := by
    rw [tree_take hb, tree_take hb, ← tree_settled b .closed, ← tree_settled b .closed]
    refine lacks_settled b .closed ?_
    simp only [added, hrole, hrole']
    rw [← List.append_assoc, ← List.append_assoc]
    exact .here _ tag first last void [] []

end Builder

/-- Documents differ in one attribute when one tag does. -/
theorem lacks_ofTokens (before after : List Token) {source source' tag : Text}
    {first last : Attributes} {void : Bool}
    (hrole : roleOf source = .opens ⟨tag, first ++ a :: last, void⟩)
    (hrole' : roleOf source' = .opens ⟨tag, first ++ last, void⟩) :
    Lacks a (ofTokens (before ++ .tag source :: after))
      (ofTokens (before ++ .tag source' :: after)) := by
  have hempty : Builder.Ready {} := fun hboundary => nomatch hboundary
  have hparted := Builder.parted_take (hempty.foldl_take before) hrole hrole'
  rw [ofTokens, ofTokens, List.foldl_append, List.foldl_append]
  exact (hparted.foldl_take after).finish

/-! ## Pages -/

variable {pre post after : Text} {tokens : List Token}

/-- What comes behind a tag depends on the name of its element only. -/
theorem exists_documentTokens {inside inside' : Text} {head head' : TagHead}
    (hstart : Token.startsTag (inside ++ ['>']) = true)
    (hstart' : Token.startsTag (inside' ++ ['>']) = true)
    (hquotes : Token.quoteAfter? none inside = some none)
    (hquotes' : Token.quoteAfter? none inside' = some none)
    (hrole : roleOf ('<' :: (inside ++ ['>'])) = .opens head)
    (hrole' : roleOf ('<' :: (inside' ++ ['>'])) = .opens head')
    (hname : head.name = head'.name) (hvoid : head.void = head'.void) (after : Text) :
    ∃ tokens,
      documentTokens ('<' :: (inside ++ '>' :: after)) = .tag ('<' :: (inside ++ ['>'])) :: tokens ∧
        documentTokens ('<' :: (inside' ++ '>' :: after)) =
          .tag ('<' :: (inside' ++ ['>'])) :: tokens := by
  have hraw : rawTextEnd? (some (.tag ('<' :: (inside ++ ['>'])))) =
      rawTextEnd? (some (.tag ('<' :: (inside' ++ ['>'])))) := by
    simp only [rawTextEnd?, hrole, hrole', hname, hvoid]
  have hsteps := steps_tag hstart hquotes after
  have hsteps' := steps_tag hstart' hquotes' after
  cases hend : rawTextEnd? (some (.tag ('<' :: (inside ++ ['>'])))) with
  | none =>
    exact ⟨_, documentTokens_of_steps hsteps hend, documentTokens_of_steps hsteps' (hraw ▸ hend)⟩
  | some closing =>
    exact ⟨_, documentTokens_of_steps_raw hsteps hend,
      documentTokens_of_steps_raw hsteps' (hraw ▸ hend)⟩

/-- A page with an attribute and the page without it differ in nothing else, when it stands where
nothing runs together without it. -/
theorem parse_lacks (hpre : LeadsTo pre tokens ('<' :: u)) (hu : Opening u) (hname : IsName name)
    (htext : Spells name value text) (hrest : Closing u rest slash)
    (hkey : name ∉ Keyed.keys (Attributes.read ((u ++ rest).dropWhile isNameChar))) (after : Text) :
    Lacks (name, value)
      (parse (pre ++ (text ++ (rest ++ ((if slash then ['/'] else []) ++ '>' :: after)))))
      (parse (pre ++ (rest ++ ((if slash then ['/'] else []) ++ '>' :: after)))) := by
  obtain ⟨tag, first, last, void, hwith, hwithout⟩ := exists_headOf hu hname htext hrest hkey
  have hslash : Token.quoteAfter? none (if slash then ['/'] else []) = some none := by
    cases slash <;> rfl
  have hrole : roleOf ('<' :: (u ++ (text ++ rest) ++ (if slash then ['/'] else []) ++ ['>'])) =
      .opens ⟨tag, first ++ (name, value) :: last, void⟩ := by
    rw [← hwith]
    simpa only [List.append_assoc] using
      hu.roleOf_append (text ++ (rest ++ ((if slash then ['/'] else []) ++ ['>'])))
  have hrole' : roleOf ('<' :: (u ++ rest ++ (if slash then ['/'] else []) ++ ['>'])) =
      .opens ⟨tag, first ++ last, void⟩ := by
    rw [← hwithout]
    simpa only [List.append_assoc] using
      hu.roleOf_append (rest ++ ((if slash then ['/'] else []) ++ ['>']))
  have hstart (t s : Text) : Token.startsTag (u ++ t ++ s ++ ['>']) = true := by
    rw [List.append_assoc, List.append_assoc]
    exact hu.startsTag _
  have hquotes : Token.quoteAfter? none
      (u ++ (text ++ rest) ++ (if slash then ['/'] else [])) = some none := by
    simp [Token.quoteAfter?_append, hu.quoteAfter?, htext.quoteAfter? hname, hrest.quotes, hslash]
  have hquotes' : Token.quoteAfter? none
      (u ++ rest ++ (if slash then ['/'] else [])) = some none := by
    simp [Token.quoteAfter?_append, hu.quoteAfter?, hrest.quotes, hslash]
  obtain ⟨later, htokens, htokens'⟩ := exists_documentTokens (hstart _ _) (hstart _ _) hquotes
    hquotes' hrole hrole' rfl rfl after
  have hpage : parse (pre ++ (text ++ (rest ++ ((if slash then ['/'] else []) ++ '>' :: after)))) =
      ofTokens (tokens ++ .tag
        ('<' :: (u ++ (text ++ rest) ++ (if slash then ['/'] else []) ++ ['>'])) :: later) := by
    rw [parse, hpre.documentTokens_append, ← htokens]
    simp only [List.append_assoc]
  have hpage' : parse (pre ++ (rest ++ ((if slash then ['/'] else []) ++ '>' :: after))) =
      ofTokens (tokens ++ .tag
        ('<' :: (u ++ rest ++ (if slash then ['/'] else []) ++ ['>'])) :: later) := by
    rw [parse, hpre.documentTokens_append, ← htokens']
    simp only [List.append_assoc]
  rw [hpage, hpage']
  exact lacks_ofTokens tokens later hrole hrole'

/-- A tag that is never finished is lost with and without an attribute. -/
theorem parse_eq_of_unfinished (hpre : LeadsTo pre tokens ('<' :: u)) (hu : Opening u)
    (hname : IsName name) (htext : Spells name value text)
    (hpost : Token.tagEnd? none post = none) :
    parse (pre ++ (text ++ post)) = parse (pre ++ post) := by
  have hlost {t : Text} (hquotes : Token.quoteAfter? none t = some none) :
      documentTokens ('<' :: (u ++ (t ++ post))) = [] := by
    have hend : Token.tagEnd? none (u ++ (t ++ post)) = none := by
      rw [Token.tagEnd?_append hu.quoteAfter?, Token.tagEnd?_append hquotes, hpost]
      rfl
    have htokens := documentTokens_of_steps (.lost (hu.startsTag _) hend) rfl
    rwa [documentTokens_nil] at htokens
  have hwithout := hlost (t := []) rfl
  rw [List.nil_append] at hwithout
  rw [parse, parse, hpre.documentTokens_append, hpre.documentTokens_append, hwithout,
    hlost (htext.quoteAfter? hname)]

/-- What stands behind an attribute of the name that can be left out: the tag goes on and ends without
another one of the name, or it does not end. -/
inductive Follows (u name : Text) : Text → Prop
  | closing {rest : Text} {slash : Bool} (h : Closing u rest slash)
    (hkey : name ∉ Keyed.keys (Attributes.read ((u ++ rest).dropWhile isNameChar))) (after : Text) :
    Follows u name (rest ++ ((if slash then ['/'] else []) ++ '>' :: after))
  | unfinished {post : Text} (h : Token.tagEnd? none post = none) : Follows u name post

/-- An attribute of the name can stand between `pre` and `post` and can be left out there. -/
inductive Gap (pre name post : Text) : Prop
  | intro {tokens : List Token} {u : Text} (hpre : LeadsTo pre tokens ('<' :: u)) (hu : Opening u)
    (hpost : Follows u name post)

/-- With an attribute in a gap and without it a page is read as trees that differ in the attribute
alone, unless the tag does not end: then it makes no difference. -/
theorem Gap.parse_lacks (h : Gap pre name post) (hname : IsName name)
    (htext : Spells name value text) :
    Lacks (name, value) (parse (pre ++ (text ++ post))) (parse (pre ++ post)) ∨
      Token.tagEnd? none post = none ∧ parse (pre ++ (text ++ post)) = parse (pre ++ post) := by
  obtain ⟨hpre, hu, hpost⟩ := h
  cases hpost with
  | closing hrest hkey after => exact .inl (Node.parse_lacks hpre hu hname htext hrest hkey after)
  | unfinished hend => exact .inr ⟨hend, parse_eq_of_unfinished hpre hu hname htext hend⟩

/-! ## Trees that differ in more -/

/-- Of the heads in two such trees one lacks the attribute and all others are the same. -/
theorem Lacks.exists_heads (h : Lacks a row row') : ∃ before tag first last void after,
    headsAll row = before ++ ⟨tag, first ++ a :: last, void⟩ :: after ∧
      headsAll row' = before ++ ⟨tag, first ++ last, void⟩ :: after := by
  induction h with
  | here before tag first last void children after =>
    refine ⟨headsAll before, tag, first, last, void, headsAll children ++ headsAll after, ?_, ?_⟩
    · simp [headsAll_append, headsAll, heads]
    · simp [headsAll_append, headsAll, heads]
  | inside before head after h ih =>
    obtain ⟨before', tag, first, last, void, after', hrow, hrow'⟩ := ih
    refine ⟨headsAll before ++ head :: before', tag, first, last, void, after' ++ headsAll after,
      ?_, ?_⟩
    · simp [headsAll_append, headsAll, heads, hrow]
    · simp [headsAll_append, headsAll, heads, hrow']

/-- Two trees have the same tags, and the first has one attribute more than the second, where this one
comes once less. -/
def isLack (a : Text × Text) (row row' : List Node) : Bool :=
  let attributes (ns : List Node) : List (Text × Text) := (headsAll ns).flatMap TagHead.attributes
  (headsAll row).map (fun h => (h.name, h.void)) = (headsAll row').map (fun h => (h.name, h.void)) &&
    (attributes row).count a = (attributes row').count a + 1 &&
    (attributes row).length = (attributes row').length + 1

theorem Lacks.isLack (h : Lacks a row row') : isLack a row row' = true := by
  obtain ⟨before, tag, first, last, void, after, hrow, hrow'⟩ := h.exists_heads
  simp only [Node.isLack, hrow, hrow', Bool.and_eq_true, decide_eq_true_eq, List.map_append,
    List.map_cons, List.flatMap_append, List.flatMap_cons, List.count_append, List.count_cons_self,
    List.length_append, List.length_cons]
  refine ⟨⟨trivial, ?_⟩, ?_⟩
  · omega
  · omega

end Node

end LiveMarkup
