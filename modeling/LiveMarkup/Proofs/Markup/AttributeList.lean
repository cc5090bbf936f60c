import LiveMarkup.Markup.Attributes
import Mathlib.Data.List.Induction

/-!
# Attribute lists

What is spelled inside a tag is specified by a grammar: any number of items, each an attribute or
else a token that is passed over. It is put together from the combinators of a parser library, of
which only is known what each of them takes (`Combinators`). Such a parser may fail, and gives back
what it has taken when what it tries after an equals sign fails.

`Reads` says how tokens come apart: from left to right, and each attribute as long as it can be. An
item of the grammar takes the tokens of one entry (`run_item`), so the grammar never fails
(`parse_of_reads`), and each word is a name or a value (`Reads.words_eq`).

A keyed list that is made of pairs has the keys in the order in which they first come
(`keys_ofList`) and under each the value that came last (`get?_ofList`).
-/

namespace LiveMarkup

/-! ## Parsers -/

/-- A parser takes tokens off the front of a row and makes something of them, or fails. -/
abbrev TokenParser (α : Type) := List AttributeToken → Option (α × List AttributeToken)

namespace TokenParser

variable {α β : Type}

/-- Take one token, if `f` makes something of it. -/
def select (f : AttributeToken → Option α) : TokenParser α
  | [] => none
  | token :: rest => (f token).map fun a => (a, rest)

/-- Go on with `q` behind what `p` takes. -/
def andThen (p : TokenParser α) (q : TokenParser β) : TokenParser (α × β) := fun tokens => do
  let (a, rest) ← p tokens
  let (b, rest) ← q rest
  return ((a, b), rest)

/-- Where `p` fails nothing is taken. -/
def orNot (p : TokenParser α) : TokenParser (Option α) := fun tokens =>
  match p tokens with
  | some (a, rest) => some (some a, rest)
  | none => some (none, tokens)

/-- Where `p` fails `q` is tried at the same place. -/
def orElse (p q : TokenParser α) : TokenParser α := fun tokens =>
  match p tokens with
  | some r => some r
  | none => q tokens

def map (f : α → β) (p : TokenParser α) : TokenParser β := fun tokens =>
  (p tokens).map fun r => (f r.1, r.2)

/-- Take what `p` takes as often as it succeeds. It is not tried again where it takes nothing. -/
def many (p : TokenParser α) (tokens : List AttributeToken) : List α × List AttributeToken :=
  match p tokens with
  | none => ([], tokens)
  | some (a, rest) =>
    if rest.length < tokens.length then (a :: (many p rest).1, (many p rest).2) else ([a], rest)
termination_by tokens.length

/-- Fail if something is left. -/
def whole (p : TokenParser α) (tokens : List AttributeToken) : Option α :=
  match p tokens with
  | some (a, []) => some a
  | _ => none

theorem many_of_some {p : TokenParser α} {tokens rest : List AttributeToken} {a : α}
    (taken : p tokens = some (a, rest)) (shorter : rest.length < tokens.length) :
    many p tokens = (a :: (many p rest).1, (many p rest).2) := by
  rw [many, taken]
  exact if_pos shorter

theorem many_of_none {p : TokenParser α} {tokens : List AttributeToken} (fails : p tokens = none) :
    many p tokens = ([], tokens) := by
  rw [many, fails]

end TokenParser

/-- A library of parsers. What its combinators take is laid down, how it takes it is not. -/
structure Combinators where
  Parser : Type → Type
  run : Parser α → TokenParser α
  select : (AttributeToken → Option α) → Parser α
  andThen : Parser α → Parser β → Parser (α × β)
  orNot : Parser α → Parser (Option α)
  orElse : Parser α → Parser α → Parser α
  map : (α → β) → Parser α → Parser β
  repeated : Parser α → Parser (List α)
  run_select (f : AttributeToken → Option α) : run (select f) = TokenParser.select f
  run_andThen (p : Parser α) (q : Parser β) :
    run (andThen p q) = TokenParser.andThen (run p) (run q)
  run_orNot (p : Parser α) : run (orNot p) = TokenParser.orNot (run p)
  run_orElse (p q : Parser α) : run (orElse p q) = TokenParser.orElse (run p) (run q)
  run_map (f : α → β) (p : Parser α) : run (map f p) = TokenParser.map f (run p)
  run_repeated (p : Parser α)
    (progress : ∀ tokens a rest, run p tokens = some (a, rest) → rest.length < tokens.length)
    (tokens : List AttributeToken) :
    run (repeated p) tokens = some (TokenParser.many (run p) tokens)

/-- The library in which a parser is the function it stands for. -/
def Combinators.plain : Combinators where
  Parser := TokenParser
  run p := p
  select := TokenParser.select
  andThen := TokenParser.andThen
  orNot := TokenParser.orNot
  orElse := TokenParser.orElse
  map := TokenParser.map
  repeated p := fun tokens => some (TokenParser.many p tokens)
  run_select _ := rfl
  run_andThen _ _ := rfl
  run_orNot _ := rfl
  run_orElse _ _ := rfl
  run_map _ _ := rfl
  run_repeated _ _ _ := rfl

/-! ## The grammar -/

namespace AttributeToken

/-- The text of a word. -/
def word? : AttributeToken → Option Text
  | .word t => some t
  | _ => none

/-- The text of a token that can be a value. -/
def value? : AttributeToken → Option Text
  | .word t => some t
  | .quoted t => some t
  | .equals => none

def equals? : AttributeToken → Option Unit
  | .equals => some ()
  | _ => none

end AttributeToken

namespace Combinators

variable (library : Combinators)

/-- A value behind an equals sign. -/
def assigned : library.Parser Text :=
  library.map Prod.snd
    (library.andThen (library.select AttributeToken.equals?)
      (library.select AttributeToken.value?))

/-- A word, and a value if one is assigned. -/
def named : library.Parser (Text × Text) :=
  library.map (fun r => (r.1, r.2.getD []))
    (library.andThen (library.select AttributeToken.word?) (library.orNot library.assigned))

/-- An attribute, or any token. -/
def item : library.Parser (Option (Text × Text)) :=
  library.orElse (library.map some library.named)
    (library.map (fun _ => none) (library.select some))

/-- The attributes among any number of items. -/
def attributeList : library.Parser (List (Text × Text)) :=
  library.map (List.filterMap id) (library.repeated library.item)

/-- The attributes that a row of tokens spells. There are none if the grammar leaves a token. -/
def parse (tokens : List AttributeToken) : Option (List (Text × Text)) :=
  TokenParser.whole (library.run library.attributeList) tokens

end Combinators

namespace Attributes

open TokenParser

/-! ## How tokens come apart -/

/-- What a stretch of tokens is read as. -/
inductive Entry where
  /-- A name by itself. -/
  | bare (name : Text)
  /-- A name, an equals sign and a value. -/
  | bound (name : Text) (value : AttributeToken)
  /-- A token that is passed over. -/
  | stray (token : AttributeToken)

namespace Entry

def tokens : Entry → List AttributeToken
  | .bare name => [.word name]
  | .bound name value => [.word name, .equals, value]
  | .stray token => [token]

def pair? : Entry → Option (Text × Text)
  | .bare name => some (name, [])
  | .bound name value => value.value?.map fun v => (name, v)
  | .stray _ => none

/-- The words that are used, as a name and as a value. -/
def words : Entry → List Text
  | .bare name => [name]
  | .bound name value => name :: value.word?.toList
  | .stray _ => []

end Entry

/-- The attributes among some entries. -/
def attributesOf (entries : List Entry) : List (Text × Text) := entries.filterMap Entry.pair?

/-- Tokens are read from left to right: a word with an equals sign and a value behind it takes
these two, another word stands by itself, and what is no word is passed over. -/
inductive Reads : List AttributeToken → List Entry → Prop
  | done : Reads [] []
  | bound {name v : Text} {value : AttributeToken} {rest : List AttributeToken}
    {entries : List Entry} (isValue : value.value? = some v) (later : Reads rest entries) :
    Reads (.word name :: .equals :: value :: rest) (.bound name value :: entries)
  | bare {name : Text} {rest : List AttributeToken} {entries : List Entry}
    (noValue : ∀ value rest', rest = .equals :: value :: rest' → value.value? = none)
    (later : Reads rest entries) : Reads (.word name :: rest) (.bare name :: entries)
  | stray {token : AttributeToken} {rest : List AttributeToken} {entries : List Entry}
    (noWord : token.word? = none) (later : Reads rest entries) :
    Reads (token :: rest) (.stray token :: entries)

variable {tokens rest : List AttributeToken} {entries other : List Entry}

/-- All tokens are read. -/
theorem exists_reads (tokens : List AttributeToken) : ∃ entries, Reads tokens entries := by
  -- An attribute can take three tokens at once.
  induction hn : tokens.length using Nat.strongRecOn generalizing tokens with
  | ind n ih =>
    match tokens with
    | [] => exact ⟨[], .done⟩
    | .equals :: rest | .quoted v :: rest =>
      obtain ⟨entries, later⟩ := ih rest.length (by simp at hn; omega) rest rfl
      exact ⟨_, .stray rfl later⟩
    | .word name :: rest =>
      by_cases behind : ∃ value rest' v, rest = .equals :: value :: rest' ∧ value.value? = some v
      · obtain ⟨value, rest', v, rfl, isValue⟩ := behind
        obtain ⟨entries, later⟩ := ih rest'.length (by simp at hn; omega) rest' rfl
        exact ⟨_, .bound isValue later⟩
      · obtain ⟨entries, later⟩ := ih rest.length (by simp at hn; omega) rest rfl
        refine ⟨_, .bare (fun value rest' same => ?_) later⟩
        by_contra isValue
        obtain ⟨v, isValue⟩ := Option.ne_none_iff_exists'.mp isValue
        exact behind ⟨value, rest', v, same, isValue⟩

/-- Tokens are read in one way only. -/
theorem Reads.unique (reads : Reads tokens entries) (again : Reads tokens other) :
    other = entries := by
  induction reads generalizing other with
  | done =>
    cases again
    rfl
  | bound isValue later ih =>
    cases again with
    | bound isValue' later' => rw [ih later']
    | bare noValue later' =>
      rw [noValue _ _ rfl] at isValue
      cases isValue
    | stray noWord later' => cases noWord
  | bare noValue later ih =>
    cases again with
    | bound isValue later' =>
      rw [noValue _ _ rfl] at isValue
      cases isValue
    | bare noValue' later' => rw [ih later']
    | stray noWord later' => cases noWord
  | stray noWord later ih =>
    cases again with
    | bound isValue later' => cases noWord
    | bare noValue later' => cases noWord
    | stray noWord' later' => rw [ih later']

theorem pairs_cons_of_not_word {token : AttributeToken} (noWord : token.word? = none) :
    pairs (token :: rest) = pairs rest := by
  cases token with
  | word v => cases noWord
  | quoted v => rfl
  | equals => rfl

theorem Reads.pairs_eq (reads : Reads tokens entries) : pairs tokens = attributesOf entries := by
  induction reads with
  | done => rfl
  | @bound name v value rest entries isValue later ih =>
    cases value with
    | word v => rw [pairs, ih]; rfl
    | quoted v => rw [pairs, ih]; rfl
    | equals => cases isValue
  | bare noValue later ih =>
    rw [pairs, ih]
    · rfl
    · intro value rest' behind
      cases noValue _ _ behind
    · intro value rest' behind
      cases noValue _ _ behind
  | stray noWord later ih =>
    rw [pairs_cons_of_not_word noWord, ih]
    rfl

/-- Nothing is lost. -/
theorem Reads.tokens_eq (reads : Reads tokens entries) :
    entries.flatMap Entry.tokens = tokens := by
  induction reads with
  | done => rfl
  | bound isValue later ih => rw [List.flatMap_cons, ih]; rfl
  | bare noValue later ih => rw [List.flatMap_cons, ih]; rfl
  | stray noWord later ih => rw [List.flatMap_cons, ih]; rfl

/-- Each word is a name or a value. -/
theorem Reads.words_eq (reads : Reads tokens entries) :
    entries.flatMap Entry.words = tokens.filterMap AttributeToken.word? := by
  induction reads with
  | done => rfl
  | @bound name v value rest entries isValue later ih =>
    rw [List.flatMap_cons, ih]
    cases value with
    | word v => rfl
    | quoted v => rfl
    | equals => cases isValue
  | bare noValue later ih => rw [List.flatMap_cons, ih]; rfl
  | stray noWord later ih => rw [List.flatMap_cons, ih, List.filterMap_cons, noWord]; rfl

end Attributes

/-! ## What the grammar takes -/

namespace Combinators

open TokenParser Attributes AttributeToken

variable (library : Combinators) {tokens rest : List AttributeToken}

attribute [simp] run_select run_andThen run_orNot run_orElse run_map

theorem run_assigned_value {value : AttributeToken} {v : Text} (isValue : value.value? = some v) :
    library.run library.assigned (.equals :: value :: rest) = some (v, rest) := by
  simp [assigned, TokenParser.map, TokenParser.andThen, TokenParser.select, equals?, isValue]

/-- An equals sign without a value behind it is given back. -/
theorem run_assigned_eq_none
    (noValue : ∀ value rest, tokens = .equals :: value :: rest → value.value? = none) :
    library.run library.assigned tokens = none := by
  simp only [assigned, run_map, run_andThen, run_select]
  match tokens with
  | [] => rfl
  | [.equals] => rfl
  | .word _ :: _ => rfl
  | .quoted _ :: _ => rfl
  | .equals :: value :: rest =>
    simp [TokenParser.map, TokenParser.andThen, TokenParser.select, equals?, noValue _ _ rfl]

theorem run_named_of_assigned {name v : Text}
    (behind : library.run library.assigned tokens = some (v, rest)) :
    library.run library.named (.word name :: tokens) = some ((name, v), rest) := by
  simp [named, TokenParser.map, TokenParser.andThen, TokenParser.select, TokenParser.orNot, word?,
    behind]

theorem run_named_of_not_assigned {name : Text}
    (behind : library.run library.assigned tokens = none) :
    library.run library.named (.word name :: tokens) = some ((name, []), tokens) := by
  simp [named, TokenParser.map, TokenParser.andThen, TokenParser.select, TokenParser.orNot, word?,
    behind]

theorem run_item_of_named {pair : Text × Text}
    (taken : library.run library.named tokens = some (pair, rest)) :
    library.run library.item tokens = some (some pair, rest) := by
  simp [item, TokenParser.orElse, TokenParser.map, taken]

theorem run_item_of_not_word {token : AttributeToken} (noWord : token.word? = none) :
    library.run library.item (token :: rest) = some (none, rest) := by
  simp [item, named, TokenParser.orElse, TokenParser.map, TokenParser.andThen,
    TokenParser.select, noWord]

theorem run_item_nil : library.run library.item [] = none := by
  simp [item, named, TokenParser.orElse, TokenParser.map, TokenParser.andThen, TokenParser.select]

/-- An item takes the tokens of one entry. -/
theorem run_item {entry : Entry} {entries : List Entry} (reads : Reads tokens (entry :: entries)) :
    ∃ rest, tokens = entry.tokens ++ rest ∧ Reads rest entries ∧
      library.run library.item tokens = some (entry.pair?, rest) := by
  cases reads with
  | @bound name v value rest _ isValue later =>
    refine ⟨rest, rfl, later, ?_⟩
    rw [Entry.pair?, isValue]
    exact library.run_item_of_named
      (library.run_named_of_assigned (library.run_assigned_value isValue))
  | @bare name rest _ noValue later =>
    have behind := library.run_assigned_eq_none noValue
    exact ⟨rest, rfl, later, library.run_item_of_named (library.run_named_of_not_assigned behind)⟩
  | @stray token rest _ noWord later =>
    exact ⟨rest, rfl, later, library.run_item_of_not_word noWord⟩

/-- An item takes a token at least, so that it can be repeated. -/
theorem run_item_shorter {a : Option (Text × Text)}
    (taken : library.run library.item tokens = some (a, rest)) : rest.length < tokens.length := by
  obtain ⟨entries, reads⟩ := exists_reads tokens
  cases entries with
  | nil =>
    cases reads
    rw [run_item_nil] at taken
    cases taken
  | cons entry entries =>
    obtain ⟨rest', rfl, -, taken'⟩ := library.run_item reads
    rw [taken', Option.some.injEq, Prod.mk.injEq] at taken
    have : 0 < entry.tokens.length := by cases entry <;> simp [Entry.tokens]
    rw [← taken.2, List.length_append]
    omega

theorem many_item {entries : List Entry} (reads : Reads tokens entries) :
    many (library.run library.item) tokens = (entries.map Entry.pair?, []) := by
  induction entries generalizing tokens with
  | nil =>
    cases reads
    exact many_of_none library.run_item_nil
  | cons entry entries ih =>
    obtain ⟨rest, rfl, later, taken⟩ := library.run_item reads
    rw [many_of_some taken (library.run_item_shorter taken), ih later]
    rfl

/-- The grammar takes every row of tokens to its end. -/
theorem parse_of_reads {entries : List Entry} (reads : Reads tokens entries) :
    library.parse tokens = some (attributesOf entries) := by
  have items : library.run (library.repeated library.item) tokens =
      some (entries.map Entry.pair?, []) := by
    rw [library.run_repeated _ (fun _ _ _ => library.run_item_shorter), library.many_item reads]
  simp [parse, whole, attributeList, TokenParser.map, items, List.filterMap_map, attributesOf]

end Combinators

/-! ## Lists made of pairs -/

namespace Keyed

variable {α : Type}

/-- The value that comes last under `key`. -/
def last? (pairs : List (Text × α)) (key : Text) : Option α :=
  (pairs.reverse.find? fun p => decide (p.1 = key)).map Prod.snd

theorem last?_concat (pairs : List (Text × α)) (p : Text × α) (key : Text) :
    last? (pairs ++ [p]) key = if p.1 = key then some p.2 else last? pairs key := by
  rw [last?, List.reverse_concat, List.find?_cons]
  by_cases same : p.1 = key <;> simp [same, last?]

theorem ofList_concat (pairs : List (Text × α)) (p : Text × α) :
    ofList (pairs ++ [p]) = insert (ofList pairs) p.1 p.2 := by
  simp [ofList, List.foldl_append]

/-- Each key is there once, where it first came. -/
theorem keys_ofList (pairs : List (Text × α)) :
    keys (ofList pairs) = (keys pairs).eraseDups := by
  induction pairs using List.reverseRecOn with
  | nil => rfl
  | append_singleton pairs p ih =>
    have split : keys (pairs ++ [p]) = keys pairs ++ [p.1] := List.map_append
    rw [ofList_concat, keys_insert, ih, split, List.eraseDups_append]
    by_cases there : p.1 ∈ keys pairs <;> simp [there, List.removeAll, List.eraseDups_cons]

/-- Under each key is the value that came last. -/
theorem get?_ofList (pairs : List (Text × α)) (key : Text) :
    get? (ofList pairs) key = last? pairs key := by
  induction pairs using List.reverseRecOn with
  | nil => rfl
  | append_singleton pairs p ih => rw [ofList_concat, get?_insert, ih, last?_concat]

/-- Where keys are apart, what is found under one is what is there. -/
theorem get?_eq_some_iff {m : Keyed α} (apart : (keys m).Nodup) {key : Text} {value : α} :
    get? m key = some value ↔ (key, value) ∈ m := by
  induction m with
  | nil => simp
  | cons p m ih =>
    obtain ⟨k, v⟩ := p
    obtain ⟨notLater, apart⟩ := List.nodup_cons.mp apart
    rw [get?, List.mem_cons, Prod.mk.injEq]
    split
    · next same =>
      subst same
      have elsewhere : (k, value) ∉ m := fun there => notLater (List.mem_map.mpr ⟨_, there, rfl⟩)
      simp [elsewhere, eq_comm]
    · next other => simp [ih apart, Ne.symm other]

end Keyed

/-! ## Reading -/

namespace Attributes

open Keyed

/-- Whatever a lexed row of tokens is, it comes apart in one way from left to right, all of it, and
the grammar reads just that. Every word is a name or a value. What is read has each name where it
first came, with the value that came last. -/
theorem read_greedy (library : Combinators) (t : Text) :
    ∃ entries, Reads (AttributeToken.lexer.tokens t) entries ∧
      (∀ other, Reads (AttributeToken.lexer.tokens t) other → other = entries) ∧
      entries.flatMap Entry.tokens = AttributeToken.lexer.tokens t ∧
      entries.flatMap Entry.words =
        (AttributeToken.lexer.tokens t).filterMap AttributeToken.word? ∧
      library.parse (AttributeToken.lexer.tokens t) = some (attributesOf entries) ∧
      read t = ofList (attributesOf entries) ∧
      keys (read t) = (keys (attributesOf entries)).eraseDups ∧
      ∀ name value,
        ((name, value) ∈ read t ↔ last? (attributesOf entries) name = some value) ∧
        (get? (read t) name = some value ↔ (name, value) ∈ read t) := by
  obtain ⟨entries, reads⟩ := exists_reads (AttributeToken.lexer.tokens t)
  have made : read t = ofList (attributesOf entries) := by rw [read, reads.pairs_eq]
  have apart : (keys (read t)).Nodup := nodup_keys_ofList _
  refine ⟨entries, reads, fun _ => reads.unique, reads.tokens_eq, reads.words_eq,
    library.parse_of_reads reads, made, ?_, fun name value => ⟨?_, get?_eq_some_iff apart⟩⟩
  · rw [made, keys_ofList]
  · rw [← get?_eq_some_iff apart, made, get?_ofList]

/-- There is a library with the combinators that are asked for. -/
theorem read_greedy_plain :
    ∃ entries, Reads (AttributeToken.lexer.tokens "ok=1 \"lonely\" = ok=".toList) entries ∧
      Combinators.plain.parse (AttributeToken.lexer.tokens "ok=1 \"lonely\" = ok=".toList) =
        some (attributesOf entries) := by
  obtain ⟨entries, reads, -, -, -, parsed, -⟩ :=
    read_greedy .plain "ok=1 \"lonely\" = ok=".toList
  exact ⟨entries, reads, parsed⟩

end Attributes

end LiveMarkup
